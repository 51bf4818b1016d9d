import ZarrInline.TypeScript.Conformance
import ZarrInline.Text.Ordering

/-!
# The order of strings in TypeScript

The loop of `compareCodePoints` steps through two strings by index, over one code unit or
over the two of a pair (`compareFrom`).  It compares the code points that are left
(`compareFrom_eq`), so its sign is the order of the code points.
-/

namespace TypeScript

open Unicode (codePoints encodeUtf16 encodeUnits combine IsHigh IsLow)

variable {a b : JsString} {i j : ℕ}

/-! ## The loop -/

/-- The first code point of code units. -/
def firstCodePoint : JsString → Option ℕ
  | [] => none
  | [u] => some u.toNat
  | u :: v :: _ =>
      if IsHigh u.toNat ∧ IsLow v.toNat then some (combine u.toNat v.toNat) else some u.toNat

/-- `String.prototype.codePointAt`. -/
def codePointAt (s : JsString) (i : ℕ) : Option ℕ := firstCodePoint (s.drop i)

/-- The code units that a step passes. -/
def width (c : ℕ) : ℕ := if 0xFFFF < c then 2 else 1

theorem width_pos (c : ℕ) : 0 < width c := by
  rw [width]
  split <;> omega

/-- The loop of `compareCodePoints`, at the positions `i` and `j`. -/
def compareFrom (a b : JsString) (i j : ℕ) : ℤ :=
  if i < a.length ∧ j < b.length then
    let ca := (codePointAt a i).getD 0
    let cb := (codePointAt b j).getD 0
    if ca ≠ cb then (if ca < cb then -1 else 1)
    else compareFrom a b (i + width ca) (j + width cb)
  else ((a.length : ℤ) - i) - ((b.length : ℤ) - j)
termination_by a.length - i
decreasing_by
  have hpos := width_pos ((codePointAt a i).getD 0)
  omega

/-- A step passes the first code point. -/
theorem codePoints_eq_cons {s : JsString} (h : s ≠ []) :
    ∃ c, firstCodePoint s = some c ∧ width c ≤ s.length ∧
      codePoints s = c :: codePoints (s.drop (width c)) := by
  rcases s with _ | ⟨u, _ | ⟨v, rest⟩⟩
  · exact absurd rfl h
  · have hu : width u.toNat = 1 := if_neg (by have := u.toNat_lt; omega)
    exact ⟨u.toNat, rfl, hu.le, by rw [hu]; rfl⟩
  · by_cases hpair : IsHigh u.toNat ∧ IsLow v.toNat
    · have hge := (Unicode.combine_units hpair.1 hpair.2).1
      have hw : width (combine u.toNat v.toNat) = 2 := if_pos (by omega)
      refine ⟨combine u.toNat v.toNat, if_pos hpair, ?_, ?_⟩
      · rw [hw]
        exact Nat.le_add_left 2 rest.length
      · rw [hw, codePoints, if_pos hpair]
        rfl
    · have hu : width u.toNat = 1 := if_neg (by have := u.toNat_lt; omega)
      refine ⟨u.toNat, if_neg hpair, ?_, ?_⟩
      · rw [hu]
        exact Nat.le_add_left 1 _
      · rw [hu, codePoints, if_neg hpair]
        rfl

/-- The loop compares the code points that are left. -/
theorem compareFrom_eq (hi : i ≤ a.length) (hj : j ≤ b.length) :
    compareFrom a b i j = compareCodePoints.go (codePoints (a.drop i)) (codePoints (b.drop j)) := by
  induction h : a.length - i using Nat.strongRecOn generalizing i j with
  | ind n ih =>
      rw [compareFrom]
      by_cases hlt : i < a.length ∧ j < b.length
      · have hane : a.drop i ≠ [] := fun h => by
          have := List.drop_eq_nil_iff.1 h
          omega
        have hbne : b.drop j ≠ [] := fun h => by
          have := List.drop_eq_nil_iff.1 h
          omega
        obtain ⟨ca, hca, hwa, hacons⟩ := codePoints_eq_cons hane
        obtain ⟨cb, hcb, hwb, hbcons⟩ := codePoints_eq_cons hbne
        rw [List.length_drop] at hwa hwb
        rw [if_pos hlt, hacons, hbcons, compareCodePoints.go]
        simp only [codePointAt, hca, hcb, Option.getD_some]
        by_cases hne : ca ≠ cb
        · rw [if_pos hne, if_pos hne]
        · have hpos := width_pos ca
          rw [if_neg hne, if_neg hne, ih (a.length - (i + width ca)) (by omega) (by omega) (by omega)
            rfl, List.drop_drop, List.drop_drop]
      · rw [if_neg hlt]
        have hlen : ∀ {s : JsString} {k : ℕ}, k ≤ s.length →
            ((encodeUtf16 (codePoints (s.drop k))).length : ℤ) = (s.length : ℤ) - k := by
          intro s k hk
          rw [Unicode.encodeUtf16_codePoints, List.length_drop, Nat.cast_sub hk]
        have hnil : codePoints (a.drop i) = [] ∨ codePoints (b.drop j) = [] := by
          rcases not_and_or.1 hlt with hge | hge
          · rw [List.drop_eq_nil_iff.2 (not_lt.1 hge)]
            exact Or.inl rfl
          · rw [List.drop_eq_nil_iff.2 (not_lt.1 hge)]
            exact Or.inr rfl
        rw [← hlen hi, ← hlen hj]
        rcases hnil with hnil | hnil <;> rw [hnil]
        · rfl
        · cases codePoints (a.drop i) <;> rfl

theorem compareFrom_zero (a b : JsString) : compareFrom a b 0 0 = compareCodePoints a b :=
  compareFrom_eq (Nat.zero_le _) (Nat.zero_le _)

/-! ## The sign -/

theorem encodeUtf16_length_pos (c : ℕ) (cs : List ℕ) : 0 < (encodeUtf16 (c :: cs)).length := by
  rw [Unicode.encodeUtf16_cons, encodeUnits]
  split <;> simp

/-- The order of lists of code points, as a sign. -/
theorem go_sign (cs ds : List ℕ) : (compareCodePoints.go cs ds < 0 ↔ cs < ds) ∧
    (0 < compareCodePoints.go cs ds ↔ ds < cs) := by
  induction cs generalizing ds with
  | nil =>
      cases ds with
      | nil => simp [compareCodePoints.go]
      | cons d ds =>
          have hpos := encodeUtf16_length_pos d ds
          simp only [compareCodePoints.go, Unicode.encodeUtf16_nil, List.length_nil]
          refine ⟨iff_of_true (by omega) (List.nil_lt_cons _ _), iff_of_false (by omega) ?_⟩
          exact List.not_lt_nil _
  | cons c cs ih =>
      cases ds with
      | nil =>
          have hpos := encodeUtf16_length_pos c cs
          simp only [compareCodePoints.go, Unicode.encodeUtf16_nil, List.length_nil]
          refine ⟨iff_of_false (by omega) (List.not_lt_nil _), iff_of_true (by omega) ?_⟩
          exact List.nil_lt_cons _ _
      | cons d ds =>
          rw [compareCodePoints.go, List.cons_lt_cons_iff, List.cons_lt_cons_iff]
          rcases lt_trichotomy c d with hcd | rfl | hcd
          · rw [if_pos hcd.ne, if_pos hcd]
            exact ⟨iff_of_true (by decide) (Or.inl hcd),
              iff_of_false (by decide) (by rintro (h | ⟨h, -⟩) <;> omega)⟩
          · rw [if_neg (not_not.2 rfl)]
            simpa using ih ds
          · rw [if_pos hcd.ne', if_neg hcd.not_gt]
            exact ⟨iff_of_false (by decide) (by rintro (h | ⟨h, -⟩) <;> omega),
              iff_of_true (by decide) (Or.inl hcd)⟩

theorem compareCodePoints_neg_iff : compareCodePoints a b < 0 ↔ codePoints a < codePoints b :=
  (go_sign _ _).1

theorem compareCodePoints_pos_iff : 0 < compareCodePoints a b ↔ codePoints b < codePoints a :=
  (go_sign _ _).2

theorem codePoints_inj : codePoints a = codePoints b ↔ a = b := by
  refine ⟨fun h => ?_, congrArg _⟩
  rw [← Unicode.encodeUtf16_codePoints a, h, Unicode.encodeUtf16_codePoints]

theorem compareCodePoints_eq_zero_iff : compareCodePoints a b = 0 ↔ a = b := by
  rw [← codePoints_inj]
  have hneg := compareCodePoints_neg_iff (a := a) (b := b)
  have hpos := compareCodePoints_pos_iff (a := a) (b := b)
  constructor
  · intro h
    rw [h] at hneg hpos
    exact le_antisymm (not_lt.1 (hpos.not.1 (lt_irrefl _))) (not_lt.1 (hneg.not.1 (lt_irrefl _)))
  · intro h
    rw [h] at hneg hpos
    have hge := hneg.not.2 (lt_irrefl _)
    have hle := hpos.not.2 (lt_irrefl _)
    omega

theorem compareCodePoints_le_iff : compareCodePoints a b ≤ 0 ↔ codePoints a ≤ codePoints b := by
  rw [← not_lt, ← not_lt, compareCodePoints_pos_iff]

end TypeScript
