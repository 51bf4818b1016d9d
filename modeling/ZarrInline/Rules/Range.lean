import ZarrInline.Json.Writer

/-!
# The range of the parts of a complex element

The JSON form of a complex scalar is a pair, and a part of it is a number or the name of a
value that is not finite.  The codecs convert the parts first and then check that the result
is finite, but only where both parts are numbers.  So what the check lets through is a part
that is no name, becomes a value that is not finite, and stands beside a part that is no
number (`forall_sound_iff`).

A `PartReader` is how one host reads the parts.
-/

namespace Rules

variable {σ ν κ : Type}

/-- How a host reads the parts of a pair. -/
structure PartReader (σ ν κ : Type) where
  isNumber : Json σ ν → Bool
  /-- One of the strings that stand for values that are not finite. -/
  isNamed : Json σ ν → Bool
  /-- The value of a part, if the part is not refused. -/
  read : Json σ ν → Option κ
  isFinite : κ → Bool
  isNamed_of_isNumber : ∀ c, isNumber c = true → isNamed c = false

/-- The parts of a pair. -/
def parts : Json σ ν → List (Json σ ν)
  | .arr [re, im] => [re, im]
  | _ => []

/-- The two values of an element. -/
def values (z : κ × κ) : List κ := [z.1, z.2]

namespace PartReader

variable (R : PartReader σ ν κ)

/-- Read an element: a pair of parts, where two numbers have to become finite values. -/
def readElement : Json σ ν → Option (κ × κ)
  | .arr [re, im] => do
      let x ← R.read re
      let y ← R.read im
      if R.isNumber re && R.isNumber im && !(R.isFinite x && R.isFinite y) then none
      else some (x, y)
  | _ => none

/-- A part that is no name becomes a value that is not finite. -/
def Strays (c : Json σ ν) : Prop :=
  R.isNamed c = false ∧ ∃ x, R.read c = some x ∧ R.isFinite x = false

/-- An element that is not read: no pair, a part that is refused, or two numbers of which one
becomes a value that is not finite. -/
def Refuses (v : Json σ ν) : Prop :=
  ∀ re im, v = .arr [re, im] →
    R.read re = none ∨ R.read im = none ∨
      (R.isNumber re = true ∧ R.isNumber im = true ∧ (R.Strays re ∨ R.Strays im))

/-- A part has not overflowed: a number becomes a finite value, and only a name a value that
is not finite. -/
structure Sound (c : Json σ ν) (x : κ) : Prop where
  number : R.isNumber c = true → ∃ y, R.read c = some y ∧ R.isFinite y = true
  named : R.isFinite x = false → R.isNamed c = true

variable {R}

theorem sound_iff {c : Json σ ν} {x : κ} (h : R.read c = some x) : R.Sound c x ↔ ¬ R.Strays c := by
  constructor
  · rintro ⟨-, hnamed⟩ ⟨hname, y, hy, hfinite⟩
    obtain rfl := Option.some.inj (h.symm.trans hy)
    rw [hnamed hfinite] at hname
    cases hname
  · intro hstrays
    constructor
    · intro hnumber
      refine ⟨x, h, ?_⟩
      by_contra hfinite
      exact hstrays ⟨R.isNamed_of_isNumber c hnumber, x, h, eq_false_of_ne_true hfinite⟩
    · intro hfinite
      by_contra hname
      exact hstrays ⟨eq_false_of_ne_true hname, x, h, hfinite⟩

/-- An element that is read is a pair of parts that are read. -/
theorem exists_of_readElement {v : Json σ ν} {z : κ × κ} (h : R.readElement v = some z) :
    ∃ re im, v = .arr [re, im] ∧ R.read re = some z.1 ∧ R.read im = some z.2 := by
  match v, h with
  | .arr [re, im], h =>
      rw [readElement] at h
      obtain ⟨x, hx, h⟩ := Option.bind_eq_some_iff.1 h
      obtain ⟨y, hy, h⟩ := Option.bind_eq_some_iff.1 h
      split at h
      · cases h
      · cases h
        exact ⟨re, im, rfl, hx, hy⟩

/-- A number that is read strays if its value is not finite. -/
theorem strays_iff_of_isNumber {c : Json σ ν} {x : κ} (hnumber : R.isNumber c = true)
    (h : R.read c = some x) : R.Strays c ↔ R.isFinite x = false := by
  constructor
  · rintro ⟨-, y, hy, hfinite⟩
    obtain rfl := Option.some.inj (h.symm.trans hy)
    exact hfinite
  · exact fun hfinite => ⟨R.isNamed_of_isNumber c hnumber, x, h, hfinite⟩

theorem readElement_eq_none_iff {v : Json σ ν} : R.readElement v = none ↔ R.Refuses v := by
  constructor
  · rintro h re im rfl
    rw [readElement] at h
    cases hre : R.read re with
    | none => exact Or.inl rfl
    | some x =>
        cases him : R.read im with
        | none => exact Or.inr (Or.inl rfl)
        | some y =>
            rw [hre, him] at h
            replace h : (if R.isNumber re && R.isNumber im && !(R.isFinite x && R.isFinite y) then none
              else some (x, y)) = none := h
            split at h
            · next hcheck =>
                simp only [Bool.and_eq_true, Bool.not_eq_true', Bool.and_eq_false_iff] at hcheck
                obtain ⟨⟨hnre, hnim⟩, hfinite⟩ := hcheck
                exact Or.inr (Or.inr ⟨hnre, hnim,
                  hfinite.imp (strays_iff_of_isNumber hnre hre).2 (strays_iff_of_isNumber hnim him).2⟩)
            · cases h
  · intro h
    cases hread : R.readElement v with
    | none => rfl
    | some z =>
        obtain ⟨re, im, rfl, hre, him⟩ := exists_of_readElement hread
        rcases h re im rfl with hnone | hnone | ⟨hnre, hnim, hstrays⟩
        · rw [hre] at hnone
          cases hnone
        · rw [him] at hnone
          cases hnone
        · have hcheck : (R.isNumber re && R.isNumber im && !(R.isFinite z.1 && R.isFinite z.2)) = true := by
            simp only [Bool.and_eq_true, Bool.not_eq_true', Bool.and_eq_false_iff]
            exact ⟨⟨hnre, hnim⟩,
              hstrays.imp (strays_iff_of_isNumber hnre hre).1 (strays_iff_of_isNumber hnim him).1⟩
          rw [readElement, hre, him] at hread
          replace hread : (if R.isNumber re && R.isNumber im && !(R.isFinite z.1 && R.isFinite z.2) then
            none else some (z.1, z.2)) = some z := hread
          rw [if_pos hcheck] at hread
          cases hread

/-- No part of elements that are read has overflowed, if and only if none strays. -/
theorem forall₂_sound_iff {flat : List (Json σ ν)} {zs : List (κ × κ)}
    (h : List.Forall₂ (fun v z => R.readElement v = some z) flat zs) :
    List.Forall₂ R.Sound (flat.flatMap parts) (zs.flatMap values) ↔
      ∀ c ∈ flat.flatMap parts, ¬ R.Strays c := by
  induction h with
  | nil => simp
  | @cons v z flat zs hv _ ih =>
      obtain ⟨re, im, rfl, hre, him⟩ := exists_of_readElement hv
      rw [List.flatMap_cons, List.flatMap_cons]
      show List.Forall₂ R.Sound (re :: im :: flat.flatMap parts) (z.1 :: z.2 :: zs.flatMap values) ↔ _
      rw [List.forall₂_cons, List.forall₂_cons, ih, sound_iff hre, sound_iff him]
      exact (by simp only [parts, List.cons_append, List.nil_append, List.forall_mem_cons])

/-- Where no part has overflowed, the values that are not finite have names. -/
theorem forall₂_named {cs : List (Json σ ν)} {xs : List κ} (h : List.Forall₂ R.Sound cs xs) :
    List.Forall₂ (fun named finite => finite = false → named = true) (cs.map R.isNamed)
      (xs.map R.isFinite) := by
  rw [List.forall₂_map_left_iff, List.forall₂_map_right_iff]
  exact h.imp fun _ _ hsound => hsound.named

theorem exists_forall₂_readElement {flat : List (Json σ ν)} (h : ∀ v ∈ flat, ¬ R.Refuses v) :
    ∃ zs, List.Forall₂ (fun v z => R.readElement v = some z) flat zs := by
  induction flat with
  | nil => exact ⟨[], .nil⟩
  | cons v flat ih =>
      obtain ⟨hv, hflat⟩ := List.forall_mem_cons.1 h
      obtain ⟨z, hz⟩ := Option.ne_none_iff_exists'.1 (mt readElement_eq_none_iff.1 hv)
      obtain ⟨zs, hzs⟩ := ih hflat
      exact ⟨z :: zs, .cons hz hzs⟩

/-- Where the elements are read, no part has overflowed, if and only if an element is refused
or no part strays. -/
theorem forall_sound_iff (flat : List (Json σ ν)) :
    (∀ zs, List.Forall₂ (fun v z => R.readElement v = some z) flat zs →
        List.Forall₂ R.Sound (flat.flatMap parts) (zs.flatMap values)) ↔
      (∃ v ∈ flat, R.Refuses v) ∨ ∀ c ∈ flat.flatMap parts, ¬ R.Strays c := by
  constructor
  · intro h
    by_cases hrefuses : ∃ v ∈ flat, R.Refuses v
    · exact Or.inl hrefuses
    · obtain ⟨zs, hzs⟩ := exists_forall₂_readElement fun v hv hr => hrefuses ⟨v, hv, hr⟩
      exact Or.inr ((forall₂_sound_iff hzs).1 (h zs hzs))
  · rintro (⟨v, hv, hr⟩ | hstrays) zs hzs
    · obtain ⟨i, hi, rfl⟩ := List.mem_iff_getElem.1 hv
      have hread := (List.forall₂_iff_get.1 hzs).2 i hi (hzs.length_eq ▸ hi)
      rw [List.get_eq_getElem, readElement_eq_none_iff.2 hr] at hread
      cases hread
    · exact (forall₂_sound_iff hzs).2 hstrays

end PartReader

end Rules
