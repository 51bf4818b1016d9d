import ZarrInline.Python.Store

/-!
# Writing and reading back in Python

Canonical text merges the two sorts of number: an integer and a float of one printed form
are written alike (`Alike`).  Apart from that, a value is read back from its canonical
text, except that neither `str` nor `int` takes an integer of more than 4300 digits.
-/

namespace Python

open Numeric (Text Double NumberToken)

variable {I : Interpreter}

/-! ## The data model -/

/-- A number of the data model: an integer of any size, or a finite float. -/
def PyAtom.IsNumber : PyAtom → Prop
  | .int _ => True
  | .float x => x.IsFinite
  | _ => False

instance : DecidablePred PyAtom.IsNumber
  | .int _ => inferInstanceAs (Decidable True)
  | .float x => inferInstanceAs (Decidable x.IsFinite)
  | .oddDict _ => inferInstanceAs (Decidable False)
  | .other _ => inferInstanceAs (Decidable False)

/-- A string without lone surrogates. -/
def IsWellFormed (s : PyString) : Prop := ∀ c ∈ s, ¬ Unicode.IsSurrogate c

instance : DecidablePred IsWellFormed := fun s =>
  inferInstanceAs (Decidable (∀ c ∈ s, ¬ Unicode.IsSurrogate c))

/-- A JSON value: well-formed strings, integers and finite floats, in arrays and in objects
with distinct names. -/
def IsJson (v : PyValue) : Prop :=
  v.Every IsWellFormed PyAtom.IsNumber (Json.Ordered Json.noRank)

instance : DecidablePred IsJson := fun v => inferInstanceAs (Decidable (v.Every _ _ _))

/-- An integer has no more digits than `str` writes. -/
def PyAtom.IsPrintable : PyAtom → Prop
  | .int i => (Numeric.natDigits i.natAbs).length ≤ maxStrDigits
  | _ => True

instance : DecidablePred PyAtom.IsPrintable
  | .int _ => inferInstanceAs (Decidable (_ ≤ _))
  | .float _ => inferInstanceAs (Decidable True)
  | .oddDict _ => inferInstanceAs (Decidable True)
  | .other _ => inferInstanceAs (Decidable True)

/-- The integers in a value have at most 4300 digits. -/
def IsPrintable (v : PyValue) : Prop := v.Every (fun _ => True) PyAtom.IsPrintable (fun _ => True)

instance : DecidablePred IsPrintable := fun v => inferInstanceAs (Decidable (v.Every _ _ _))

/-- The values are equal when an integer and a float of one printed form are. -/
def Alike (v w : PyValue) : Prop := v.map id atomToken = w.map id atomToken

/-- What a number is read back as. -/
def reread (a : PyAtom) : PyAtom := numberValue (atomToken a)

/-! ## Numbers -/

/-- A float that is written as an integer has at most 21 digits. -/
theorem length_int_toToken_le {x : Double} (h : x.toToken.IsInteger) :
    x.toToken.int.length ≤ maxStrDigits := by
  cases x with
  | nan => exact show ([0] : List Numeric.Digit).length ≤ maxStrDigits by decide
  | infinity neg => exact show ([0] : List Numeric.Digit).length ≤ maxStrDigits by decide
  | finite neg u hu =>
      simp only [Double.toToken] at h ⊢
      split at h
      · next h0 =>
          rw [dif_pos h0]
          decide
      · next h0 =>
          rw [dif_neg h0]
          exact (Numeric.Decimal.length_int_esToken_le h).trans (by decide)

/-- What is written is read again. -/
theorem acceptsNumber_atomToken {a : PyAtom} (h : a.IsPlain) : acceptsNumber (atomToken a) = true := by
  cases a with
  | int i =>
      rw [atomToken, acceptsNumber, if_pos (NumberToken.isInteger_ofInt i)]
      exact decide_eq_true h
  | float x =>
      have hx : x.IsFinite := h
      rw [atomToken, acceptsNumber]
      split
      · next hint => exact decide_eq_true (length_int_toToken_le hint)
      · rw [Double.ofToken_toToken hx]
        exact decide_eq_true (Double.isFinite_dropNegZero.2 hx)
  | oddDict name => exact h.elim
  | other type => exact h.elim

/-- A number that is read back is written as before. -/
theorem atomToken_reread {a : PyAtom} (h : a.IsNumber) : atomToken (reread a) = atomToken a := by
  cases a with
  | int i =>
      rw [reread, atomToken, numberValue, if_pos (NumberToken.isInteger_ofInt i),
        NumberToken.intValue_ofInt, atomToken]
  | float x =>
      have hx : x.IsFinite := h
      rw [reread, atomToken, numberValue]
      split
      · next hint => exact (Double.toToken_eq_ofInt hint).symm
      · rw [atomToken, Double.ofToken_toToken hx, Double.toToken_dropNegZero]
  | oddDict name => exact h.elim
  | other type => exact h.elim

theorem isPlain_iff (a : PyAtom) : a.IsPlain ↔ a.IsNumber ∧ a.IsPrintable := by
  cases a <;> simp [PyAtom.IsPlain, PyAtom.IsNumber, PyAtom.IsPrintable]

/-! ## Values -/

/-- Only plain values are written. -/
theorem isPlain_of_canonicalWrite {v : PyValue} {r : ℕ} {text : Text}
    (h : canonicalWrite I v r = .ok text) : IsPlain v := by
  induction v using Json.inductionOn generalizing r text with
  | null => trivial
  | bool b => trivial
  | str s => trivial
  | num a =>
      refine (Json.every_num a).2 ?_
      cases r with
      | zero => cases h
      | succ r =>
          replace h : writeAtom I a r = .ok text := h
          cases a with
          | int i =>
              rw [writeAtom] at h
              split at h
              · next hlen => exact hlen
              · cases h
          | float x =>
              by_contra hx
              have hnone := I.floatText_of_not_isFinite x hx
              rw [writeAtom, hnone] at h
              split at h <;> cases h
          | oddDict name => cases h
          | other type => cases h
  | arr xs ih =>
      cases r with
      | zero => rw [canonicalWrite_zero] at h; cases h
      | succ r =>
          rw [canonicalWrite, Json.fold_arr, ← canonicalWrite] at h
          simp only [call, List.map_map, Function.comp_def] at h
          obtain ⟨texts, htexts, -⟩ := Json.exists_of_map_eq_ok h
          refine (Json.every_arr xs).2 fun x hx => ?_
          obtain ⟨t, ht⟩ := Json.exists_of_sequence_eq_ok htexts hx
          exact ih x hx ht
  | obj ms ih =>
      cases r with
      | zero => rw [canonicalWrite_zero] at h; cases h
      | succ r =>
          rw [canonicalWrite, Json.fold_obj, ← canonicalWrite] at h
          simp only [call, List.map_map, Function.comp_def] at h
          obtain ⟨texts, htexts, -⟩ := Json.exists_of_map_eq_ok h
          refine (Json.every_obj ms).2 ⟨trivial, fun m hm => ⟨trivial, ?_⟩⟩
          obtain ⟨t, ht⟩ := Json.exists_of_sequence_eq_ok htexts hm
          cases hvalue : canonicalWrite I m.2 r with
          | ok text => exact ih m hm hvalue
          | error e =>
              rw [writeMember, hvalue] at ht
              cases htext : dumpsText I m.1 r with
              | ok k => rw [htext] at ht; cases ht
              | error e => rw [htext] at ht; cases ht

/-- Reading back the canonical text of a value. -/
theorem ofRaw_canonicalTree {v : PyValue}
    (h : v.Every (fun _ => True) (fun _ => True) (Json.Ordered Json.noRank)) :
    ofRaw (canonicalTree v) = v.map id reread := by
  have hread : Json.read (canonicalTree v) = v.map id atomToken :=
    Json.load_map (h.imp (fun s _ => Json.unescape_canonicalItems s) (fun _ => id) fun _ => id)
  rw [ofRaw, hread, Json.map_map]
  rfl

/-- Canonical text is read if the value nests no deeper than the scanner does. -/
theorem strictLoads_canonicalTree {v : PyValue} (hplain : IsPlain v)
    (hordered : v.Every (fun _ => True) (fun _ => True) (Json.Ordered Json.noRank))
    (hdepth : v.depth ≤ I.scanDepth) :
    strictLoads I (canonicalTree v).text = .ok (v.map id reread) := by
  have hwritable : (canonicalTree v).Writable := Json.writable_map v
  have hwithin : Json.Within I.limits (canonicalTree v) := by
    constructor
    · rw [Json.Accepted, canonicalTree, Json.every_map]
      exact hplain.imp (fun _ => id) (fun _ => acceptsNumber_atomToken) fun _ => id
    · rw [canonicalTree, Json.depth_map]
      simpa [Json.Limits.Fits, Interpreter.limits] using hdepth
  rw [strictLoads, Json.parse_text hwritable hwithin]
  exact congrArg Except.ok (ofRaw_canonicalTree hordered)

theorem alike_reread {v : PyValue} (h : v.Every (fun _ => True) PyAtom.IsNumber (fun _ => True)) :
    Alike v (v.map id reread) := by
  rw [Alike, Json.map_map]
  exact Json.map_congr h (fun _ _ => rfl) fun _ ha => (atomToken_reread ha).symm

/-! ## The round trip -/

/-- A value is written and read back, up to the sort of its numbers, if and only if its
integers have at most 4300 digits. -/
theorem roundTrips_iff (I : Interpreter) (v : PyValue) (hv : IsJson v) (r : ℕ) (hneed : need I v ≤ r)
    (hdepth : v.depth ≤ I.scanDepth) :
    (∃ text w, canonicalDumps I v r = .ok text ∧ strictLoads I text = .ok w ∧ Alike v w) ↔
      IsPrintable v := by
  constructor
  · rintro ⟨text, w, htext, -⟩
    exact (isPlain_of_canonicalWrite htext).imp (fun _ => id) (fun a ha => ((isPlain_iff a).1 ha).2)
      fun _ => id
  · intro hprint
    have hnumber : v.Every (fun _ => True) PyAtom.IsNumber (fun _ => True) :=
      hv.imp (fun _ _ => trivial) (fun _ => id) fun _ _ => trivial
    have hplain : IsPlain v :=
      (hnumber.and hprint).imp (fun _ _ => trivial) (fun a ha => (isPlain_iff a).2 ha)
        fun _ _ => trivial
    have hordered : v.Every (fun _ => True) (fun _ => True) (Json.Ordered Json.noRank) :=
      hv.imp (fun _ _ => trivial) (fun _ _ => trivial) fun _ => id
    have hwrite := canonicalWrite_eq (I := I) hplain r
    rw [if_pos hneed] at hwrite
    exact ⟨_, _, hwrite, strictLoads_canonicalTree hplain hordered hdepth, alike_reread hnumber⟩

theorem roundTrips_iff_sample :
    IsJson (.arr [.num (.int (10 ^ 30)), .str (py "a")]) ∧
      ((∃ text w, canonicalDumps cpython (.arr [.num (.int (10 ^ 30)), .str (py "a")]) 990 = .ok text ∧
          strictLoads cpython text = .ok w ∧ Alike (.arr [.num (.int (10 ^ 30)), .str (py "a")]) w) ↔
        IsPrintable (.arr [.num (.int (10 ^ 30)), .str (py "a")])) :=
  ⟨by decide, roundTrips_iff cpython _ (by decide) 990 (by decide) (by decide)⟩

theorem length_natDigits_ten_pow (n : ℕ) : (Numeric.natDigits (10 ^ n)).length = n + 1 := by
  rw [Numeric.natDigits, if_neg (by positivity), List.length_map, List.length_reverse,
    Nat.length_digits 10 _ (by norm_num) (by positivity), Nat.log_pow (by norm_num)]

/-- An integer of too many digits is not written. -/
theorem canonicalDumps_ten_pow {n : ℕ} (h : maxStrDigits ≤ n) (r : ℕ) :
    canonicalDumps I (.num (.int (10 ^ n))) (r + 1) = .error (.value .intDigits) := by
  have hlen : ¬ (Numeric.natDigits ((10 : ℤ) ^ n).natAbs).length ≤ maxStrDigits := by
    rw [Int.natAbs_pow]
    show ¬ (Numeric.natDigits (10 ^ n)).length ≤ maxStrDigits
    rw [length_natDigits_ten_pow]
    omega
  show writeAtom I (.int (10 ^ n)) r = _
  rw [writeAtom, if_neg hlen]

/-- The integer of a one and 4300 zeros is a value that is not written. -/
theorem not_roundTrips_ten_pow :
    IsJson (.num (.int (10 ^ maxStrDigits))) ∧ need cpython (.num (.int (10 ^ maxStrDigits))) ≤ 990 ∧
      canonicalDumps cpython (.num (.int (10 ^ maxStrDigits))) 990 = .error (.value .intDigits) :=
  ⟨(Json.every_num _).2 trivial, show 1 ≤ 990 by norm_num, canonicalDumps_ten_pow le_rfl 989⟩

end Python
