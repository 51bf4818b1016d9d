import ZarrInline.Numeric.Shortest

/-!
# Numbers of two sorts

A number of the data model is an integer of any size or a binary64 number.  Canonical text
prints a number without its sort: a float that prints as an integer is read back as one
(`canonical`).  Every other number is read back as it was (`canonical_eq_self_iff`).
-/

namespace Numeric

/-- A number. -/
inductive Number where
  | int (i : ℤ)
  | float (x : Double)
deriving DecidableEq

/-- The number a token is. -/
def NumberToken.toNumber (n : NumberToken) : Number :=
  if n.IsInteger then .int n.intValue else .float (Double.ofToken n)

namespace Number

/-- The token that is printed for a number. -/
def toToken : Number → NumberToken
  | .int i => .ofInt i
  | .float x => x.toToken

/-- The number that is read back. -/
def canonical (a : Number) : Number := a.toToken.toNumber

def IsFinite : Number → Prop
  | .int _ => True
  | .float x => x.IsFinite

instance : DecidablePred IsFinite
  | .int _ => inferInstanceAs (Decidable True)
  | .float x => inferInstanceAs (Decidable x.IsFinite)

/-- An integer, or a float that does not print as one. -/
def IsNormal : Number → Prop
  | .int _ => True
  | .float x => ¬ x.toToken.IsInteger

instance : DecidablePred IsNormal
  | .int _ => inferInstanceAs (Decidable True)
  | .float _ => inferInstanceAs (Decidable (¬ _))

end Number

/-- A zero prints as an integer. -/
theorem Double.dropNegZero_eq_self {x : Double} (h : ¬ x.toToken.IsInteger) : x.dropNegZero = x := by
  cases x with
  | nan => rfl
  | infinity neg => rfl
  | finite neg u hu =>
      rw [Double.dropNegZero, if_neg]
      rintro rfl
      refine h ?_
      rw [Double.toToken, dif_pos rfl]
      exact NumberToken.isInteger_ofInt 0

/-- The canonical form of a token is what is printed for its number. -/
theorem Number.toToken_toNumber (n : NumberToken) : n.toNumber.toToken
    = if n.IsInteger then .ofInt n.intValue else (Double.ofToken n).toToken := by
  rw [NumberToken.toNumber]
  split <;> rfl

theorem Number.canonical_eq_self_iff {a : Number} (h : a.IsFinite) : a.canonical = a ↔ a.IsNormal := by
  cases a with
  | int i =>
      refine iff_of_true ?_ trivial
      rw [canonical, toToken, NumberToken.toNumber, if_pos (NumberToken.isInteger_ofInt i),
        NumberToken.intValue_ofInt]
  | float x =>
      have hx : x.IsFinite := h
      rw [canonical, toToken, NumberToken.toNumber]
      by_cases hint : x.toToken.IsInteger
      · rw [if_pos hint]
        exact iff_of_false (fun h => by cases h) (not_not.2 hint)
      · rw [if_neg hint, Double.ofToken_toToken hx, Double.dropNegZero_eq_self hint]
        exact iff_of_true rfl hint

/-! ## A float that does not look like an integer -/

namespace NumberToken

/-- An integer token with a fraction of one zero. -/
def withPoint (n : NumberToken) : NumberToken := { n with frac := [0], exp := none }

theorem not_isInteger_withPoint (n : NumberToken) : ¬ n.withPoint.IsInteger := fun h => by
  cases h.1

theorem render_withPoint {n : NumberToken} (h : n.IsInteger) :
    n.withPoint.render = n.render ++ ['.'.toNat, '0'.toNat] := by
  rw [render, render, h.1, h.2]
  simp only [withPoint, renderFrac, renderExp, List.append_nil, List.append_assoc]
  rfl

theorem magnitude_withPoint {n : NumberToken} (h : n.IsInteger) : n.withPoint.magnitude = n.magnitude := by
  have hdigits : (ofDigits (n.int ++ [0]) : ℚ) = ofDigits n.int * 10 := by
    rw [ofDigits_append]
    norm_num [ofDigits_cons]
  rw [magnitude_of_isInteger h, natAbs_intValue]
  show (ofDigits (n.int ++ [0]) : ℚ) * 10 ^ ((0 : ℤ) - (1 : ℕ)) = ofDigits n.int
  rw [hdigits]
  norm_num
  ring

end NumberToken

namespace Double

/-- The token of a float that is read back as a float. -/
def floatToken (x : Double) : NumberToken :=
  if x.toToken.IsInteger then x.toToken.withPoint else x.toToken

theorem not_isInteger_floatToken (x : Double) : ¬ x.floatToken.IsInteger := by
  rw [floatToken]
  split
  · exact NumberToken.not_isInteger_withPoint _
  · next h => exact h

theorem ofToken_floatToken {x : Double} (h : x.IsFinite) : ofToken x.floatToken = x.dropNegZero := by
  rw [floatToken]
  split
  · next hint =>
      rw [← ofToken_toToken h, ofToken, ofToken, NumberToken.magnitude_withPoint hint]
      rfl
  · exact ofToken_toToken h

end Double

end Numeric
