import ZarrInline.Numeric.Shortest

/-!
# Python's `repr` of a float

The shortest decimal of a number in the notation of `float.__repr__`: in fixed notation with
a fraction, or with an exponent of at least two digits.  So the text of a float is never that
of an integer, and it reads back as the float, negative zero included
(`Double.ofToken_reprToken`).
-/

namespace Numeric

namespace Decimal

/-- At least two digits. -/
def padded (n : ℕ) : List Digit := if n < 10 then 0 :: natDigits n else natDigits n

theorem padded_ne_nil (n : ℕ) : padded n ≠ [] := by
  unfold padded
  split
  · exact List.cons_ne_nil _ _
  · exact natDigits_ne_nil n

theorem ofDigits_padded (n : ℕ) : ofDigits (padded n) = n := by
  unfold padded
  split
  · rw [ofDigits_cons, ofDigits_natDigits]
    simp
  · rw [ofDigits_natDigits]

/-- An exponent with its sign and at least two digits. -/
def paddedExponent (e : ℤ) : Exponent where
  upper := false
  sign := some (decide (e < 0))
  digits := padded e.natAbs
  digits_ne := padded_ne_nil _

theorem value_paddedExponent (e : ℤ) : (paddedExponent e).value = e := by
  simp only [paddedExponent, Exponent.value, ofDigits_padded, Option.some.injEq, decide_eq_true_eq]
  split_ifs <;> omega

/-- The integer digits, fraction digits and exponent of the `repr` of a decimal. -/
def reprParts (d : Decimal) : List Digit × List Digit × Option Exponent :=
  let ds := d.digits
  let n := d.point
  if -4 < n ∧ n ≤ 16 then
    if (ds.length : ℤ) ≤ n then (ds ++ List.replicate (n - ds.length).toNat 0, [0], none)
    else if 0 < n then (ds.take n.toNat, ds.drop n.toNat, none)
    else ([0], List.replicate (-n).toNat 0 ++ ds, none)
  else (ds.take 1, ds.drop 1, some (paddedExponent (n - 1)))

theorem reprParts_int_ne (d : Decimal) : d.reprParts.1 ≠ [] := by
  obtain ⟨x, xs, h, -⟩ := d.digits_eq_cons
  simp only [reprParts]
  split_ifs with h1 h2 h3
  · simp [h]
  · obtain ⟨k, hk⟩ : ∃ k, d.point.toNat = k + 1 := ⟨d.point.toNat - 1, by omega⟩
    simp [h, hk]
  · simp
  · simp [h]

theorem reprParts_int_lead (d : Decimal) : NoLeadingZero d.reprParts.1 := by
  obtain ⟨x, xs, h, hx⟩ := d.digits_eq_cons
  simp only [reprParts, NoLeadingZero]
  split_ifs with h1 h2 h3
  · simp [h, hx]
  · obtain ⟨k, hk⟩ : ∃ k, d.point.toNat = k + 1 := ⟨d.point.toNat - 1, by omega⟩
    simp [h, hk, hx]
  · simp
  · simp [h, hx]

/-- The token of the `repr` of a signed decimal. -/
def reprToken (neg : Bool) (d : Decimal) : NumberToken where
  neg := neg
  int := d.reprParts.1
  frac := d.reprParts.2.1
  exp := d.reprParts.2.2
  int_ne := d.reprParts_int_ne
  int_lead := d.reprParts_int_lead

/-- There is a fraction or an exponent. -/
theorem not_isInteger_reprToken (neg : Bool) (d : Decimal) : ¬ (d.reprToken neg).IsInteger := by
  have hlen : 0 < d.digits.length := List.length_pos_of_ne_nil d.digits_ne_nil
  simp only [NumberToken.IsInteger, reprToken, reprParts]
  split_ifs with h1 h2 h3
  · simp
  · simp [List.drop_eq_nil_iff]
    omega
  · simp [d.digits_ne_nil]
  · simp

/-- The token has the value of the decimal. -/
theorem magnitude_reprToken (neg : Bool) (d : Decimal) : (d.reprToken neg).magnitude = d.value := by
  have hlen : 0 < d.digits.length := List.length_pos_of_ne_nil d.digits_ne_nil
  have hpoint : d.point = d.digits.length + d.exp := rfl
  simp only [NumberToken.magnitude, NumberToken.expValue, reprToken, reprParts, value]
  split_ifs with h1 h2 h3
  · obtain ⟨m, hm⟩ : ∃ m : ℕ, d.exp = m := ⟨d.exp.toNat, by omega⟩
    have hz : (d.point - d.digits.length).toNat = m := by omega
    have hzero : ofDigits [0] = 0 := rfl
    simp [ofDigits_append, hz, hm, hzero]
    ring
  · have hdrop : ((d.digits.drop d.point.toNat).length : ℤ) = -d.exp := by
      rw [List.length_drop]; omega
    simp only [List.take_append_drop, ofDigits_digits, hdrop]
    norm_num
  · have hfrac : ((List.replicate (-d.point).toNat 0 ++ d.digits).length : ℤ) = -d.exp := by
      simp only [List.length_append, List.length_replicate, Nat.cast_add]
      omega
    have hval : ofDigits ([0] ++ (List.replicate (-d.point).toNat 0 ++ d.digits)) = d.coeff := by
      simp [ofDigits_append, ofDigits_cons]
    rw [hval, hfrac]
    norm_num
  · have hdrop : ((d.digits.drop 1).length : ℤ) = d.digits.length - 1 := by
      rw [List.length_drop]; omega
    simp only [List.take_append_drop, ofDigits_digits, value_paddedExponent, hdrop]
    congr 2
    omega

end Decimal

namespace Double

theorem zero_ne_nil : ([0] : List Digit) ≠ [] := List.cons_ne_nil 0 []

theorem noLeadingZero_zero : NoLeadingZero [0] := by decide

/-- The token `0.0`, or `-0.0`. -/
def zeroToken (neg : Bool) : NumberToken :=
  ⟨neg, [0], [0], none, zero_ne_nil, noLeadingZero_zero⟩

/-- The token of `float.__repr__` of a finite number. -/
def reprToken : Double → NumberToken
  | .finite neg u _ => if hu : u = 0 then zeroToken neg else (shortest u hu).reprToken neg
  | _ => zeroToken false

theorem not_isInteger_reprToken (x : Double) : ¬ x.reprToken.IsInteger := by
  have hzero : ∀ neg, ¬ (zeroToken neg).IsInteger := by
    intro neg h
    exact List.cons_ne_nil _ _ h.1
  match x with
  | .nan => exact hzero false
  | .infinity neg => exact hzero false
  | .finite neg u hu =>
      simp only [reprToken]
      split
      · exact hzero neg
      · exact Decimal.not_isInteger_reprToken _ _

/-- The `repr` of a finite number reads back as the number. -/
theorem ofToken_reprToken {x : Double} (h : x.IsFinite) : ofToken x.reprToken = x := by
  match x, h with
  | .finite neg u hu, _ =>
      simp only [reprToken]
      split
      · next h0 =>
          subst h0
          have hmag : (zeroToken neg).magnitude = 0 := by
            simp [zeroToken, NumberToken.magnitude, ofDigits_cons]
          rw [ofToken, hmag]
          exact ofMagnitude_zero neg
      · next h0 =>
          rw [ofToken, Decimal.magnitude_reprToken]
          exact ofMagnitude_shortest h0 neg hu

end Double

end Numeric
