import ZarrInline.Numeric.Double

/-!
# Shortest decimals and ECMAScript number notation

`Double.shortest` is the shortest decimal that rounds to a positive binary64
number, the nearest one among those of that length, ties to an even last digit.
`esNotation` writes a decimal the way ECMA-262 `Number::toString` does, and
`Double.toText` puts the two together.

A written number reads back as the number (`ofToken_toToken`).  A safe integer
is written as its own digits (`toText_ofInt`).
-/

namespace Numeric

/-! ## Decimals -/

/-- A positive terminating decimal `coeff * 10 ^ exp`, with no trailing zero in
its coefficient.  Every positive terminating decimal is exactly one of these
(`Decimal.ext_value`). -/
structure Decimal where
  /-- The significant digits. -/
  coeff : ℕ
  /-- The power of ten. -/
  exp : ℤ
  coeff_mod : coeff % 10 ≠ 0
deriving DecidableEq

/-- Trailing zeros of a positive number below `10 ^ fuel`. -/
def trailingZeros : ℕ → ℕ → ℕ
  | 0, _ => 0
  | fuel + 1, c => if c % 10 = 0 then trailingZeros fuel (c / 10) + 1 else 0

theorem trailingZeros_spec {fuel c : ℕ} (hc : c ≠ 0) (hlt : c < 10 ^ fuel) :
    10 ^ trailingZeros fuel c ∣ c ∧ c / 10 ^ trailingZeros fuel c % 10 ≠ 0 := by
  induction fuel generalizing c with
  | zero => simp at hlt; omega
  | succ fuel ih =>
      rw [trailingZeros]
      split
      · next h =>
          obtain ⟨hdvd, hmod⟩ := ih (c := c / 10) (by omega) (by rw [pow_succ] at hlt; omega)
          rw [pow_succ']
          refine ⟨?_, by rwa [← Nat.div_div_eq_div_mul]⟩
          obtain ⟨k, hk⟩ := hdvd
          exact ⟨k, by rw [Nat.mul_assoc, ← hk]; omega⟩
      · next h => simpa using h

namespace Decimal

/-- The rational a decimal is. -/
def value (d : Decimal) : ℚ := d.coeff * (10 : ℚ) ^ d.exp

/-- The significant digits, most significant first. -/
def digits (d : Decimal) : List Digit := natDigits d.coeff

/-- The decimal of a positive coefficient, trailing zeros moved to the
exponent. -/
def normalize (c : ℕ) (hc : c ≠ 0) (e : ℤ) : Decimal where
  coeff := c / 10 ^ trailingZeros (Nat.log 10 c + 1) c
  exp := e + trailingZeros (Nat.log 10 c + 1) c
  coeff_mod := (trailingZeros_spec hc (Nat.lt_pow_succ_log_self (by norm_num) c)).2

theorem value_normalize {c : ℕ} (hc : c ≠ 0) (e : ℤ) :
    (normalize c hc e).value = c * (10 : ℚ) ^ e := by
  obtain ⟨k, hk⟩ := (trailingZeros_spec hc (Nat.lt_pow_succ_log_self (by norm_num) c)).1
  have hdiv : c / 10 ^ trailingZeros (Nat.log 10 c + 1) c = k :=
    Nat.div_eq_of_eq_mul_right (by positivity) hk
  have hcast : (c : ℚ) = 10 ^ trailingZeros (Nat.log 10 c + 1) c * k := by exact_mod_cast hk
  simp only [value, normalize, hdiv, hcast]
  rw [zpow_add₀ (by norm_num), zpow_natCast]
  ring

theorem coeff_ne_zero (d : Decimal) : d.coeff ≠ 0 := by
  have := d.coeff_mod
  omega

theorem value_pos (d : Decimal) : 0 < d.value := by
  have h : (0 : ℚ) < d.coeff := by exact_mod_cast Nat.pos_of_ne_zero d.coeff_ne_zero
  unfold value
  positivity

/-- A decimal is determined by its value. -/
theorem ext_value {d e : Decimal} (h : d.value = e.value) : d = e := by
  wlog hle : d.exp ≤ e.exp generalizing d e
  · exact (this h.symm (by omega)).symm
  obtain ⟨c, x, hc⟩ := d
  obtain ⟨c', x', hc'⟩ := e
  simp only [value] at h hle
  obtain ⟨k, rfl⟩ : ∃ k : ℕ, x' = x + k := ⟨(x' - x).toNat, by omega⟩
  have hnat : c = c' * 10 ^ k := by
    rw [zpow_add₀ (by norm_num), zpow_natCast, mul_comm _ ((10 : ℚ) ^ k), ← mul_assoc] at h
    exact_mod_cast mul_right_cancel₀ (by positivity) h
  cases k with
  | zero => simp_all
  | succ k =>
      refine absurd ?_ hc
      rw [hnat, pow_succ, ← Nat.mul_assoc]
      exact Nat.mul_mod_left _ _

theorem digits_ne_nil (d : Decimal) : d.digits ≠ [] := natDigits_ne_nil _

@[simp] theorem ofDigits_digits (d : Decimal) : ofDigits d.digits = d.coeff := ofDigits_natDigits _

theorem head_digits_ne (d : Decimal) : d.digits.head? ≠ some 0 := by
  intro h
  have h0 := natDigits_noLeadingZero d.coeff h
  have hc := d.ofDigits_digits
  rw [digits, h0] at hc
  exact d.coeff_ne_zero hc.symm

theorem digits_eq_cons (d : Decimal) : ∃ x xs, d.digits = x :: xs ∧ x ≠ 0 := by
  obtain ⟨x, xs, h⟩ := List.exists_cons_of_ne_nil d.digits_ne_nil
  refine ⟨x, xs, h, ?_⟩
  rintro rfl
  exact d.head_digits_ne (by rw [h]; rfl)

/-- The position of the decimal point: the value is `0.d₁…dₖ * 10 ^ point`. -/
def point (d : Decimal) : ℤ := d.digits.length + d.exp

theorem ten_pow_le_coeff (d : Decimal) : 10 ^ (d.digits.length - 1) ≤ d.coeff := by
  obtain ⟨x, xs, h, hx⟩ := d.digits_eq_cons
  have := @le_ofDigits _ xs hx
  rw [← h, ofDigits_digits] at this
  simpa [h] using this

/-- The point says between which powers of ten a decimal is. -/
theorem zpow_le_value (d : Decimal) : (10 : ℚ) ^ (d.point - 1) ≤ d.value := by
  have hlen : 0 < d.digits.length := List.length_pos_of_ne_nil d.digits_ne_nil
  have hsplit : d.point - 1 = ((d.digits.length - 1 : ℕ) : ℤ) + d.exp := by
    unfold point
    omega
  rw [hsplit, zpow_add₀ (by norm_num), zpow_natCast, value]
  refine mul_le_mul_of_nonneg_right ?_ (by positivity)
  exact_mod_cast d.ten_pow_le_coeff

theorem value_lt_zpow (d : Decimal) : d.value < (10 : ℚ) ^ d.point := by
  rw [point, zpow_add₀ (by norm_num), zpow_natCast, value]
  refine mul_lt_mul_of_pos_right ?_ (by positivity)
  have hlt := ofDigits_lt d.digits
  rw [ofDigits_digits] at hlt
  exact_mod_cast hlt

/-! ## ECMAScript notation -/

theorem natDigits_natAbs_ne_nil (e : ℤ) : natDigits e.natAbs ≠ [] := natDigits_ne_nil _

/-- An exponent with its sign, which is never left out. -/
def signedExponent (e : ℤ) : Exponent where
  upper := false
  sign := some (decide (e < 0))
  digits := natDigits e.natAbs
  digits_ne := natDigits_natAbs_ne_nil e

theorem value_signedExponent (e : ℤ) : (signedExponent e).value = e := by
  simp only [signedExponent, Exponent.value, ofDigits_natDigits, Option.some.injEq,
    decide_eq_true_eq]
  split_ifs <;> omega

/-- The integer digits, fraction digits and exponent of the ECMAScript notation
of a decimal. -/
def esParts (d : Decimal) : List Digit × List Digit × Option Exponent :=
  let ds := d.digits
  let n := d.point
  if (ds.length : ℤ) ≤ n ∧ n ≤ 21 then
    (ds ++ List.replicate (n - ds.length).toNat 0, [], none)
  else if 0 < n ∧ n ≤ 21 then (ds.take n.toNat, ds.drop n.toNat, none)
  else if -6 < n ∧ n ≤ 0 then ([0], List.replicate (-n).toNat 0 ++ ds, none)
  else
    (ds.take 1, ds.drop 1, some (signedExponent (n - 1)))

theorem esParts_int_ne (d : Decimal) : d.esParts.1 ≠ [] := by
  obtain ⟨x, xs, h, -⟩ := d.digits_eq_cons
  simp only [esParts]
  split_ifs with h1 h2 h3
  · simp [h]
  · obtain ⟨k, hk⟩ : ∃ k, d.point.toNat = k + 1 := ⟨d.point.toNat - 1, by omega⟩
    simp [h, hk]
  · simp
  · simp [h]

theorem esParts_int_lead (d : Decimal) : NoLeadingZero d.esParts.1 := by
  obtain ⟨x, xs, h, hx⟩ := d.digits_eq_cons
  simp only [esParts, NoLeadingZero]
  split_ifs with h1 h2 h3
  · simp [h, hx]
  · obtain ⟨k, hk⟩ : ∃ k, d.point.toNat = k + 1 := ⟨d.point.toNat - 1, by omega⟩
    simp [h, hk, hx]
  · simp
  · simp [h, hx]

/-- The token of a signed decimal in ECMAScript notation. -/
def esToken (neg : Bool) (d : Decimal) : NumberToken where
  neg := neg
  int := d.esParts.1
  frac := d.esParts.2.1
  exp := d.esParts.2.2
  int_ne := d.esParts_int_ne
  int_lead := d.esParts_int_lead

/-- The sign of a written exponent, which is never left out. -/
def expSign (e : ℤ) : ℕ := if e < 0 then '-'.toNat else '+'.toNat

/-- ECMA-262 `Number::toString` of the digits and the point of a decimal. -/
def esNotation (d : Decimal) : Text :=
  let ds := d.digits.map digitChar
  let k := d.digits.length
  let n := d.point
  if (k : ℤ) ≤ n ∧ n ≤ 21 then ds ++ List.replicate (n - k).toNat '0'.toNat
  else if 0 < n ∧ n ≤ 21 then ds.take n.toNat ++ '.'.toNat :: ds.drop n.toNat
  else if -6 < n ∧ n ≤ 0 then
    '0'.toNat :: '.'.toNat :: (List.replicate (-n).toNat '0'.toNat ++ ds)
  else
    let tail := 'e'.toNat :: expSign (n - 1) :: (natDigits (n - 1).natAbs).map digitChar
    if k = 1 then ds ++ tail else ds.take 1 ++ '.'.toNat :: (ds.drop 1 ++ tail)

/-- What ECMA-262 `Number::toString` prescribes for the digits and the point of a decimal,
case by case. -/
structure IsEsText (d : Decimal) (text : Text) : Prop where
  integer : (d.digits.length : ℤ) ≤ d.point → d.point ≤ 21 →
    text = d.digits.map digitChar ++ List.replicate (d.point - d.digits.length).toNat '0'.toNat
  inside : d.point < d.digits.length → 0 < d.point → d.point ≤ 21 →
    text = (d.digits.take d.point.toNat).map digitChar ++
      '.'.toNat :: (d.digits.drop d.point.toNat).map digitChar
  fraction : -6 < d.point → d.point ≤ 0 →
    text = '0'.toNat :: '.'.toNat ::
      (List.replicate (-d.point).toNat '0'.toNat ++ d.digits.map digitChar)
  exponential : d.point ≤ -6 ∨ 21 < d.point → ∀ x, d.digits = [x] →
    text = digitChar x :: 'e'.toNat :: expSign (d.point - 1) ::
      (natDigits (d.point - 1).natAbs).map digitChar
  pointExponential : d.point ≤ -6 ∨ 21 < d.point → ∀ x y ys, d.digits = x :: y :: ys →
    text = digitChar x :: '.'.toNat :: ((y :: ys).map digitChar ++
      'e'.toNat :: expSign (d.point - 1) :: (natDigits (d.point - 1).natAbs).map digitChar)

theorem isEsText_esNotation (d : Decimal) : d.IsEsText d.esNotation := by
  have hlen : 0 < d.digits.length := List.length_pos_of_ne_nil d.digits_ne_nil
  constructor
  · intro hk hn
    rw [esNotation, if_pos ⟨hk, hn⟩]
  · intro hk hpos hn
    rw [esNotation, if_neg (by omega), if_pos ⟨hpos, hn⟩, ← List.map_take, ← List.map_drop]
  · intro hlow hn
    rw [esNotation, if_neg (by omega), if_neg (by omega), if_pos ⟨hlow, hn⟩]
  · intro hn x hx
    rw [esNotation, if_neg (by omega), if_neg (by omega), if_neg (by omega), if_pos (by rw [hx]; rfl),
      hx]
    rfl
  · intro hn x y ys hx
    rw [esNotation, if_neg (by omega), if_neg (by omega), if_neg (by omega),
      if_neg (by rw [hx]; simp), hx]
    rfl

/-- The digits of the notation are those of the decimal, after the zeros before a fraction and
before the zeros of an integer. -/
theorem significand_esToken (neg : Bool) (d : Decimal) :
    (d.esToken neg).int ++ (d.esToken neg).frac
      = List.replicate (if -6 < d.point ∧ d.point ≤ 0 then (1 - d.point).toNat else 0) 0 ++
        (d.digits ++ List.replicate
          (if (d.digits.length : ℤ) ≤ d.point ∧ d.point ≤ 21 then (d.point - d.digits.length).toNat
            else 0) 0) := by
  have hlen : 0 < d.digits.length := List.length_pos_of_ne_nil d.digits_ne_nil
  simp only [esToken, esParts]
  by_cases h1 : (d.digits.length : ℤ) ≤ d.point ∧ d.point ≤ 21
  · rw [if_pos h1, if_pos h1, if_neg (by omega)]
    simp
  · rw [if_neg h1, if_neg h1]
    by_cases h2 : 0 < d.point ∧ d.point ≤ 21
    · rw [if_pos h2, if_neg (by omega)]
      simp
    · rw [if_neg h2]
      by_cases h3 : -6 < d.point ∧ d.point ≤ 0
      · have hzeros : (1 - d.point).toNat = (-d.point).toNat + 1 := by omega
        rw [if_pos h3, if_pos h3, hzeros, List.replicate_succ]
        simp
      · rw [if_neg h3, if_neg h3, List.take_append_drop]
        simp

theorem getLast_digits_ne (d : Decimal) : d.digits.getLast? ≠ some 0 := by
  intro h
  obtain ⟨hne, hlast⟩ := List.mem_getLast?_eq_getLast h
  have hsplit := List.dropLast_append_getLast hne
  rw [← hlast] at hsplit
  have hcoeff := d.ofDigits_digits
  rw [← hsplit, ofDigits_append] at hcoeff
  have hmod := d.coeff_mod
  rw [← hcoeff] at hmod
  exact hmod (by simp [ofDigits])

theorem renderFrac_of_ne {ds : List Digit} (h : ds ≠ []) :
    NumberToken.renderFrac ds = '.'.toNat :: ds.map digitChar := by
  cases ds with
  | nil => exact absurd rfl h
  | cons d ds => rfl

theorem renderExponent_signed (e : ℤ) :
    (signedExponent e).render = 'e'.toNat :: expSign e :: (natDigits e.natAbs).map digitChar := by
  by_cases h : e < 0 <;>
    simp [signedExponent, Exponent.render, Exponent.renderSign, expSign, h]

/-- The token of a decimal spells its ECMAScript notation. -/
theorem render_esToken (neg : Bool) (d : Decimal) :
    (d.esToken neg).render = (if neg then ['-'.toNat] else []) ++ d.esNotation := by
  have hzero : digitChar 0 = '0'.toNat := rfl
  have hlen : 0 < d.digits.length := List.length_pos_of_ne_nil d.digits_ne_nil
  simp only [NumberToken.render, esToken]
  congr 1
  simp only [esParts, esNotation]
  split_ifs with h1 h2 h3 h4
  · simp [NumberToken.renderFrac, NumberToken.renderExp, hzero]
  · have hne : d.digits.drop d.point.toNat ≠ [] := by
      simp only [ne_eq, List.drop_eq_nil_iff]
      omega
    simp [renderFrac_of_ne hne, NumberToken.renderExp]
  · have hne : List.replicate (-d.point).toNat 0 ++ d.digits ≠ [] := by
      simp [d.digits_ne_nil]
    simp [renderFrac_of_ne hne, NumberToken.renderExp, hzero]
  · have hone : d.digits.drop 1 = [] := List.drop_eq_nil_iff.2 h4.le
    have htake : d.digits.take 1 = d.digits := List.take_of_length_le h4.le
    simp only [hone, htake, NumberToken.renderFrac, NumberToken.renderExp, renderExponent_signed,
      List.nil_append]
  · have hne : d.digits.drop 1 ≠ [] := by
      simp only [ne_eq, List.drop_eq_nil_iff]
      omega
    simp only [renderFrac_of_ne hne, NumberToken.renderExp, renderExponent_signed,
      List.map_take, List.map_drop, List.cons_append]

theorem expValue_esToken (neg : Bool) (d : Decimal) :
    (d.esToken neg).expValue = 0 ∨ (d.esToken neg).expValue = d.point - 1 := by
  simp only [NumberToken.expValue, esToken, esParts]
  split_ifs
  · exact Or.inl rfl
  · exact Or.inl rfl
  · exact Or.inl rfl
  · exact Or.inr (value_signedExponent _)

/-- The token of a decimal has its value. -/
theorem magnitude_esToken (neg : Bool) (d : Decimal) : (d.esToken neg).magnitude = d.value := by
  have hlen : 0 < d.digits.length := List.length_pos_of_ne_nil d.digits_ne_nil
  have hpoint : d.point = d.digits.length + d.exp := rfl
  simp only [NumberToken.magnitude, NumberToken.expValue, esToken, esParts, value]
  split_ifs with h1 h2 h3
  · obtain ⟨m, hm⟩ : ∃ m : ℕ, d.exp = m := ⟨d.exp.toNat, by omega⟩
    have hz : (d.point - d.digits.length).toNat = m := by omega
    simp [ofDigits_append, hz, hm]
  · have hdrop : ((d.digits.drop d.point.toNat).length : ℤ) = -d.exp := by
      rw [List.length_drop]; omega
    simp only [List.take_append_drop, ofDigits_digits, hdrop]
    norm_num
  · have hfrac : ((List.replicate (-d.point).toNat 0 ++ d.digits).length : ℤ) = -d.exp := by
      simp only [List.length_append, List.length_replicate, Nat.cast_add]
      omega
    have hval : ofDigits ([0] ++ (List.replicate (-d.point).toNat 0 ++ d.digits)) = d.coeff := by
      simp [ofDigits_append, ofDigits_cons]
    rw [hval, hfrac]
    norm_num
  · have hdrop : ((d.digits.drop 1).length : ℤ) = d.digits.length - 1 := by
      rw [List.length_drop]; omega
    simp only [List.take_append_drop, ofDigits_digits, value_signedExponent, hdrop]
    congr 2
    omega

/-- The token of a decimal is an integer literal exactly when its notation has
no point and no exponent. -/
theorem isInteger_esToken (neg : Bool) (d : Decimal) :
    (d.esToken neg).IsInteger ↔ 0 ≤ d.exp ∧ d.point ≤ 21 := by
  have hlen : 0 < d.digits.length := List.length_pos_of_ne_nil d.digits_ne_nil
  have hpoint : d.point = d.digits.length + d.exp := rfl
  simp only [NumberToken.IsInteger, esToken, esParts]
  split_ifs with h1 h2 h3
  · simp; omega
  · simp [List.drop_eq_nil_iff]; omega
  · simp [d.digits_ne_nil]; omega
  · simp; omega

/-- An integer-literal notation has at most 21 digits. -/
theorem length_int_esToken_le {neg : Bool} {d : Decimal} (h : (d.esToken neg).IsInteger) :
    (d.esToken neg).int.length ≤ 21 := by
  obtain ⟨hexp, hpoint⟩ := (isInteger_esToken neg d).1 h
  have hlen : d.point = d.digits.length + d.exp := rfl
  simp only [esToken, esParts]
  rw [if_pos (by omega)]
  simp only [List.length_append, List.length_replicate]
  omega

theorem intValue_esToken {neg : Bool} {d : Decimal} (h : (d.esToken neg).IsInteger) :
    ((d.esToken neg).intValue.natAbs : ℚ) = d.value := by
  rw [← NumberToken.magnitude_of_isInteger h, magnitude_esToken]

/-- An integer-literal notation is the digits of the integer. -/
theorem esToken_eq_ofInt {neg : Bool} {d : Decimal} (h : (d.esToken neg).IsInteger) :
    d.esToken neg = NumberToken.ofInt (d.esToken neg).intValue := by
  apply NumberToken.eq_ofInt h
  intro _ h0
  have hmag := magnitude_esToken neg d
  rw [NumberToken.magnitude_of_isInteger h] at hmag
  have hpos := d.value_pos
  rw [← hmag] at hpos
  simp only [NumberToken.intValue, h0] at hpos
  simp at hpos

end Decimal

/-! ## The shortest decimal -/

namespace Double

/-- The first of two coefficients at exponent `e` that passes `back`. -/
def firstBack (back : ℚ → Bool) (e : ℤ) (a b : ℕ) : Option Decimal :=
  if h : a ≠ 0 ∧ back (a * 10 ^ e) then some (.normalize a h.1 e)
  else if h : b ≠ 0 ∧ back (b * 10 ^ e) then some (.normalize b h.1 e)
  else none

/-- The nearer of the two `k`-digit decimals around `x` that passes `back`. -/
def shortestAt (back : ℚ → Bool) (x : ℚ) (k : ℕ) : Option Decimal :=
  let e := Int.log 10 x + 1 - k
  let c := ⌊x / 10 ^ e⌋₊
  let low := x - c * 10 ^ e
  let high := (c + 1) * 10 ^ e - x
  if low < high ∨ (low = high ∧ c % 2 = 0) then firstBack back e c (c + 1)
  else firstBack back e (c + 1) c

/-- The first number of digits, from `k` on, at which a decimal passes `back`. -/
def searchShortest (back : ℚ → Bool) (x : ℚ) : ℕ → ℕ → Option Decimal
  | 0, _ => none
  | fuel + 1, k =>
      match shortestAt back x k with
      | some d => some d
      | none => searchShortest back x fuel (k + 1)

/-- Seventeen digits are enough for binary64; past them the exact decimal of the
number would be taken. -/
def shortest (u : ℕ) (hu : u ≠ 0) : Decimal :=
  let x : ℚ := u / scale
  (searchShortest (fun y => ofMagnitude false y = ofMagnitude false x) x 17 1).getD
    (.normalize (u * 5 ^ unitBits) (Nat.mul_ne_zero hu (by positivity)) (-unitBits))

theorem back_of_firstBack {back : ℚ → Bool} {e : ℤ} {a b : ℕ} {d : Decimal}
    (h : firstBack back e a b = some d) :
    ∃ c : ℕ, d.value = c * (10 : ℚ) ^ e ∧ back d.value = true := by
  unfold firstBack at h
  split at h
  · next ha =>
      obtain rfl := Option.some.inj h
      exact ⟨a, Decimal.value_normalize _ _, by rw [Decimal.value_normalize]; exact ha.2⟩
  · split at h
    · next hb =>
        obtain rfl := Option.some.inj h
        exact ⟨b, Decimal.value_normalize _ _, by rw [Decimal.value_normalize]; exact hb.2⟩
    · cases h

theorem back_of_shortestAt {back : ℚ → Bool} {x : ℚ} {k : ℕ} {d : Decimal}
    (h : shortestAt back x k = some d) :
    ∃ c : ℕ, d.value = c * (10 : ℚ) ^ (Int.log 10 x + 1 - k) ∧ back d.value = true := by
  simp only [shortestAt] at h
  split at h <;> exact back_of_firstBack h

theorem back_of_searchShortest {back : ℚ → Bool} {x : ℚ} {d : Decimal} :
    ∀ {fuel k : ℕ}, searchShortest back x fuel k = some d → back d.value = true
  | 0, _, h => by cases h
  | fuel + 1, k, h => by
      rw [searchShortest] at h
      split at h
      · next hd =>
          obtain rfl := Option.some.inj h
          exact (back_of_shortestAt hd).choose_spec.2
      · exact back_of_searchShortest h

/-- The exact decimal of a number of units. -/
theorem units_eq_decimal (u : ℕ) :
    ((u * 5 ^ unitBits : ℕ) : ℚ) * (10 : ℚ) ^ (-(unitBits : ℤ)) = u / scale := by
  rw [zpow_neg, zpow_natCast, show (10 : ℚ) = 5 * 2 by norm_num, mul_pow, scale]
  push_cast
  field_simp

/-- The shortest decimal of a number rounds to the number. -/
theorem ofMagnitude_shortest {u : ℕ} (hu : u ≠ 0) (neg : Bool)
    (h : binary64.Representable u) : ofMagnitude neg (shortest u hu).value = .finite neg u h := by
  have hback : ofMagnitude false (shortest u hu).value = ofMagnitude false (u / scale) := by
    simp only [shortest]
    cases hs : searchShortest (fun y => ofMagnitude false y = ofMagnitude false (u / scale))
        (u / scale) 17 1 with
    | some d => simpa using back_of_searchShortest hs
    | none => rw [Option.getD_none, Decimal.value_normalize, units_eq_decimal]
  rw [ofMagnitude_units false h] at hback
  unfold ofMagnitude at hback ⊢
  split at hback
  · next hlt =>
      rw [dif_pos hlt]
      congr 1
      exact (Double.finite.inj hback).2
  · cases hback

/-- The decimal point of a binary64 number is not far from its digits. -/
theorem point_shortest {u : ℕ} (hu : u ≠ 0) (h : binary64.Representable u) :
    -1075 < (shortest u hu).point ∧ (shortest u hu).point ≤ 2098 := by
  have hback := ofMagnitude_shortest hu false h
  generalize shortest u hu = d at hback
  have hpos := d.value_pos
  have hscaled : 0 ≤ d.value * scale := (mul_pos hpos scale_cast_pos).le
  have hround : binary64.round (d.value * scale) = u := by
    unfold ofMagnitude at hback
    split at hback
    · exact (Double.finite.inj hback).2
    · cases hback
  have hone : (1 : ℚ) ≤ scale := by exact_mod_cast scale_pos
  have hupper : (10 : ℚ) ^ (d.point - 1) < 10 ^ (binary64.bound : ℤ) := by
    have hlimit : binary64.OnGrid binary64.limit := by
      unfold FloatFormat.limit
      exact FloatFormat.onGrid_two_pow (Nat.zero_le _)
    have hlt : d.value * scale < (binary64.limit : ℚ) := by
      by_contra hge
      have hle := FloatFormat.le_round hlimit (not_lt.1 hge)
      rw [hround] at hle
      exact absurd h.2 (Nat.not_lt.2 hle)
    have hcast : (binary64.limit : ℚ) ≤ 10 ^ (binary64.bound : ℤ) := by
      have hnat : binary64.limit ≤ 10 ^ binary64.bound := by
        unfold FloatFormat.limit
        exact Nat.pow_le_pow_left (by norm_num) _
      exact_mod_cast hnat
    calc (10 : ℚ) ^ (d.point - 1) ≤ d.value := d.zpow_le_value
      _ ≤ d.value * scale := le_mul_of_one_le_right hpos.le hone
      _ < binary64.limit := hlt
      _ ≤ 10 ^ (binary64.bound : ℤ) := hcast
  have hlower : (10 : ℚ) ^ (-((unitBits + 1 : ℕ) : ℤ)) < 10 ^ d.point := by
    have hnear := FloatFormat.abs_round_sub_le (F := binary64) hscaled (n := 0) (by decide)
    rw [hround, Nat.cast_zero, zero_sub, abs_neg, abs_of_nonneg hscaled] at hnear
    have hu1 : (1 : ℚ) ≤ u := by exact_mod_cast Nat.one_le_iff_ne_zero.2 hu
    have hle := le_abs_self ((u : ℚ) - d.value * scale)
    have hbig : 2 * (scale : ℚ) ≤ 10 ^ ((unitBits + 1 : ℕ) : ℤ) := by
      have hnat : 2 * scale ≤ 10 ^ (unitBits + 1) := by
        unfold scale
        rw [← pow_succ']
        exact Nat.pow_le_pow_left (by norm_num) _
      exact_mod_cast hnat
    have hmul : 1 < (10 : ℚ) ^ d.point * 10 ^ ((unitBits + 1 : ℕ) : ℤ) := by
      calc (1 : ℚ) ≤ d.value * (2 * scale) := by linarith
        _ < 10 ^ d.point * (2 * scale) := mul_lt_mul_of_pos_right d.value_lt_zpow (by linarith)
        _ ≤ 10 ^ d.point * 10 ^ ((unitBits + 1 : ℕ) : ℤ) := mul_le_mul_of_nonneg_left hbig (by positivity)
    rw [zpow_neg, inv_lt_iff_one_lt_mul₀ (by positivity)]
    exact hmul
  have hbound : binary64.bound = 2098 := rfl
  have hunit : unitBits = 1074 := by unfold unitBits; rfl
  rw [zpow_lt_zpow_iff_right₀ (by norm_num)] at hupper hlower
  omega

/-! ## Number to text -/

/-- The token that `toText` spells, for a finite number. -/
def toToken : Double → NumberToken
  | .finite neg u _ => if hu : u = 0 then .ofInt 0 else (shortest u hu).esToken neg
  | _ => .ofInt 0

/-- ECMA-262 `Number::toString`. -/
def toText : Double → Text
  | .nan => "NaN".toList.map Char.toNat
  | .infinity neg =>
      (if neg then ['-'.toNat] else []) ++ "Infinity".toList.map Char.toNat
  | .finite neg u _ =>
      if hu : u = 0 then ['0'.toNat]
      else (if neg then ['-'.toNat] else []) ++ (shortest u hu).esNotation

theorem toText_eq_render {x : Double} (h : x.IsFinite) : x.toText = x.toToken.render := by
  match x, h with
  | .finite neg u hu, _ =>
      simp only [toText, toToken]
      split
      · rfl
      · rw [Decimal.render_esToken]

/-- The sign of zero is dropped; every other finite number is kept. -/
def dropNegZero : Double → Double
  | .finite neg u h => if u = 0 then .finite false u h else .finite neg u h
  | x => x

@[simp] theorem isFinite_dropNegZero {x : Double} : x.dropNegZero.IsFinite ↔ x.IsFinite := by
  cases x with
  | nan => rfl
  | infinity neg => rfl
  | finite neg u hu =>
      simp only [dropNegZero]
      split <;> rfl

@[simp] theorem dropNegZero_dropNegZero (x : Double) : x.dropNegZero.dropNegZero = x.dropNegZero := by
  cases x with
  | nan => rfl
  | infinity neg => rfl
  | finite neg u hu =>
      rcases eq_or_ne u 0 with h0 | h0
      · simp only [dropNegZero, if_pos h0]
      · simp only [dropNegZero, if_neg h0]

/-- The text of a finite number reads back as the number, up to the sign of
zero. -/
theorem ofToken_toToken {x : Double} (h : x.IsFinite) : ofToken x.toToken = x.dropNegZero := by
  match x, h with
  | .finite neg u hu, _ =>
      simp only [toToken, dropNegZero, ofToken]
      split
      · next h0 =>
          subst h0
          rw [NumberToken.magnitude_of_isInteger (NumberToken.isInteger_ofInt 0)]
          have hneg : (NumberToken.ofInt 0).neg = false := rfl
          simpa [hneg] using ofMagnitude_zero false
      · next h0 =>
          rw [Decimal.magnitude_esToken]
          exact ofMagnitude_shortest h0 neg hu

@[simp] theorem toToken_dropNegZero (x : Double) : x.dropNegZero.toToken = x.toToken := by
  cases x with
  | nan => rfl
  | infinity neg => rfl
  | finite neg u h =>
      simp only [dropNegZero]
      split
      · next h0 => subst h0; simp [toToken]
      · rfl

/-- An integer-literal text of a number is the digits of an integer. -/
theorem toToken_eq_ofInt {x : Double} (h : x.toToken.IsInteger) :
    x.toToken = .ofInt x.toToken.intValue := by
  cases x with
  | nan => simp [toToken]
  | infinity neg => simp [toToken]
  | finite neg u hu =>
      simp only [toToken] at h ⊢
      split at h
      · next h0 => simp [h0]
      · next h0 => simpa [h0] using Decimal.esToken_eq_ofInt h

/-! ## Safe integers -/

theorem shortestAt_eq_self {n : ℕ} (hn : n ≠ 0) {back : ℚ → Bool} (hback : back n = true) {k : ℕ}
    (hk : Int.log 10 (n : ℚ) + 1 - k = 0) :
    ∃ d, shortestAt back n k = some d := by
  have hfloor : ⌊(n : ℚ) / 10 ^ (0 : ℤ)⌋₊ = n := by simp
  have hlow : (n : ℚ) - n * 10 ^ (0 : ℤ) < (n + 1) * 10 ^ (0 : ℤ) - n := by norm_num
  have hfirst : n ≠ 0 ∧ back (n * 10 ^ (0 : ℤ)) = true := ⟨hn, by simpa using hback⟩
  simp only [shortestAt, hk, hfloor, if_pos (Or.inl hlow), firstBack, dif_pos hfirst]
  exact ⟨_, rfl⟩

/-- Around a safe integer the search finds the integer itself. -/
theorem searchShortest_natCast {n : ℕ} (hn : n ≠ 0) (hlt : n < 2 ^ 53) {fuel k : ℕ}
    (hk : (k : ℤ) ≤ Int.log 10 (n : ℚ) + 1) (hfuel : Int.log 10 (n : ℚ) + 1 < k + fuel) :
    ∃ d, searchShortest (fun y => ofMagnitude false y = ofMagnitude false (n : ℚ)) n fuel k
      = some d ∧ d.value = n := by
  induction fuel generalizing k with
  | zero => omega
  | succ fuel ih =>
      rw [searchShortest]
      cases hs : shortestAt (fun y => ofMagnitude false y = ofMagnitude false (n : ℚ)) n k with
      | some d =>
          refine ⟨d, rfl, ?_⟩
          obtain ⟨c, hval, hback⟩ := back_of_shortestAt hs
          -- the exponent is not negative, so the candidate is an integer
          obtain ⟨m, hm⟩ : ∃ m : ℕ, Int.log 10 (n : ℚ) + 1 - k = m :=
            ⟨(Int.log 10 (n : ℚ) + 1 - k).toNat, by omega⟩
          rw [hm, zpow_natCast] at hval
          have hclose := abs_sub_lt_one_of_ofMagnitude d.value_pos.le hlt (by simpa using hback)
          rw [hval] at hclose ⊢
          have hint : |((c * 10 ^ m : ℕ) : ℤ) - n| < 1 := by exact_mod_cast hclose
          have : c * 10 ^ m = n := by
            have := Int.abs_lt_one_iff.1 hint
            omega
          exact_mod_cast this
      | none =>
          refine ih ?_ (by push_cast; omega)
          by_contra hgt
          obtain ⟨d, hd⟩ := @shortestAt_eq_self n hn
            (fun y => ofMagnitude false y = ofMagnitude false (n : ℚ)) (by simp) k
            (by push_cast at hgt; omega)
          rw [hs] at hd
          cases hd

theorem value_shortest_natCast {n : ℕ} (hn : n ≠ 0) (hlt : n < 2 ^ 53) :
    (shortest (n * scale) (Nat.mul_ne_zero hn scale_pos.ne')).value = n := by
  have hx : ((n * scale : ℕ) : ℚ) / scale = n := by
    push_cast
    rw [mul_div_assoc, div_self scale_cast_pos.ne', mul_one]
  have hlog : Int.log 10 (n : ℚ) < 16 := by
    have : (n : ℚ) < ((10 : ℕ) : ℚ) ^ (16 : ℤ) := by
      have : (n : ℚ) < 2 ^ 53 := by exact_mod_cast hlt
      norm_num at this ⊢
      linarith
    exact (Int.lt_zpow_iff_log_lt (by norm_num) (by exact_mod_cast Nat.pos_of_ne_zero hn)).1 this
  have hlog0 : 0 ≤ Int.log 10 (n : ℚ) := by
    rw [Int.log_natCast]
    positivity
  obtain ⟨d, hd, hval⟩ := @searchShortest_natCast n hn hlt 17 1
    (by push_cast; omega) (by push_cast; omega)
  simp only [shortest, hx, hd, Option.getD_some, hval]

theorem isInteger_of_value_natCast {d : Decimal} {n : ℕ} (hlt : n < 2 ^ 53)
    (h : d.value = n) (neg : Bool) : (d.esToken neg).IsInteger := by
  have hexp : 0 ≤ d.exp := by
    by_contra hneg
    obtain ⟨m, hm⟩ : ∃ m : ℕ, d.exp = -((m + 1 : ℕ) : ℤ) := ⟨(-d.exp - 1).toNat, by omega⟩
    have hmul : (d.coeff : ℚ) = n * 10 ^ (m + 1) := by
      rw [← h, Decimal.value, hm, zpow_neg, zpow_natCast]
      field_simp
    have hnat : d.coeff = n * 10 ^ (m + 1) := by exact_mod_cast hmul
    apply d.coeff_mod
    rw [hnat, pow_succ, ← Nat.mul_assoc]
    exact Nat.mul_mod_left _ _
  refine (Decimal.isInteger_esToken neg d).2 ⟨hexp, ?_⟩
  obtain ⟨m, hm⟩ : ∃ m : ℕ, d.exp = m := ⟨d.exp.toNat, by omega⟩
  have hnat : d.coeff * 10 ^ m = n := by
    have : (d.coeff : ℚ) * 10 ^ m = n := by rw [← h, Decimal.value, hm, zpow_natCast]
    exact_mod_cast this
  have hlen : 0 < d.digits.length := List.length_pos_of_ne_nil d.digits_ne_nil
  have hpow : 10 ^ (d.digits.length - 1 + m) < 10 ^ 16 := by
    rw [pow_add]
    calc 10 ^ (d.digits.length - 1) * 10 ^ m ≤ d.coeff * 10 ^ m :=
          Nat.mul_le_mul_right _ d.ten_pow_le_coeff
      _ = n := hnat
      _ < 10 ^ 16 := hlt.trans (by norm_num)
  have := (Nat.pow_lt_pow_iff_right (by norm_num)).1 hpow
  have hpoint : d.point = d.digits.length + d.exp := rfl
  omega

/-- A safe integer is written as its digits. -/
theorem toToken_ofInt {i : ℤ} (h : i.natAbs < 2 ^ 53) : (ofInt i).toToken = .ofInt i := by
  have hrep := representable_natCast h
  rw [ofInt, ofMagnitude_natCast _ h, toToken]
  split
  · next h0 =>
      have : i = 0 := by
        rcases Nat.mul_eq_zero.1 h0 with h0 | h0
        · omega
        · exact absurd h0 scale_pos.ne'
      rw [this]
  · next h0 =>
      have hi : i.natAbs ≠ 0 := fun h => h0 (by rw [h, Nat.zero_mul])
      have hval := value_shortest_natCast hi h
      have hint := isInteger_of_value_natCast h hval (decide (i < 0))
      have hdigits := Decimal.intValue_esToken hint
      rw [hval] at hdigits
      rw [Decimal.esToken_eq_ofInt hint]
      congr 1
      have habs : ofDigits ((shortest (i.natAbs * scale) h0).esToken (decide (i < 0))).int
          = i.natAbs := by
        rw [← NumberToken.natAbs_intValue]
        exact_mod_cast hdigits
      rw [NumberToken.intValue, habs]
      simp only [Decimal.esToken, decide_eq_true_eq]
      split_ifs <;> omega

end Double

end Numeric
