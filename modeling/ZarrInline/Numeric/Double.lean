import ZarrInline.Numeric.Token

/-!
# binary64 values

`Double` is the value set of an IEEE 754 binary64 number with a single NaN.  A
finite value carries its sign and its magnitude in units of `2 ^ -1074`, with
the proof that binary64 holds that magnitude, so no other magnitude can be
built.  `Double.ofMagnitude` is the nearest value, ties to even, with overflow
to infinity, and `Double.fround` the further rounding to binary32.
-/

namespace Numeric

/-- binary64 over the unit `2 ^ -1074`. -/
def binary64 : FloatFormat := ⟨53, 0, 2098, by norm_num, by norm_num⟩

/-- binary32 over the unit of binary64: its own smallest value is `2 ^ 925`
units. -/
def binary32 : FloatFormat := ⟨24, 925, 1202, by norm_num, by norm_num⟩

/-- Every binary32 magnitude is a binary64 magnitude. -/
theorem representable_of_binary32 {n : ℕ} (h : binary32.Representable n) :
    binary64.Representable n :=
  ⟨h.1.of_finer (by decide) (by decide), h.2.trans_le (FloatFormat.limit_le_limit (by decide))⟩

/-- The unit of binary64 is `2 ^ -unitBits`. -/
@[irreducible] def unitBits : ℕ := 1074

/-- The units in `1`. -/
def scale : ℕ := 2 ^ unitBits

theorem scale_pos : 0 < scale := Nat.two_pow_pos _

theorem scale_cast_pos : (0 : ℚ) < scale := Nat.cast_pos.2 scale_pos

/-- A binary64 value, with one NaN. -/
inductive Double where
  | nan
  | infinity (neg : Bool)
  | finite (neg : Bool) (units : ℕ) (h : binary64.Representable units)
deriving DecidableEq

namespace Double

/-- Neither NaN nor an infinity. -/
def IsFinite : Double → Prop
  | .finite _ _ _ => True
  | _ => False

instance : DecidablePred IsFinite
  | .nan => isFalse id
  | .infinity _ => isFalse id
  | .finite _ _ _ => isTrue trivial

/-- The absolute value of a finite number; `0` for the others. -/
def magnitude : Double → ℚ
  | .finite _ u _ => u / scale
  | _ => 0

/-- The rational a finite number is; `0` for the others. -/
def toRat : Double → ℚ
  | .finite neg u _ => if neg then -(u / scale) else u / scale
  | _ => 0

/-- The nearest binary64 number to a sign and a non-negative magnitude. -/
def ofMagnitude (neg : Bool) (x : ℚ) : Double :=
  if h : binary64.round (x * scale) < binary64.limit then
    .finite neg (binary64.round (x * scale)) ⟨FloatFormat.onGrid_round _, h⟩
  else .infinity neg

/-- The nearest binary64 number to an integer. -/
def ofInt (i : ℤ) : Double := ofMagnitude (decide (i < 0)) (i.natAbs : ℚ)

/-- The nearest binary64 number to what a token writes. -/
def ofToken (t : NumberToken) : Double := ofMagnitude t.neg t.magnitude

/-- An integer of absolute value below `2 ^ 53`. -/
def IsSafeInteger : Double → Prop
  | .finite _ u _ => u % scale = 0 ∧ u / scale < 2 ^ 53
  | _ => False

instance : DecidablePred IsSafeInteger
  | .nan => isFalse id
  | .infinity _ => isFalse id
  | .finite _ _ _ => inferInstanceAs (Decidable (_ ∧ _))

/-- The nearest binary32 number, as a binary64 number. -/
def fround : Double → Double
  | .finite neg u _ =>
      if h : binary32.round u < binary32.limit then
        .finite neg (binary32.round u)
          (representable_of_binary32 ⟨FloatFormat.onGrid_round _, h⟩)
      else .infinity neg
  | x => x

/-! ## Exactness -/

theorem units_eq (u : ℕ) : (u / scale : ℚ) * scale = u :=
  div_mul_cancel₀ _ scale_cast_pos.ne'

@[simp] theorem ofMagnitude_units (neg : Bool) {u : ℕ} (h : binary64.Representable u) :
    ofMagnitude neg (u / scale) = .finite neg u h := by
  have hround : binary64.round ((u / scale : ℚ) * scale) = u := by
    rw [units_eq, FloatFormat.round_natCast h.1]
  simp only [ofMagnitude, hround]
  rw [dif_pos h.2]

theorem ofMagnitude_zero (neg : Bool) :
    ofMagnitude neg 0 = .finite neg 0 FloatFormat.representable_zero := by
  simpa using ofMagnitude_units neg FloatFormat.representable_zero

/-- A significand of at most 53 bits, in whole numbers, is on the grid. -/
theorem onGrid_mul_scale {n : ℕ} (hn : n ≤ 2 ^ 53) : binary64.OnGrid (n * scale) := by
  unfold scale
  exact FloatFormat.onGrid_mul_two_pow (Nat.zero_le _) hn

theorem two_pow_mul_scale_le_limit : 2 ^ 53 * scale ≤ binary64.limit := by
  unfold scale unitBits
  rw [← pow_add]
  exact FloatFormat.two_pow_le_limit (by decide)

/-- Nothing up to `2 ^ 52` overflows. -/
theorem isFinite_ofMagnitude (neg : Bool) {x : ℚ} (hx : 0 ≤ x) (hle : x ≤ (2 ^ 52 : ℕ)) :
    (ofMagnitude neg x).IsFinite := by
  have hround : binary64.round (x * scale) ≤ 2 ^ 52 * scale := by
    refine FloatFormat.round_le (mul_nonneg hx scale_cast_pos.le)
      (onGrid_mul_scale (Nat.pow_le_pow_right (by norm_num) (by norm_num))) ?_
    push_cast at hle ⊢
    exact mul_le_mul_of_nonneg_right hle scale_cast_pos.le
  have hlt : binary64.round (x * scale) < binary64.limit :=
    hround.trans_lt ((Nat.mul_lt_mul_of_pos_right (by norm_num) scale_pos).trans_le
      two_pow_mul_scale_le_limit)
  rw [ofMagnitude, dif_pos hlt]
  trivial

theorem representable_natCast {n : ℕ} (hn : n < 2 ^ 53) :
    binary64.Representable (n * scale) :=
  ⟨onGrid_mul_scale hn.le,
    (Nat.mul_lt_mul_of_pos_right hn scale_pos).trans_le two_pow_mul_scale_le_limit⟩

/-- A natural number below `2 ^ 53` is a binary64 number. -/
theorem ofMagnitude_natCast (neg : Bool) {n : ℕ} (hn : n < 2 ^ 53) :
    ofMagnitude neg (n : ℚ) = .finite neg (n * scale) (representable_natCast hn) := by
  have h := ofMagnitude_units neg (representable_natCast hn)
  push_cast at h
  rwa [mul_div_assoc, div_self scale_cast_pos.ne', mul_one] at h

/-- An integer rounds to a safe integer exactly when it is one. -/
theorem isSafeInteger_ofMagnitude (neg : Bool) (n : ℕ) :
    (ofMagnitude neg (n : ℚ)).IsSafeInteger ↔ n < 2 ^ 53 := by
  constructor
  · intro hsafe
    by_contra hn
    have hle : 2 ^ 53 * scale ≤ binary64.round ((n : ℚ) * scale) := by
      apply FloatFormat.le_round (onGrid_mul_scale le_rfl)
      exact_mod_cast Nat.mul_le_mul_right scale (Nat.not_lt.1 hn)
    unfold ofMagnitude at hsafe
    split at hsafe
    · have h2 := hsafe.2
      rw [Nat.div_lt_iff_lt_mul scale_pos] at h2
      omega
    · exact hsafe
  · intro hn
    rw [ofMagnitude_natCast neg hn]
    refine ⟨Nat.mul_mod_left _ _, ?_⟩
    rwa [Nat.mul_div_cancel _ scale_pos]

/-! ## Rounding to nearest -/

/-- A finite result of rounding is a nearest magnitude of the format. -/
theorem abs_magnitude_sub_le {neg : Bool} {x : ℚ} (hx : 0 ≤ x)
    (hfin : (ofMagnitude neg x).IsFinite) {u : ℕ} (hu : binary64.OnGrid u) :
    |(ofMagnitude neg x).magnitude - x| ≤ |(u / scale : ℚ) - x| := by
  have hpos := scale_cast_pos
  have hnear := FloatFormat.abs_round_sub_le (F := binary64) (x := x * scale)
    (mul_nonneg hx hpos.le) hu
  have hscale : ∀ n : ℕ, |(n / scale : ℚ) - x| = |(n : ℚ) - x * scale| / scale := by
    intro n
    rw [eq_div_iff hpos.ne', ← abs_of_pos hpos, ← abs_mul, abs_of_pos hpos, sub_mul, units_eq]
  have hmag : (ofMagnitude neg x).magnitude = (binary64.round (x * scale) : ℚ) / scale := by
    unfold ofMagnitude at hfin ⊢
    split
    · rfl
    · next h => rw [dif_neg h] at hfin; exact hfin.elim
  rw [hmag, hscale, hscale]
  exact div_le_div_of_nonneg_right hnear hpos.le

/-- A rational that rounds to a safe integer is less than one away from it. -/
theorem abs_sub_lt_one_of_ofMagnitude {neg : Bool} {x : ℚ} (hx : 0 ≤ x) {n : ℕ}
    (hn : n < 2 ^ 53) (h : ofMagnitude neg x = ofMagnitude neg (n : ℚ)) : |x - n| < 1 := by
  have hpos := scale_cast_pos
  have hx' : 0 ≤ x * scale := mul_nonneg hx hpos.le
  have hround : binary64.round (x * scale) = n * scale := by
    rw [ofMagnitude_natCast neg hn] at h
    unfold ofMagnitude at h
    split at h
    · exact (Double.finite.inj h).2
    · cases h
  rw [abs_lt]
  constructor
  · by_contra hlow
    -- otherwise `n - 1` separates the two
    have hle : x ≤ (n : ℚ) - 1 := by linarith [not_lt.1 hlow]
    have hn1 : 1 ≤ n := by
      have : (1 : ℚ) ≤ n := by linarith
      exact_mod_cast this
    have hsep : x * scale ≤ ((n - 1) * scale : ℕ) := by
      push_cast [hn1]
      exact mul_le_mul_of_nonneg_right hle hpos.le
    have hgrid : binary64.OnGrid ((n - 1) * scale) := onGrid_mul_scale (by omega)
    have hlt := FloatFormat.round_le hx' hgrid hsep
    rw [hround] at hlt
    have := Nat.le_of_mul_le_mul_right hlt scale_pos
    omega
  · by_contra hhigh
    have hle : (n : ℚ) + 1 ≤ x := by linarith [not_lt.1 hhigh]
    have hsep : (((n + 1) * scale : ℕ) : ℚ) ≤ x * scale := by
      push_cast
      exact mul_le_mul_of_nonneg_right hle hpos.le
    have hlt := FloatFormat.le_round (onGrid_mul_scale (by omega)) hsep
    rw [hround] at hlt
    have := Nat.le_of_mul_le_mul_right hlt scale_pos
    omega

end Double

end Numeric
