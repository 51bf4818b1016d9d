import ZarrInline.Numeric.Double

/-!
# Arithmetic on binary64 values

Comparison, sum, difference and remainder: the exact result, rounded to nearest.  On
naturals below `2 ^ 53` they are those of the naturals.
-/

namespace Numeric

namespace Double

/-- The nearest binary64 number to a rational. -/
def ofRat (q : ℚ) : Double := ofMagnitude (decide (q < 0)) |q|

/-- `x < y`. -/
def lt : Double → Double → Bool
  | .nan, _ => false
  | _, .nan => false
  | .infinity neg, y => neg && y ≠ .infinity true
  | .finite _ _ _, .infinity neg => !neg
  | .finite n u h, .finite m v k => decide ((finite n u h).toRat < (finite m v k).toRat)

/-- The opposite. -/
def negate : Double → Double
  | .nan => .nan
  | .infinity neg => .infinity !neg
  | .finite neg u h => .finite (!neg) u h

/-- `x + y`.  A sum of zeros is `+0`: its sign is not needed here. -/
def add : Double → Double → Double
  | .nan, _ => .nan
  | _, .nan => .nan
  | .infinity neg, .infinity neg' => if neg = neg' then .infinity neg else .nan
  | .infinity neg, .finite _ _ _ => .infinity neg
  | .finite _ _ _, .infinity neg => .infinity neg
  | .finite n u h, .finite m v k => ofRat ((finite n u h).toRat + (finite m v k).toRat)

/-- `x - y`. -/
def sub (x y : Double) : Double := add x y.negate

/-- `x % y`: the remainder of division towards zero, with the sign of `x`. -/
def rem : Double → Double → Double
  | .finite neg u h, .infinity _ => .finite neg u h
  | .finite neg u _, .finite _ v _ => if v = 0 then .nan else ofMagnitude neg ((u % v : ℕ) / scale)
  | _, _ => .nan

/-- `x === 0`. -/
def isZero : Double → Bool
  | .finite _ u _ => u = 0
  | _ => false

/-! ## Naturals -/

/-- The double of a natural number. -/
theorem ofInt_natCast (n : ℕ) : ofInt (n : ℤ) = ofMagnitude false n := by
  rw [ofInt, Int.natAbs_natCast, decide_eq_false (by omega)]

theorem toRat_finite_false {u : ℕ} (h : binary64.Representable u) :
    (finite false u h).toRat = u / scale := rfl

theorem finite_congr {neg : Bool} {u v : ℕ} (huv : u = v) (hu : binary64.Representable u)
    (hv : binary64.Representable v) : finite neg u hu = finite neg v hv := by
  subst huv
  rfl

theorem toRat_finite_mul_scale {n : ℕ} (h : binary64.Representable (n * scale)) :
    (finite false (n * scale) h).toRat = n := by
  rw [toRat_finite_false]
  push_cast
  rw [mul_div_assoc, div_self scale_cast_pos.ne', mul_one]

/-- A natural number below `2 ^ 53` is its own double. -/
theorem ofInt_eq_finite {n : ℕ} (hn : n < 2 ^ 53) :
    ofInt (n : ℤ) = .finite false (n * scale) (representable_natCast hn) := by
  rw [ofInt_natCast, ofMagnitude_natCast false hn]

theorem toRat_ofInt {n : ℕ} (hn : n < 2 ^ 53) : (ofInt (n : ℤ)).toRat = n := by
  rw [ofInt_eq_finite hn, toRat_finite_mul_scale]

/-- From `2 ^ 53` on, a double of a natural number is at least `2 ^ 53`. -/
theorem le_round_natCast {n : ℕ} (hn : 2 ^ 53 ≤ n) :
    2 ^ 53 * scale ≤ binary64.round ((n : ℚ) * scale) := by
  apply FloatFormat.le_round (onGrid_mul_scale le_rfl)
  exact_mod_cast Nat.mul_le_mul_right scale hn

/-- A multiple of the step of `2 ^ 53` is a natural number. -/
theorem scale_dvd_of_onGrid {u : ℕ} (hgrid : binary64.OnGrid u) (hle : 2 ^ 53 * scale ≤ u) :
    scale ∣ u := by
  have hscale : 2 ^ 53 * scale = 2 ^ (53 + unitBits) := by rw [scale, pow_add]
  have hlog : 53 + unitBits ≤ Nat.log 2 u :=
    Nat.le_log_of_pow_le (by norm_num) (hscale ▸ hle)
  have hstep : unitBits ≤ binary64.stepExp u := by
    refine le_trans ?_ (le_max_right _ _)
    have hprecision : binary64.precision = 53 := rfl
    omega
  exact (Nat.pow_dvd_pow 2 hstep).trans (Nat.dvd_of_mod_eq_zero hgrid)

/-- The double of a natural number below `2 ^ 64` is a natural number. -/
theorem exists_ofInt_natCast {n : ℕ} (hn : n < 2 ^ 64) :
    ∃ m : ℕ, ofInt (n : ℤ) = ofInt (m : ℤ) ∧ ∃ h, ofInt (m : ℤ) = .finite false (m * scale) h := by
  by_cases hsafe : n < 2 ^ 53
  · exact ⟨n, rfl, _, ofInt_eq_finite hsafe⟩
  · have hle := le_round_natCast (Nat.not_lt.1 hsafe)
    obtain ⟨m, hm⟩ := exists_eq_mul_left_of_dvd
      (scale_dvd_of_onGrid (FloatFormat.onGrid_round _) hle)
    have hlt : binary64.round ((n : ℚ) * scale) < binary64.limit := by
      have hpow : 2 ^ 64 * scale = 2 ^ (64 + unitBits) := by rw [scale, pow_add]
      have hround : binary64.round ((n : ℚ) * scale) ≤ 2 ^ 64 * scale := by
        refine FloatFormat.round_le (mul_nonneg (Nat.cast_nonneg _) scale_cast_pos.le) ?_ ?_
        · rw [hpow]
          exact FloatFormat.onGrid_two_pow (Nat.zero_le _)
        · exact_mod_cast Nat.mul_le_mul_right scale hn.le
      have hlimit : 2 ^ 65 * scale ≤ binary64.limit := by
        rw [scale, ← pow_add, unitBits]
        exact FloatFormat.two_pow_le_limit (by decide)
      have := scale_pos
      omega
    have hrep : binary64.Representable (m * scale) := ⟨hm ▸ FloatFormat.onGrid_round _, hm ▸ hlt⟩
    have hof : ofInt (n : ℤ) = .finite false (m * scale) hrep := by
      rw [ofInt_natCast, ofMagnitude, dif_pos hlt]
      exact finite_congr hm _ _
    have hm' : ofInt (m : ℤ) = .finite false (m * scale) hrep := by
      have hunits := ofMagnitude_units false hrep
      push_cast at hunits
      rw [mul_div_assoc, div_self scale_cast_pos.ne', mul_one] at hunits
      rw [ofInt_natCast, hunits]
    exact ⟨m, hof.trans hm'.symm, hrep, hm'⟩

/-- Comparison with a natural number below `2 ^ 53`. -/
theorem lt_ofInt {k n : ℕ} (hn : n < 2 ^ 53) : lt (ofInt (k : ℤ)) (ofInt (n : ℤ)) = decide (k < n) := by
  rw [ofInt_eq_finite hn]
  by_cases hk : k < 2 ^ 53
  · rw [ofInt_eq_finite hk]
    simp only [lt, toRat_finite_mul_scale, Nat.cast_lt]
  · have hle := le_round_natCast (Nat.not_lt.1 hk)
    have hnot : ¬ k < n := by omega
    rw [decide_eq_false hnot, ofInt_natCast, ofMagnitude]
    split
    · next h =>
        simp only [lt, toRat_finite_mul_scale, decide_eq_false_iff_not, not_lt]
        show (n : ℚ) ≤ (binary64.round ((k : ℚ) * scale) : ℕ) / scale
        rw [le_div_iff₀ scale_cast_pos]
        exact_mod_cast (Nat.mul_le_mul_right scale hn.le).trans hle
    · rfl

/-- The difference of natural numbers, rounded. -/
theorem sub_ofInt {m n : ℕ} {h : binary64.Representable (m * scale)}
    (hm : ofInt (m : ℤ) = .finite false (m * scale) h) (hn : n < 2 ^ 53) (hle : n ≤ m) :
    (ofInt (m : ℤ)).sub (ofInt (n : ℤ)) = ofInt ((m - n : ℕ) : ℤ) := by
  have hneg : (finite true (n * scale) (representable_natCast hn)).toRat = -n := by
    rw [← toRat_finite_mul_scale (representable_natCast hn)]
    rfl
  have hdiff : (m : ℚ) + -n = ((m - n : ℕ) : ℚ) := by
    rw [Nat.cast_sub hle, sub_eq_add_neg]
  rw [hm, ofInt_eq_finite hn, sub, negate, Bool.not_false, add, hneg, toRat_finite_mul_scale, hdiff,
    ofRat, ofInt_natCast, Nat.abs_cast, decide_eq_false (not_lt.2 (Nat.cast_nonneg _))]

/-- The sum of natural numbers below `2 ^ 53`, rounded. -/
theorem add_ofInt {m n : ℕ} (hm : m < 2 ^ 53) (hn : n < 2 ^ 53) :
    (ofInt (m : ℤ)).add (ofInt (n : ℤ)) = ofInt ((m + n : ℕ) : ℤ) := by
  rw [ofInt_eq_finite hm, ofInt_eq_finite hn, add, toRat_finite_mul_scale, toRat_finite_mul_scale,
    ← Nat.cast_add, ofRat, ofInt_natCast, Nat.abs_cast,
    decide_eq_false (not_lt.2 (Nat.cast_nonneg _))]

/-- The remainder of natural numbers below `2 ^ 53`. -/
theorem isZero_rem_ofInt {m n : ℕ} (hm : m < 2 ^ 53) (hn : n < 2 ^ 53) (h0 : n ≠ 0) :
    ((ofInt (m : ℤ)).rem (ofInt (n : ℤ))).isZero = decide (m % n = 0) := by
  have hne : n * scale ≠ 0 := Nat.mul_ne_zero h0 scale_pos.ne'
  have hmod : m % n < 2 ^ 53 := (Nat.mod_le _ _).trans_lt hm
  have hquot : ((m * scale % (n * scale) : ℕ) : ℚ) / scale = ((m % n : ℕ) : ℚ) := by
    rw [Nat.mul_mod_mul_right]
    push_cast
    rw [mul_div_assoc, div_self scale_cast_pos.ne', mul_one]
  rw [ofInt_eq_finite hm, ofInt_eq_finite hn, rem, if_neg hne, hquot, ofMagnitude_natCast false hmod,
    isZero]
  simp [scale_pos.ne']

end Double

end Numeric
