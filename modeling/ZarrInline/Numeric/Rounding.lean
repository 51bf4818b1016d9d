import Mathlib

/-!
# Rounding to a binary grid

Round-to-nearest, ties-to-even, of non-negative rationals onto the values of a
binary floating-point format.  Magnitudes are counted in *units*, the smallest
positive value of the widest format under study, so that every representable
magnitude is a natural number and two formats over the same unit can be
compared directly.

Three facts about `FloatFormat.round` carry every later argument: a
representable magnitude rounds to itself (`round_natCast`), rounding is
monotone (`round_mono`), and the rounded magnitude is on the grid
(`onGrid_round`).
-/

namespace Numeric

/-! ## Nearest integer, ties to even -/

/-- The integer nearest to a non-negative rational, ties to even. -/
def roundEven (x : ℚ) : ℕ :=
  let k := ⌊x⌋₊
  if x - k < 1 / 2 then k
  else if 1 / 2 < x - k then k + 1
  else k + k % 2

theorem floor_le_roundEven (x : ℚ) : ⌊x⌋₊ ≤ roundEven x := by
  simp only [roundEven]
  split_ifs <;> omega

theorem roundEven_le_floor_add_one (x : ℚ) : roundEven x ≤ ⌊x⌋₊ + 1 := by
  simp only [roundEven]
  split_ifs <;> omega

@[simp] theorem roundEven_natCast (n : ℕ) : roundEven (n : ℚ) = n := by
  simp [roundEven]

theorem roundEven_mono {x y : ℚ} (h : x ≤ y) : roundEven x ≤ roundEven y := by
  rcases (Nat.floor_mono h).lt_or_eq with hlt | heq
  · calc roundEven x ≤ ⌊x⌋₊ + 1 := roundEven_le_floor_add_one x
      _ ≤ ⌊y⌋₊ := hlt
      _ ≤ roundEven y := floor_le_roundEven y
  · simp only [roundEven, heq]
    split_ifs <;> first | omega | (exfalso; linarith)

theorem le_roundEven {n : ℕ} {x : ℚ} (h : (n : ℚ) ≤ x) : n ≤ roundEven x := by
  simpa using roundEven_mono h

theorem roundEven_le {n : ℕ} {x : ℚ} (h : x ≤ (n : ℚ)) : roundEven x ≤ n := by
  simpa using roundEven_mono h

/-- The rounded integer is within half a unit. -/
theorem abs_roundEven_sub_le {x : ℚ} (hx : 0 ≤ x) : |(roundEven x : ℚ) - x| ≤ 1 / 2 := by
  have hlo : (⌊x⌋₊ : ℚ) ≤ x := Nat.floor_le hx
  have hhi : x < ⌊x⌋₊ + 1 := Nat.lt_floor_add_one x
  have hpar : ((⌊x⌋₊ % 2 : ℕ) : ℚ) ≤ 1 := by exact_mod_cast (by omega : ⌊x⌋₊ % 2 ≤ 1)
  have hpos : (0 : ℚ) ≤ ((⌊x⌋₊ % 2 : ℕ) : ℚ) := Nat.cast_nonneg _
  simp only [roundEven]
  split_ifs with h1 h2
  · rw [abs_le]; constructor <;> linarith
  · rw [abs_le]; push_cast; constructor <;> linarith
  · have hhalf : x - ⌊x⌋₊ = 1 / 2 := le_antisymm (not_lt.1 h2) (not_lt.1 h1)
    rw [abs_le]; push_cast at hpar hpos ⊢; constructor <;> linarith

/-- The rounded integer is a nearest integer. -/
theorem abs_roundEven_sub_le_natCast {x : ℚ} (hx : 0 ≤ x) (k : ℕ) :
    |(roundEven x : ℚ) - x| ≤ |(k : ℚ) - x| := by
  by_cases hk : roundEven x = k
  · rw [hk]
  · have herr := abs_roundEven_sub_le hx
    have hone : (1 : ℚ) ≤ |(roundEven x : ℚ) - k| := by
      have : (1 : ℤ) ≤ |(roundEven x : ℤ) - k| :=
        Int.one_le_abs (sub_ne_zero.2 (by exact_mod_cast hk))
      exact_mod_cast this
    have htri := abs_sub_le (roundEven x : ℚ) x (k : ℚ)
    rw [abs_sub_comm x] at htri
    linarith

/-! ## Formats -/

/-- A binary format over a fixed unit: `precision` significant bits, no step
finer than `2 ^ minExp` units, and every magnitude below `2 ^ bound` units. -/
structure FloatFormat where
  /-- Significant bits. -/
  precision : ℕ
  /-- Exponent of the finest step. -/
  minExp : ℕ
  /-- Exponent of the overflow bound. -/
  bound : ℕ
  precision_pos : 0 < precision
  minExp_lt : minExp + precision ≤ bound

namespace FloatFormat

variable (F : FloatFormat)

/-- Exponent of the step around a magnitude whose integer part is `n`. -/
def stepExp (n : ℕ) : ℕ := max F.minExp (Nat.log 2 n + 1 - F.precision)

/-- Round a non-negative rational number of units to the format, ignoring its
overflow bound. -/
def round (x : ℚ) : ℕ :=
  roundEven (x / 2 ^ F.stepExp ⌊x⌋₊) * 2 ^ F.stepExp ⌊x⌋₊

/-- A magnitude that the format's significand can hold. -/
def OnGrid (n : ℕ) : Prop := n % 2 ^ F.stepExp n = 0

/-- The first magnitude that overflows. -/
@[irreducible] def limit : ℕ := 2 ^ F.bound

/-- A magnitude of the format: on its grid and below its overflow bound. -/
def Representable (n : ℕ) : Prop := F.OnGrid n ∧ n < F.limit

instance (n : ℕ) : Decidable (F.OnGrid n) := inferInstanceAs (Decidable (_ = _))

instance (n : ℕ) : Decidable (F.Representable n) := inferInstanceAs (Decidable (_ ∧ _))

variable {F}

theorem two_pow_le_limit {e : ℕ} (h : e ≤ F.bound) : 2 ^ e ≤ F.limit := by
  unfold limit
  exact Nat.pow_le_pow_right (by norm_num) h

theorem limit_le_limit {G : FloatFormat} (h : F.bound ≤ G.bound) : F.limit ≤ G.limit := by
  unfold limit
  exact Nat.pow_le_pow_right (by norm_num) h

theorem representable_zero : F.Representable 0 :=
  ⟨Nat.zero_mod _, (Nat.two_pow_pos 0).trans_le (two_pow_le_limit (Nat.zero_le _))⟩

theorem minExp_le_stepExp (n : ℕ) : F.minExp ≤ F.stepExp n := le_max_left _ _

theorem stepExp_mono {m n : ℕ} (h : m ≤ n) : F.stepExp m ≤ F.stepExp n := by
  have := Nat.log_mono_right (b := 2) h
  simp only [stepExp]
  omega

/-- A magnitude has at most `precision` bits above its step. -/
theorem lt_two_pow_stepExp (n : ℕ) : n < 2 ^ (F.stepExp n + F.precision) := by
  calc n < 2 ^ (Nat.log 2 n + 1) := Nat.lt_pow_succ_log_self (by norm_num) n
    _ ≤ 2 ^ (F.stepExp n + F.precision) :=
        Nat.pow_le_pow_right (by norm_num) (by simp only [stepExp]; omega)

/-- Above the finest step, a magnitude has exactly `precision` bits. -/
theorem two_pow_stepExp_le {n : ℕ} (h : F.minExp < F.stepExp n) :
    2 ^ (F.stepExp n + F.precision - 1) ≤ n := by
  have hlog : F.stepExp n = Nat.log 2 n + 1 - F.precision := by
    simp only [stepExp] at h ⊢; omega
  have hn : n ≠ 0 := by
    rintro rfl
    simp [hlog] at h
    have := F.precision_pos
    omega
  calc 2 ^ (F.stepExp n + F.precision - 1) = 2 ^ Nat.log 2 n := by congr 1; omega
    _ ≤ n := Nat.pow_log_le_self 2 hn

/-- A magnitude below `2 ^ (e + precision)` has a step no coarser than `2 ^ e`. -/
theorem stepExp_le_of_lt {n e : ℕ} (he : F.minExp ≤ e) (h : n < 2 ^ (e + F.precision)) :
    F.stepExp n ≤ e := by
  by_contra hlt
  have hle := two_pow_stepExp_le (F := F) (n := n) (by omega)
  have : 2 ^ (e + F.precision) ≤ 2 ^ (F.stepExp n + F.precision - 1) :=
    Nat.pow_le_pow_right (by norm_num) (by omega)
  omega

theorem onGrid_mul_two_pow {m e : ℕ} (he : F.minExp ≤ e) (hm : m ≤ 2 ^ F.precision) :
    F.OnGrid (m * 2 ^ e) := by
  rcases hm.lt_or_eq with hlt | rfl
  · have hstep : F.stepExp (m * 2 ^ e) ≤ e := by
      apply stepExp_le_of_lt he
      rw [Nat.add_comm, pow_add]
      exact Nat.mul_lt_mul_of_pos_right hlt (by positivity)
    exact Nat.mod_eq_zero_of_dvd (Dvd.dvd.mul_left (pow_dvd_pow 2 hstep) m)
  · have hstep : F.stepExp (2 ^ F.precision * 2 ^ e) ≤ e + 1 := by
      apply stepExp_le_of_lt (by omega)
      rw [← pow_add]
      exact Nat.pow_lt_pow_right (by norm_num) (by omega)
    have hp := F.precision_pos
    refine Nat.mod_eq_zero_of_dvd ((pow_dvd_pow 2 hstep).trans ?_)
    rw [← pow_add]
    exact pow_dvd_pow 2 (by omega)

theorem onGrid_two_pow {e : ℕ} (he : F.minExp ≤ e) : F.OnGrid (2 ^ e) := by
  simpa using onGrid_mul_two_pow (F := F) (m := 1) he Nat.one_le_two_pow

/-- The rounded magnitude is on the grid. -/
theorem onGrid_round (x : ℚ) : F.OnGrid (F.round x) := by
  apply onGrid_mul_two_pow (minExp_le_stepExp _)
  apply roundEven_le
  rw [div_le_iff₀ (by positivity)]
  have hlt : (⌊x⌋₊ : ℚ) + 1 ≤ 2 ^ (F.stepExp ⌊x⌋₊ + F.precision) := by
    exact_mod_cast lt_two_pow_stepExp (F := F) ⌊x⌋₊
  have hx' := Nat.lt_floor_add_one x
  push_cast
  rw [← pow_add, Nat.add_comm]
  linarith

/-- A magnitude on the grid rounds to itself. -/
theorem round_natCast {n : ℕ} (h : F.OnGrid n) : F.round (n : ℚ) = n := by
  obtain ⟨k, hk⟩ := Nat.dvd_of_mod_eq_zero h
  have hq : (n : ℚ) / 2 ^ F.stepExp n = (k : ℚ) := by
    rw [div_eq_iff (by positivity)]
    exact_mod_cast hk.trans (Nat.mul_comm _ _)
  simp only [round, Nat.floor_natCast, hq, roundEven_natCast]
  rw [Nat.mul_comm]
  exact hk.symm

theorem round_mono {x y : ℚ} (hx : 0 ≤ x) (h : x ≤ y) : F.round x ≤ F.round y := by
  have hfl := Nat.floor_mono h
  rcases (stepExp_mono (F := F) hfl).lt_or_eq with hlt | heq
  · -- a coarser step for `y`: a power of two separates the two results
    have hx' : x < 2 ^ (F.stepExp ⌊x⌋₊ + F.precision) := by
      have : (⌊x⌋₊ : ℚ) + 1 ≤ 2 ^ (F.stepExp ⌊x⌋₊ + F.precision) := by
        exact_mod_cast lt_two_pow_stepExp (F := F) ⌊x⌋₊
      exact (Nat.lt_floor_add_one x).trans_le this
    have hy' : (2 : ℚ) ^ (F.stepExp ⌊y⌋₊ + F.precision - 1) ≤ y := by
      have hmin := minExp_le_stepExp (F := F) ⌊x⌋₊
      have hle := two_pow_stepExp_le (F := F) (n := ⌊y⌋₊) (by omega)
      calc (2 : ℚ) ^ (F.stepExp ⌊y⌋₊ + F.precision - 1) ≤ (⌊y⌋₊ : ℚ) := by exact_mod_cast hle
        _ ≤ y := Nat.floor_le (hx.trans h)
    have hlow : F.round x ≤ 2 ^ (F.precision + F.stepExp ⌊x⌋₊) := by
      rw [pow_add]
      refine Nat.mul_le_mul_right _ (roundEven_le ?_)
      rw [div_le_iff₀ (by positivity)]
      push_cast
      rw [← pow_add, Nat.add_comm]
      exact hx'.le
    have hhigh : 2 ^ (F.precision - 1 + F.stepExp ⌊y⌋₊) ≤ F.round y := by
      rw [pow_add]
      refine Nat.mul_le_mul_right _ (le_roundEven ?_)
      rw [le_div_iff₀ (by positivity)]
      push_cast
      rw [← pow_add]
      have hp := F.precision_pos
      rwa [show F.precision - 1 + F.stepExp ⌊y⌋₊ = F.stepExp ⌊y⌋₊ + F.precision - 1 by omega]
    have hpow : 2 ^ (F.precision + F.stepExp ⌊x⌋₊) ≤ 2 ^ (F.precision - 1 + F.stepExp ⌊y⌋₊) :=
      Nat.pow_le_pow_right (by norm_num) (by have := F.precision_pos; omega)
    exact hlow.trans (hpow.trans hhigh)
  · simp only [round, ← heq]
    exact Nat.mul_le_mul_right _ (roundEven_mono (div_le_div_of_nonneg_right h (by positivity)))

@[simp] theorem round_zero : F.round 0 = 0 := by
  simp [round, roundEven]

theorem le_round {n : ℕ} {x : ℚ} (hn : F.OnGrid n) (h : (n : ℚ) ≤ x) : n ≤ F.round x := by
  have := round_mono (F := F) (Nat.cast_nonneg n) h
  rwa [round_natCast hn] at this

theorem round_le {n : ℕ} {x : ℚ} (hx : 0 ≤ x) (hn : F.OnGrid n) (h : x ≤ (n : ℚ)) :
    F.round x ≤ n := by
  have := round_mono (F := F) hx h
  rwa [round_natCast hn] at this

/-- The step around `⌊x⌋` divides a grid point, or the point is below a multiple
of that step which is itself below `x`. -/
theorem dvd_or_lt_of_onGrid {x : ℚ} (hx : 0 ≤ x) {n : ℕ} (hn : F.OnGrid n) :
    2 ^ F.stepExp ⌊x⌋₊ ∣ n ∨
      ∃ m : ℕ, n ≤ m ∧ (m : ℚ) ≤ x ∧ 2 ^ F.stepExp ⌊x⌋₊ ∣ m := by
  rcases Nat.lt_or_ge (F.stepExp n) (F.stepExp ⌊x⌋₊) with hlt | hge
  · have hmin := minExp_le_stepExp (F := F) n
    have hp := F.precision_pos
    refine Or.inr ⟨2 ^ (F.stepExp ⌊x⌋₊ + F.precision - 1), ?_, ?_, pow_dvd_pow 2 (by omega)⟩
    · exact (lt_two_pow_stepExp (F := F) n).le.trans (Nat.pow_le_pow_right (by norm_num) (by omega))
    · have hle := two_pow_stepExp_le (F := F) (n := ⌊x⌋₊) (by omega)
      calc ((2 ^ (F.stepExp ⌊x⌋₊ + F.precision - 1) : ℕ) : ℚ) ≤ (⌊x⌋₊ : ℚ) := by
            exact_mod_cast hle
        _ ≤ x := Nat.floor_le hx
  · exact Or.inl ((pow_dvd_pow 2 hge).trans (Nat.dvd_of_mod_eq_zero hn))

/-- The rounded magnitude is at least as near as any multiple of the step. -/
theorem abs_round_sub_le_of_dvd {x : ℚ} (hx : 0 ≤ x) {n : ℕ}
    (hn : 2 ^ F.stepExp ⌊x⌋₊ ∣ n) : |(F.round x : ℚ) - x| ≤ |(n : ℚ) - x| := by
  obtain ⟨k, rfl⟩ := hn
  have hpos : (0 : ℚ) < 2 ^ F.stepExp ⌊x⌋₊ := by positivity
  have hnear := abs_roundEven_sub_le_natCast (x := x / 2 ^ F.stepExp ⌊x⌋₊) (by positivity) k
  have hscale : ∀ a : ℚ, |a * 2 ^ F.stepExp ⌊x⌋₊ - x|
      = |a - x / 2 ^ F.stepExp ⌊x⌋₊| * 2 ^ F.stepExp ⌊x⌋₊ := by
    intro a
    rw [← abs_of_pos hpos, ← abs_mul, abs_of_pos hpos]
    congr 1
    field_simp
  have hround : (F.round x : ℚ)
      = (roundEven (x / 2 ^ F.stepExp ⌊x⌋₊) : ℚ) * 2 ^ F.stepExp ⌊x⌋₊ := by
    simp [round]
  have hcast : ((2 ^ F.stepExp ⌊x⌋₊ * k : ℕ) : ℚ) = (k : ℚ) * 2 ^ F.stepExp ⌊x⌋₊ := by
    push_cast
    ring
  rw [hround, hcast, hscale, hscale]
  exact mul_le_mul_of_nonneg_right hnear hpos.le

/-- The rounded magnitude is a nearest point of the grid. -/
theorem abs_round_sub_le {x : ℚ} (hx : 0 ≤ x) {n : ℕ} (hn : F.OnGrid n) :
    |(F.round x : ℚ) - x| ≤ |(n : ℚ) - x| := by
  rcases dvd_or_lt_of_onGrid hx hn with hdvd | ⟨m, hnm, hmx, hdvd⟩
  · exact abs_round_sub_le_of_dvd hx hdvd
  · refine (abs_round_sub_le_of_dvd hx hdvd).trans ?_
    have hnm' : (n : ℚ) ≤ m := by exact_mod_cast hnm
    rw [abs_of_nonpos (by linarith), abs_of_nonpos (by linarith)]
    linarith

/-! ## Comparing two formats over one unit -/

/-- Every grid point of a format is on the grid of a finer one. -/
theorem OnGrid.of_finer {G : FloatFormat} {n : ℕ} (h : F.OnGrid n)
    (hp : F.precision ≤ G.precision) (hm : G.minExp ≤ F.minExp) : G.OnGrid n := by
  refine Nat.mod_eq_zero_of_dvd ((pow_dvd_pow 2 ?_).trans (Nat.dvd_of_mod_eq_zero h))
  simp only [stepExp]
  omega

end FloatFormat

end Numeric
