import Mathlib

/-!
# Arrays in row-major order

The elements of an array of a shape are numbered with the last axis fastest.  `ravel` is the
number of a coordinate, a dot product with the strides of the shape, and `unravel` takes
quotients and remainders the other way; each undoes the other (`unravel_ravel`,
`ravel_unravel`).  `advance` moves a coordinate on to the next like an odometer, and goes
through the numbers in order (`advance_unravel`).

Extents of zero are allowed: there is no coordinate then, and no number.  `tabulate` lists the
elements of an array that is given as a function of coordinates.
-/

namespace Grid

/-- A coordinate in a shape: below the extent on each axis. -/
def Within (shape x : List ℕ) : Prop := List.Forall₂ (· < ·) x shape

instance (shape x : List ℕ) : Decidable (Within shape x) :=
  inferInstanceAs (Decidable (List.Forall₂ _ _ _))

/-- How far the number goes for a step on each axis. -/
def strides : List ℕ → List ℕ
  | [] => []
  | _ :: shape => shape.prod :: strides shape

/-- The sum of the products. -/
def dot (x y : List ℕ) : ℕ := (List.zipWith (· * ·) x y).sum

/-- The number of a coordinate. -/
def ravel (shape x : List ℕ) : ℕ := dot x (strides shape)

/-- The coordinate with a number. -/
def unravel : List ℕ → ℕ → List ℕ
  | [], _ => []
  | _ :: shape, i => i / shape.prod :: unravel shape (i % shape.prod)

variable {shape x : List ℕ} {d i k : ℕ}

@[simp] theorem within_nil : Within [] x ↔ x = [] := List.forall₂_nil_right_iff

theorem within_cons : Within (d :: shape) x ↔ ∃ k y, x = k :: y ∧ k < d ∧ Within shape y := by
  constructor
  · rintro (_ | ⟨hk, hy⟩)
    exact ⟨_, _, rfl, hk, hy⟩
  · rintro ⟨k, y, rfl, hk, hy⟩
    exact List.Forall₂.cons hk hy

theorem Within.length_eq (h : Within shape x) : x.length = shape.length := List.Forall₂.length_eq h

@[simp] theorem dot_nil : dot [] x = 0 := rfl

@[simp] theorem dot_cons {y : List ℕ} : dot (k :: x) (d :: y) = k * d + dot x y := by
  simp [dot]

@[simp] theorem ravel_nil : ravel [] x = 0 := by
  cases x <;> rfl

@[simp] theorem ravel_cons : ravel (d :: shape) (k :: x) = k * shape.prod + ravel shape x := dot_cons

@[simp] theorem length_strides : (strides shape).length = shape.length := by
  induction shape with
  | nil => rfl
  | cons d shape ih => rw [strides, List.length_cons, List.length_cons, ih]

@[simp] theorem length_unravel : (unravel shape i).length = shape.length := by
  induction shape generalizing i with
  | nil => rfl
  | cons d shape ih => rw [unravel, List.length_cons, List.length_cons, ih]

theorem ravel_lt (h : Within shape x) : ravel shape x < shape.prod := by
  induction shape generalizing x with
  | nil => simp
  | cons d shape ih =>
      obtain ⟨k, y, rfl, hk, hy⟩ := within_cons.1 h
      have hmul : (k + 1) * shape.prod ≤ d * shape.prod := Nat.mul_le_mul_right _ hk
      rw [ravel_cons, List.prod_cons]
      rw [Nat.succ_mul] at hmul
      have := ih hy
      omega

theorem prod_pos_of_lt (h : i < (d :: shape).prod) : 0 < shape.prod := by
  rw [List.prod_cons] at h
  exact Nat.pos_of_ne_zero fun hzero => by simp [hzero] at h

theorem within_unravel (h : i < shape.prod) : Within shape (unravel shape i) := by
  induction shape generalizing i with
  | nil => exact within_nil.2 rfl
  | cons d shape ih =>
      have hpos := prod_pos_of_lt h
      rw [List.prod_cons] at h
      exact within_cons.2 ⟨_, _, rfl, (Nat.div_lt_iff_lt_mul hpos).2 h, ih (Nat.mod_lt _ hpos)⟩

theorem unravel_ravel (h : Within shape x) : unravel shape (ravel shape x) = x := by
  induction shape generalizing x with
  | nil => exact (within_nil.1 h).symm
  | cons d shape ih =>
      obtain ⟨k, y, rfl, -, hy⟩ := within_cons.1 h
      have hlt := ravel_lt hy
      have hpos : 0 < shape.prod := Nat.zero_lt_of_lt hlt
      rw [ravel_cons, unravel, Nat.add_comm, Nat.add_mul_div_right _ _ hpos,
        Nat.add_mul_mod_self_right, Nat.div_eq_of_lt hlt, Nat.mod_eq_of_lt hlt, ih hy, Nat.zero_add]

theorem ravel_unravel (h : i < shape.prod) : ravel shape (unravel shape i) = i := by
  induction shape generalizing i with
  | nil =>
      rw [List.prod_nil] at h
      rw [ravel_nil]
      omega
  | cons d shape ih =>
      rw [unravel, ravel_cons, ih (Nat.mod_lt _ (prod_pos_of_lt h)), Nat.div_add_mod']

/-! ## The elements -/

section Tabulate

variable {α β : Type} {f : List ℕ → α}

/-- The elements of an array, in the order of their numbers. -/
def tabulate (shape : List ℕ) (f : List ℕ → α) : List α :=
  (List.range shape.prod).map fun i => f (unravel shape i)

@[simp] theorem length_tabulate : (tabulate shape f).length = shape.prod := by
  rw [tabulate, List.length_map, List.length_range]

theorem getElem?_tabulate (h : i < shape.prod) : (tabulate shape f)[i]? = some (f (unravel shape i)) := by
  rw [tabulate, List.getElem?_map, List.getElem?_range h, Option.map_some]

theorem getElem?_tabulate_ravel (h : Within shape x) : (tabulate shape f)[ravel shape x]? = some (f x) := by
  rw [getElem?_tabulate (ravel_lt h), unravel_ravel h]

theorem tabulate_congr {g : List ℕ → α} (h : ∀ x, Within shape x → f x = g x) :
    tabulate shape f = tabulate shape g :=
  List.map_congr_left fun _ hi => h _ (within_unravel (List.mem_range.1 hi))

/-- A list whose elements are related to those of an array. -/
theorem forall₂_tabulate {R : β → α → Prop} {xs : List β} (hlength : xs.length = shape.prod)
    (h : ∀ x, Within shape x → ∀ v, xs[ravel shape x]? = some v → R v (f x)) :
    List.Forall₂ R xs (tabulate shape f) := by
  refine List.forall₂_iff_get.2 ⟨hlength.trans length_tabulate.symm, fun i hi hi' => ?_⟩
  have hlt : i < shape.prod := hlength ▸ hi
  have hget : (tabulate shape f).get ⟨i, hi'⟩ = f (unravel shape i) := by
    rw [List.get_eq_getElem]
    simp only [tabulate, List.getElem_map, List.getElem_range]
  rw [hget]
  refine h _ (within_unravel hlt) _ ?_
  rw [ravel_unravel hlt]
  exact List.getElem?_eq_getElem hi

end Tabulate

/-! ## The odometer -/

/-- The next coordinate, and whether it is the first again. -/
def advance : List ℕ → List ℕ → Bool × List ℕ
  | d :: shape, k :: x =>
      match advance shape x with
      | (true, y) => if k + 1 < d then (false, (k + 1) :: y) else (true, 0 :: y)
      | (false, y) => (false, k :: y)
  | _, _ => (true, [])

@[simp] theorem unravel_zero : unravel shape 0 = List.replicate shape.length 0 := by
  induction shape with
  | nil => rfl
  | cons d shape ih => rw [unravel, Nat.zero_div, Nat.zero_mod, ih, List.length_cons, List.replicate_succ]

/-- The number in a block of `n`, if the next one is in the next block. -/
theorem succ_of_mod_eq {n : ℕ} (hn : i % n + 1 = n) : (i + 1) / n = i / n + 1 ∧ (i + 1) % n = 0 := by
  have hi : i + 1 = (i / n + 1) * n := by
    rw [Nat.succ_mul]
    have := Nat.div_add_mod' i n
    omega
  have hpos : 0 < n := by omega
  rw [hi, Nat.mul_div_cancel _ hpos, Nat.mul_mod_left]
  exact ⟨rfl, rfl⟩

/-- The number in a block of `n`, if the next one is in the same block. -/
theorem succ_of_mod_lt {n : ℕ} (hn : i % n + 1 < n) :
    (i + 1) / n = i / n ∧ (i + 1) % n = i % n + 1 := by
  have hpos : 0 < n := by omega
  have hi : i + 1 = i % n + 1 + i / n * n := by
    have := Nat.div_add_mod' i n
    omega
  constructor
  · rw [hi, Nat.add_mul_div_right _ _ hpos, Nat.div_eq_of_lt hn, Nat.zero_add]
  · rw [hi, Nat.add_mul_mod_self_right, Nat.mod_eq_of_lt hn]

/-- After the last coordinate comes the first. -/
theorem advance_last (h : i + 1 = shape.prod) : advance shape (unravel shape i)
    = (true, List.replicate shape.length 0) := by
  induction shape generalizing i with
  | nil => rfl
  | cons d shape ih =>
      have hpos : 0 < shape.prod := prod_pos_of_lt (d := d) (i := i) (by omega)
      rw [List.prod_cons] at h
      have hmod : i % shape.prod + 1 = shape.prod := by
        by_contra hne
        have hlt : i % shape.prod + 1 < shape.prod := by
          have := Nat.mod_lt i hpos
          omega
        have hzero : (i + 1) % shape.prod = 0 := by rw [h, Nat.mul_mod_left]
        rw [(succ_of_mod_lt hlt).2] at hzero
        cases hzero
      have hdiv : i / shape.prod + 1 = d := by
        rw [← (succ_of_mod_eq hmod).1, h, Nat.mul_div_cancel _ hpos]
      rw [unravel, advance, ih hmod]
      simp only [hdiv, lt_irrefl, if_false]
      rw [List.length_cons, List.replicate_succ]

/-- An odometer goes through the numbers in order. -/
theorem advance_unravel (h : i + 1 < shape.prod) :
    advance shape (unravel shape i) = (false, unravel shape (i + 1)) := by
  induction shape generalizing i with
  | nil =>
      rw [List.prod_nil] at h
      omega
  | cons d shape ih =>
      have hpos := prod_pos_of_lt h
      rw [List.prod_cons] at h
      rw [unravel, advance, unravel]
      rcases Nat.lt_or_eq_of_le (Nat.succ_le_of_lt (Nat.mod_lt i hpos)) with hlt | hlast
      · rw [ih hlt, (succ_of_mod_lt hlt).1, (succ_of_mod_lt hlt).2]
      · have hcarry : i / shape.prod + 1 < d := by
          rw [← (succ_of_mod_eq hlast).1]
          exact (Nat.div_lt_iff_lt_mul hpos).2 h
        rw [advance_last hlast, (succ_of_mod_eq hlast).1, (succ_of_mod_eq hlast).2, unravel_zero]
        simp only [hcarry, if_true]

end Grid
