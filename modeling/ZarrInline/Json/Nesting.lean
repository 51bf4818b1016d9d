import ZarrInline.Json.Writer

/-!
# Lists nested by a shape

A list of trees is nested by a shape into arrays of arrays, and a nested tree is flattened
again.  The elements are trees of their own and may be arrays, so flattening follows the
shape and not the tree.

`nest` divides the length by an extent at every level but the last, and fails at an extent
of zero (`nest_isOk_iff`).  Where it does not fail, `flatten` is its inverse
(`flatten_nest`), and `flatten` takes the trees of the shape and no others
(`flatten_isOk_iff`).
-/

namespace Json

variable {σ ν ε α : Type}

/-! ## Slices -/

/-- The first `d` slices of `step` elements. -/
def slices (step d : ℕ) (l : List α) : List (List α) :=
  (List.range d).map fun i => (l.drop (i * step)).take step

@[simp] theorem length_slices (step d : ℕ) (l : List α) : (slices step d l).length = d := by
  rw [slices, List.length_map, List.length_range]

theorem flatten_slices_eq_take (step d : ℕ) (l : List α) :
    (slices step d l).flatten = l.take (d * step) := by
  induction d with
  | zero => simp [slices]
  | succ d ih =>
      have hsplit : slices step (d + 1) l = slices step d l ++ [(l.drop (d * step)).take step] := by
        rw [slices, List.range_succ, List.map_append]
        rfl
      rw [hsplit, List.flatten_append, ih, List.flatten_singleton, Nat.succ_mul, List.take_add]

/-- Slices that take the whole list make it up. -/
theorem flatten_slices {step d : ℕ} {l : List α} (h : l.length = d * step) :
    (slices step d l).flatten = l := by
  rw [flatten_slices_eq_take, ← h, List.take_length]

theorem slices_succ (step d : ℕ) (l : List α) :
    slices step (d + 1) l = l.take step :: slices step d (l.drop step) := by
  rw [slices, List.range_succ_eq_map, List.map_cons, List.map_map, slices]
  refine congrArg₂ _ (by rw [Nat.zero_mul, List.drop_zero]) (List.map_congr_left fun i _ => ?_)
  rw [Function.comp_apply, List.drop_drop, Nat.succ_mul, Nat.add_comm]

/-- A list that is made up of parts of one length is cut into the parts. -/
theorem slices_flatten {step : ℕ} {parts : List (List α)} (h : ∀ p ∈ parts, p.length = step) :
    slices step parts.length parts.flatten = parts := by
  induction parts with
  | nil => rfl
  | cons p parts ih =>
      obtain ⟨hp, hparts⟩ := List.forall_mem_cons.1 h
      rw [List.length_cons, slices_succ, List.flatten_cons, List.take_left' hp, List.drop_left' hp,
        ih hparts]

theorem length_of_mem_slices {step d : ℕ} {l s : List α} (h : l.length = d * step)
    (hs : s ∈ slices step d l) : s.length = step := by
  obtain ⟨i, hi, rfl⟩ := List.mem_map.1 hs
  have hle : (i + 1) * step ≤ d * step := Nat.mul_le_mul_right _ (List.mem_range.1 hi)
  rw [Nat.succ_mul] at hle
  rw [List.length_take, List.length_drop, h]
  omega

/-! ## Nesting -/

/-- Nest a list by a shape.  `zero` is the failure of a division by an extent, and `index`
of taking the element of an empty list. -/
def nest (zero index : ε) : List ℕ → List (Json σ ν) → Except ε (Json σ ν)
  | [], [] => .error index
  | [], v :: _ => .ok v
  | [_], flat => .ok (.arr flat)
  | d :: e :: rest, flat =>
      if d = 0 then .error zero
      else
        (sequence ((slices (flat.length / d) d flat).map (nest zero index (e :: rest)))).map .arr

/-- Flatten a nested tree by a shape.  `mismatch` is the failure at a tree that does not have
the shape that is left. -/
def flatten (mismatch : List ℕ → ε) : List ℕ → Json σ ν → Except ε (List (Json σ ν))
  | [], v => .ok [v]
  | d :: rest, .arr xs =>
      if xs.length ≠ d then .error (mismatch (d :: rest))
      else if rest = [] then .ok xs
      else (sequence (xs.map (flatten mismatch rest))).map List.flatten
  | d :: rest, _ => .error (mismatch (d :: rest))

/-- The tree is an array of arrays of the shape. -/
def HasShape : List ℕ → Json σ ν → Prop
  | [], _ => True
  | d :: rest, .arr xs => xs.length = d ∧ ∀ x ∈ xs, HasShape rest x
  | _ :: _, _ => False

section Nest

variable {zero index : ε} {shape : List ℕ} {flat : List (Json σ ν)} {v : Json σ ν}

/-- The slices of a level have the length of the levels below. -/
theorem div_extent {d : ℕ} (hd : d ≠ 0) (hlen : flat.length = (d :: shape).prod) :
    flat.length / d = shape.prod ∧ flat.length = d * shape.prod := by
  rw [List.prod_cons] at hlen
  exact ⟨hlen ▸ Nat.mul_div_cancel_left _ (Nat.pos_of_ne_zero hd), hlen⟩

/-- Nesting a list as long as the shape fails at an extent of zero, unless it is the last. -/
theorem nest_isOk_iff (hlen : flat.length = shape.prod) :
    IsOk (nest zero index shape flat) ↔ 0 ∉ shape.dropLast := by
  induction shape generalizing flat with
  | nil =>
      obtain ⟨v, rfl⟩ := List.length_eq_one_iff.1 hlen
      exact iff_of_true trivial (List.not_mem_nil)
  | cons d shape ih =>
      cases shape with
      | nil => exact iff_of_true trivial (List.not_mem_nil)
      | cons e rest =>
          rw [nest, List.dropLast_cons_cons, List.mem_cons, not_or]
          rcases eq_or_ne d 0 with rfl | hd
          · rw [if_pos rfl]
            exact iff_of_false id fun h => h.1 rfl
          · obtain ⟨hdiv, hmul⟩ := div_extent hd hlen
            rw [if_neg hd, hdiv, isOk_map, isOk_sequence]
            constructor
            · intro h
              obtain ⟨s, hs⟩ := List.exists_mem_of_length_pos
                ((length_slices (e :: rest).prod d flat).symm ▸ Nat.pos_of_ne_zero hd)
              exact ⟨hd.symm, (ih (length_of_mem_slices hmul hs)).1 (h s hs)⟩
            · exact fun h s hs => (ih (length_of_mem_slices hmul hs)).2 h.2

/-- One level of a nested list. -/
theorem nest_cons_eq_ok {d e : ℕ} {rest : List ℕ} (hlen : flat.length = (d :: e :: rest).prod)
    (h : nest zero index (d :: e :: rest) flat = .ok v) :
    ∃ parts xs, parts.flatten = flat ∧ parts.length = d ∧
      (∀ s ∈ parts, s.length = (e :: rest).prod) ∧ v = .arr xs ∧
      List.Forall₂ (fun s x => nest zero index (e :: rest) s = .ok x) parts xs := by
  rw [nest] at h
  split at h
  · cases h
  · next hd =>
      obtain ⟨hdiv, hmul⟩ := div_extent hd hlen
      rw [hdiv] at h
      obtain ⟨xs, hxs, rfl⟩ := exists_of_map_eq_ok h
      exact ⟨_, xs, flatten_slices hmul, length_slices _ _ _,
        fun s hs => length_of_mem_slices hmul hs, rfl, sequence_eq_ok.1 hxs⟩

/-- A nested list is flattened to the list. -/
theorem flatten_nest {ε' : Type} (mismatch : List ℕ → ε') (hlen : flat.length = shape.prod)
    (h : nest zero index shape flat = .ok v) : flatten mismatch shape v = .ok flat := by
  induction shape generalizing flat v with
  | nil =>
      obtain ⟨x, rfl⟩ := List.length_eq_one_iff.1 hlen
      cases h
      rfl
  | cons d shape ih =>
      cases shape with
      | nil =>
          cases h
          have hlen' : flat.length = d := by simpa using hlen
          rw [flatten, if_neg (not_not_intro hlen'), if_pos rfl]
      | cons e rest =>
          obtain ⟨parts, xs, hparts, hcount, hlengths, rfl, hxs⟩ := nest_cons_eq_ok hlen h
          have hcount' : xs.length = d := hxs.length_eq ▸ hcount
          have hseq : sequence (xs.map (flatten mismatch (e :: rest))) = .ok parts := by
            refine sequence_eq_ok.2 (List.forall₂_iff_get.2 ⟨hxs.length_eq.symm, fun i hi hi' => ?_⟩)
            exact ih (hlengths _ (List.get_mem ..)) ((List.forall₂_iff_get.1 hxs).2 i hi' hi)
          rw [flatten, if_neg (not_not_intro hcount'), if_neg (List.cons_ne_nil e rest), hseq]
          exact congrArg Except.ok hparts

theorem forall_mem_iff_of_forall₂ {β : Type} {p : α → Prop} {q : β → Prop} {as : List α} {bs : List β}
    (h : List.Forall₂ (fun a b => q b ↔ p a) as bs) : (∀ b ∈ bs, q b) ↔ ∀ a ∈ as, p a := by
  induction h with
  | nil => simp
  | cons hab _ ih => rw [List.forall_mem_cons, List.forall_mem_cons, hab, ih]

/-- What holds of an array when it holds of its elements holds of a nested list when it holds
of the list. -/
theorem nest_forall_iff {p : Json σ ν → Prop} (hp : ∀ xs, p (.arr xs) ↔ ∀ x ∈ xs, p x)
    (hlen : flat.length = shape.prod) (h : nest zero index shape flat = .ok v) :
    p v ↔ ∀ x ∈ flat, p x := by
  induction shape generalizing flat v with
  | nil =>
      obtain ⟨x, rfl⟩ := List.length_eq_one_iff.1 hlen
      cases h
      exact (List.forall_mem_singleton).symm
  | cons d shape ih =>
      cases shape with
      | nil =>
          cases h
          exact hp flat
      | cons e rest =>
          obtain ⟨parts, xs, hparts, -, hlengths, rfl, hxs⟩ := nest_cons_eq_ok hlen h
          have hiff : List.Forall₂ (fun s x => p x ↔ ∀ y ∈ s, p y) parts xs :=
            List.forall₂_iff_get.2 ⟨hxs.length_eq, fun i hi hi' =>
              ih (hlengths _ (List.get_mem ..)) ((List.forall₂_iff_get.1 hxs).2 i hi hi')⟩
          rw [hp, forall_mem_iff_of_forall₂ hiff, ← hparts, List.forall_mem_flatten]

/-- What counts the arrays around a tree counts one for each level of the shape. -/
theorem measure_nest_le_iff {m : Json σ ν → ℕ} (hpos : ∀ xs, 0 < m (.arr xs))
    (hm : ∀ xs n, m (.arr xs) ≤ n + 1 ↔ ∀ x ∈ xs, m x ≤ n) (hlen : flat.length = shape.prod)
    (h : nest zero index shape flat = .ok v) {n : ℕ} :
    m v ≤ n ↔ shape.length ≤ n ∧ ∀ x ∈ flat, shape.length + m x ≤ n := by
  induction shape generalizing flat v n with
  | nil =>
      obtain ⟨x, rfl⟩ := List.length_eq_one_iff.1 hlen
      cases h
      simp
  | cons d shape ih =>
      cases n with
      | zero =>
          refine iff_of_false ?_ fun hle => absurd hle.1 (Nat.not_succ_le_zero _)
          have harr : ∃ xs, v = .arr xs := by
            cases shape with
            | nil => cases h; exact ⟨flat, rfl⟩
            | cons e rest =>
                obtain ⟨parts, xs, -, -, -, hv, -⟩ := nest_cons_eq_ok hlen h
                exact ⟨xs, hv⟩
          obtain ⟨xs, rfl⟩ := harr
          exact (hpos xs).not_ge
      | succ n =>
          cases shape with
          | nil =>
              cases h
              rw [hm]
              simp only [List.length_singleton, Nat.add_comm 1, Nat.succ_le_succ_iff, Nat.zero_le,
                true_and]
          | cons e rest =>
              obtain ⟨parts, xs, hparts, hcount, hlengths, rfl, hxs⟩ := nest_cons_eq_ok hlen h
              have hiff : List.Forall₂ (fun s x => m x ≤ n ↔
                  (e :: rest).length ≤ n ∧ ∀ y ∈ s, (e :: rest).length + m y ≤ n) parts xs :=
                List.forall₂_iff_get.2 ⟨hxs.length_eq, fun i hi hi' =>
                  ih (hlengths _ (List.get_mem ..)) ((List.forall₂_iff_get.1 hxs).2 i hi hi')⟩
              have hne : parts ≠ [] := by
                rintro rfl
                rw [← hcount, nest] at h
                cases h
              rw [hm, forall_mem_iff_of_forall₂ hiff, ← hparts, List.forall_mem_flatten]
              simp only [List.length_cons, Nat.succ_le_succ_iff, Nat.succ_add]
              constructor
              · intro hall
                obtain ⟨s, hs⟩ := List.exists_mem_of_ne_nil parts hne
                exact ⟨(hall s hs).1, fun s hs => (hall s hs).2⟩
              · exact fun hall s hs => ⟨hall.1, hall.2 s hs⟩

/-- Nesting does not look at the elements. -/
theorem nest_map {f : Json σ ν → Json σ ν} (hf : ∀ xs, f (.arr xs) = .arr (xs.map f))
    (hlen : flat.length = shape.prod) (h : nest zero index shape flat = .ok v) :
    nest zero index shape (flat.map f) = .ok (f v) := by
  induction shape generalizing flat v with
  | nil =>
      obtain ⟨x, rfl⟩ := List.length_eq_one_iff.1 hlen
      cases h
      rfl
  | cons d shape ih =>
      cases shape with
      | nil =>
          cases h
          rw [hf]
          rfl
      | cons e rest =>
          rw [nest] at h ⊢
          split at h
          · cases h
          · next hd =>
              obtain ⟨hdiv, hmul⟩ := div_extent hd hlen
              obtain ⟨xs, hxs, rfl⟩ := exists_of_map_eq_ok h
              rw [if_neg hd, List.length_map]
              rw [hdiv] at hxs ⊢
              have hslices : slices (e :: rest).prod d (flat.map f)
                  = (slices (e :: rest).prod d flat).map (List.map f) := by
                simp only [slices, List.map_map, Function.comp_def, List.map_take, List.map_drop]
              have hseq : sequence ((slices (e :: rest).prod d (flat.map f)).map
                  (nest zero index (e :: rest))) = .ok (xs.map f) := by
                refine sequence_eq_ok.2 ?_
                rw [hslices, List.forall₂_map_left_iff, List.forall₂_map_right_iff]
                refine List.forall₂_iff_get.2 ⟨(sequence_eq_ok.1 hxs).length_eq, fun i hi hi' => ?_⟩
                exact ih (length_of_mem_slices hmul (List.get_mem ..))
                  ((List.forall₂_iff_get.1 (sequence_eq_ok.1 hxs)).2 i hi hi')
              rw [hseq, hf]
              rfl

/-! ## Flattening -/

variable {mismatch : List ℕ → ε}

/-- The trees of a shape are flattened, and no others. -/
theorem flatten_isOk_iff : IsOk (flatten mismatch shape v) ↔ HasShape shape v := by
  induction shape generalizing v with
  | nil => exact iff_of_true trivial trivial
  | cons d rest ih =>
      cases v with
      | arr xs =>
          rw [flatten, HasShape]
          split
          · next hne => exact iff_of_false id fun h => hne h.1
          · next hlen =>
              split
              · next hrest =>
                  subst hrest
                  exact iff_of_true trivial ⟨not_not.1 hlen, fun _ _ => trivial⟩
              · rw [isOk_map, isOk_sequence, forall₂_congr fun x _ => ih (v := x)]
                exact ⟨fun h => ⟨not_not.1 hlen, h⟩, And.right⟩
      | _ => exact iff_of_false id id

/-- A tree of a shape has as many elements as the shape. -/
theorem length_of_flatten (h : flatten mismatch shape v = .ok flat) : flat.length = shape.prod := by
  induction shape generalizing v flat with
  | nil =>
      cases h
      rfl
  | cons d rest ih =>
      cases v with
      | arr xs =>
          rw [flatten] at h
          split at h
          · cases h
          · next hlen =>
              rw [not_not] at hlen
              split at h
              · next hrest =>
                  cases h
                  rw [hrest, List.prod_cons, List.prod_nil, mul_one, hlen]
              · obtain ⟨parts, hparts, rfl⟩ := exists_of_map_eq_ok h
                have hall := sequence_eq_ok.1 hparts
                have hlengths : parts.map List.length = List.replicate d rest.prod := by
                  refine List.eq_replicate_iff.2 ⟨by rw [List.length_map, ← hall.length_eq, hlen], ?_⟩
                  intro n hn
                  obtain ⟨part, hpart, rfl⟩ := List.mem_map.1 hn
                  obtain ⟨i, hi, rfl⟩ := List.get_of_mem hpart
                  have hi : i.val < xs.length := by
                    rw [hall.length_eq]
                    exact i.isLt
                  exact ih ((List.forall₂_iff_get.1 hall).2 i.val hi i.isLt)
                rw [List.length_flatten, hlengths, List.sum_replicate, List.prod_cons, smul_eq_mul]
      | _ => cases h

end Nest

end Json
