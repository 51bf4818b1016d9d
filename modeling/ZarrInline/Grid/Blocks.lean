import ZarrInline.Grid.RowMajor

/-!
# Arrays in blocks

A shape whose extents are multiples of those of an inner shape is a grid of blocks.  A
coordinate is that of a block and one inside it (`blockOf`, `localOf`), and is put together
again by `place`.  So every number of an element belongs to one element of one block
(`existsUnique_offset`).

`scatter` writes values at numbers.  Where no number is written twice, the order of the writes
does not matter, and what was not written stays.  `assemble` writes the elements of some of the
blocks (`getElem?_assemble`).
-/

namespace Grid

/-! ## Blocks -/

/-- The extents of the blocks are positive and divide those of the whole. -/
def Divides (inner shape : List ℕ) : Prop := List.Forall₂ (fun n d => 0 < n ∧ d % n = 0) inner shape

instance (inner shape : List ℕ) : Decidable (Divides inner shape) :=
  inferInstanceAs (Decidable (List.Forall₂ _ _ _))

/-- The shape of the grid of blocks. -/
def gridOf (inner shape : List ℕ) : List ℕ := List.zipWith (· / ·) shape inner

/-- The block of a coordinate. -/
def blockOf (inner x : List ℕ) : List ℕ := List.zipWith (· / ·) x inner

/-- The coordinate inside the block. -/
def localOf (inner x : List ℕ) : List ℕ := List.zipWith (· % ·) x inner

/-- The coordinate of an element of a block. -/
def place : List ℕ → List ℕ → List ℕ → List ℕ
  | n :: inner, c :: block, l :: inside => (c * n + l) :: place inner block inside
  | _, _, _ => []

/-- The number, in the whole, of an element of a block. -/
def offset (inner shape : List ℕ) (block element : ℕ) : ℕ :=
  ravel shape (place inner (unravel (gridOf inner shape) block) (unravel inner element))

variable {inner shape x block inside : List ℕ}

section Place

variable (h : Divides inner shape)
include h

theorem within_place (hblock : Within (gridOf inner shape) block) (hinside : Within inner inside) :
    Within shape (place inner block inside) := by
  induction h generalizing block inside with
  | nil => exact within_nil.2 rfl
  | @cons n d inner shape hn hrest ih =>
      obtain ⟨c, block, rfl, hc, hblock⟩ := within_cons.1 hblock
      obtain ⟨l, inside, rfl, hl, hinside⟩ := within_cons.1 hinside
      refine within_cons.2 ⟨_, _, rfl, ?_, ih hblock hinside⟩
      calc c * n + l < (c + 1) * n := by rw [Nat.succ_mul]; omega
        _ ≤ d / n * n := Nat.mul_le_mul_right _ hc
        _ ≤ d := Nat.div_mul_le_self d n

theorem within_blockOf (hx : Within shape x) : Within (gridOf inner shape) (blockOf inner x) := by
  induction h generalizing x with
  | nil =>
      obtain rfl := within_nil.1 hx
      exact within_nil.2 rfl
  | @cons n d inner shape hn hrest ih =>
      obtain ⟨k, y, rfl, hk, hy⟩ := within_cons.1 hx
      refine within_cons.2 ⟨_, _, rfl, ?_, ih hy⟩
      rw [Nat.div_lt_iff_lt_mul hn.1, Nat.div_mul_cancel (Nat.dvd_of_mod_eq_zero hn.2)]
      exact hk

theorem within_localOf (hx : Within shape x) : Within inner (localOf inner x) := by
  induction h generalizing x with
  | nil =>
      obtain rfl := within_nil.1 hx
      exact within_nil.2 rfl
  | @cons n d inner shape hn hrest ih =>
      obtain ⟨k, y, rfl, hk, hy⟩ := within_cons.1 hx
      exact within_cons.2 ⟨_, _, rfl, Nat.mod_lt _ hn.1, ih hy⟩

/-- A coordinate is put together from its block and what is left. -/
theorem place_blockOf_localOf (hx : Within shape x) :
    place inner (blockOf inner x) (localOf inner x) = x := by
  induction h generalizing x with
  | nil => exact (within_nil.1 hx).symm
  | @cons n d inner shape hn hrest ih =>
      obtain ⟨k, y, rfl, hk, hy⟩ := within_cons.1 hx
      show (k / n * n + k % n) :: place inner (blockOf inner y) (localOf inner y) = k :: y
      rw [ih hy, Nat.div_add_mod']

theorem blockOf_place (hblock : Within (gridOf inner shape) block) (hinside : Within inner inside) :
    blockOf inner (place inner block inside) = block := by
  induction h generalizing block inside with
  | nil => exact (within_nil.1 hblock).symm
  | @cons n d inner shape hn hrest ih =>
      obtain ⟨c, block, rfl, hc, hblock⟩ := within_cons.1 hblock
      obtain ⟨l, inside, rfl, hl, hinside⟩ := within_cons.1 hinside
      show (c * n + l) / n :: blockOf inner (place inner block inside) = c :: block
      rw [ih hblock hinside, Nat.add_comm, Nat.add_mul_div_right _ _ hn.1, Nat.div_eq_of_lt hl,
        Nat.zero_add]

theorem localOf_place (hblock : Within (gridOf inner shape) block) (hinside : Within inner inside) :
    localOf inner (place inner block inside) = inside := by
  induction h generalizing block inside with
  | nil => exact (within_nil.1 hinside).symm
  | @cons n d inner shape hn hrest ih =>
      obtain ⟨c, block, rfl, hc, hblock⟩ := within_cons.1 hblock
      obtain ⟨l, inside, rfl, hl, hinside⟩ := within_cons.1 hinside
      show (c * n + l) % n :: localOf inner (place inner block inside) = l :: inside
      rw [ih hblock hinside, Nat.add_comm, Nat.add_mul_mod_self_right, Nat.mod_eq_of_lt hl]

variable {b e b' e' : ℕ}

theorem offset_lt (hb : b < (gridOf inner shape).prod) (he : e < inner.prod) :
    offset inner shape b e < shape.prod :=
  ravel_lt (within_place h (within_unravel hb) (within_unravel he))

/-- The element of a coordinate. -/
theorem offset_eq (hx : Within shape x) :
    offset inner shape (ravel (gridOf inner shape) (blockOf inner x)) (ravel inner (localOf inner x))
      = ravel shape x := by
  rw [offset, unravel_ravel (within_blockOf h hx), unravel_ravel (within_localOf h hx),
    place_blockOf_localOf h hx]

/-- Different elements have different numbers. -/
theorem offset_inj (hb : b < (gridOf inner shape).prod) (he : e < inner.prod)
    (hb' : b' < (gridOf inner shape).prod) (he' : e' < inner.prod)
    (heq : offset inner shape b e = offset inner shape b' e') : b = b' ∧ e = e' := by
  have hplace : place inner (unravel (gridOf inner shape) b) (unravel inner e)
      = place inner (unravel (gridOf inner shape) b') (unravel inner e') := by
    have := congrArg (unravel shape) heq
    rwa [offset, offset, unravel_ravel (within_place h (within_unravel hb) (within_unravel he)),
      unravel_ravel (within_place h (within_unravel hb') (within_unravel he'))] at this
  constructor
  · have hblock := congrArg (blockOf inner) hplace
    rw [blockOf_place h (within_unravel hb) (within_unravel he),
      blockOf_place h (within_unravel hb') (within_unravel he')] at hblock
    rw [← ravel_unravel hb, hblock, ravel_unravel hb']
  · have hlocal := congrArg (localOf inner) hplace
    rw [localOf_place h (within_unravel hb) (within_unravel he),
      localOf_place h (within_unravel hb') (within_unravel he')] at hlocal
    rw [← ravel_unravel he, hlocal, ravel_unravel he']

/-- The blocks take up the whole. -/
theorem prod_gridOf : (gridOf inner shape).prod * inner.prod = shape.prod := by
  induction h with
  | nil => rfl
  | @cons n d inner shape hn hrest ih =>
      show (d / n :: gridOf inner shape).prod * (n :: inner).prod = (d :: shape).prod
      calc (d / n :: gridOf inner shape).prod * (n :: inner).prod
          = (d / n * n) * ((gridOf inner shape).prod * inner.prod) := by
            rw [List.prod_cons, List.prod_cons]
            ring
        _ = (d :: shape).prod := by
            rw [ih, Nat.div_mul_cancel (Nat.dvd_of_mod_eq_zero hn.2), List.prod_cons]

theorem prod_inner_pos : 0 < inner.prod := by
  induction h with
  | nil => exact Nat.one_pos
  | cons hn hrest ih =>
      rw [List.prod_cons]
      exact Nat.mul_pos hn.1 ih

/-- Every number of an element belongs to one element of one block. -/
theorem existsUnique_offset {p : ℕ} (hp : p < shape.prod) :
    ∃! be : ℕ × ℕ, be.1 < (gridOf inner shape).prod ∧ be.2 < inner.prod ∧
      offset inner shape be.1 be.2 = p := by
  have hx := within_unravel hp
  refine ⟨(_, _), ⟨ravel_lt (within_blockOf h hx), ravel_lt (within_localOf h hx),
    (offset_eq h hx).trans (ravel_unravel hp)⟩, ?_⟩
  rintro ⟨b, e⟩ ⟨hb, he, heq⟩
  obtain ⟨rfl, rfl⟩ := offset_inj h hb he (ravel_lt (within_blockOf h hx))
    (ravel_lt (within_localOf h hx)) (heq.trans ((offset_eq h hx).trans (ravel_unravel hp)).symm)
  rfl

end Place

/-! ## Writes -/

section Scatter

variable {α : Type} {ws : List (ℕ × α)} {out : List α} {p : ℕ}

/-- Write values at numbers, one after the other. -/
def scatter (ws : List (ℕ × α)) (out : List α) : List α :=
  ws.foldl (fun out w => out.set w.1 w.2) out

@[simp] theorem scatter_nil : scatter [] out = out := rfl

theorem scatter_append (vs ws : List (ℕ × α)) (out : List α) :
    scatter (vs ++ ws) out = scatter ws (scatter vs out) := List.foldl_append ..

@[simp] theorem length_scatter : (scatter ws out).length = out.length := by
  induction ws generalizing out with
  | nil => rfl
  | cons w ws ih =>
      have hset : (scatter ws (out.set w.1 w.2)).length = (out.set w.1 w.2).length := ih
      exact hset.trans (List.length_set ..)

/-- What is not written stays. -/
theorem getElem?_scatter_of_notMem (hp : p ∉ ws.map Prod.fst) : (scatter ws out)[p]? = out[p]? := by
  induction ws generalizing out with
  | nil => rfl
  | cons w ws ih =>
      rw [List.map_cons, List.mem_cons, not_or] at hp
      obtain ⟨hne, hws⟩ := hp
      have hset : (scatter ws (out.set w.1 w.2))[p]? = (out.set w.1 w.2)[p]? := ih hws
      exact hset.trans (List.getElem?_set_ne (Ne.symm hne))

/-- What is written once is there. -/
theorem getElem?_scatter (hnodup : (ws.map Prod.fst).Nodup) {v : α} (hmem : (p, v) ∈ ws)
    (hp : p < out.length) : (scatter ws out)[p]? = some v := by
  induction ws generalizing out with
  | nil => cases hmem
  | cons w ws ih =>
      obtain ⟨hw, hws⟩ := List.nodup_cons.1 hnodup
      have hlen : p < (out.set w.1 w.2).length := by rwa [List.length_set]
      rcases List.mem_cons.1 hmem with rfl | hmem
      · have hset : (scatter ws (out.set p v))[p]? = (out.set p v)[p]? := getElem?_scatter_of_notMem hw
        exact hset.trans (List.getElem?_set_self hp)
      · exact ih hws hmem hlen

/-- One list of writes after the other. -/
theorem foldl_scatter {ι : Type} {is : List ι} {ws : ι → List (ℕ × α)} :
    is.foldl (fun out i => scatter (ws i) out) out = scatter (is.flatMap ws) out := by
  induction is generalizing out with
  | nil => rfl
  | cons i is ih => rw [List.foldl_cons, ih, List.flatMap_cons, scatter_append]

end Scatter

/-! ## Blocks that are written -/

section Assemble

variable {α : Type} {elements : List α} {b p : ℕ} {v : α}

/-- The writes of the elements of a block. -/
def blockWrites (inner shape : List ℕ) (b : ℕ) (elements : List α) : List (ℕ × α) :=
  elements.zipIdx.map fun e => (offset inner shape b e.2, e.1)

theorem map_fst_blockWrites : (blockWrites inner shape b elements).map Prod.fst
    = (List.range elements.length).map (offset inner shape b) := by
  rw [blockWrites, List.map_map, List.range_eq_range', ← List.zipIdx_map_snd 0 elements, List.map_map]
  rfl

theorem mem_blockWrites : (p, v) ∈ blockWrites inner shape b elements ↔
    ∃ e, elements[e]? = some v ∧ offset inner shape b e = p := by
  simp only [blockWrites, List.mem_map, Prod.exists, Prod.mk.injEq, List.mem_zipIdx_iff_getElem?]
  constructor
  · rintro ⟨_, e, he, rfl, rfl⟩
    exact ⟨e, he, rfl⟩
  · rintro ⟨e, he, rfl⟩
    exact ⟨v, e, he, rfl, rfl⟩

/-- Write the elements of the blocks that are there. -/
def assemble (inner shape : List ℕ) (blocks : ℕ → Option (List α)) (out : List α) : List α :=
  scatter ((List.range (gridOf inner shape).prod).flatMap fun b =>
    blockWrites inner shape b ((blocks b).getD [])) out

@[simp] theorem length_assemble {blocks : ℕ → Option (List α)} {out : List α} :
    (assemble inner shape blocks out).length = out.length := length_scatter

variable {blocks : ℕ → Option (List α)} {out : List α}

/-- No number is written twice. -/
theorem nodup_assemble (h : Divides inner shape)
    (hlength : ∀ b < (gridOf inner shape).prod, ((blocks b).getD []).length ≤ inner.prod) :
    (((List.range (gridOf inner shape).prod).flatMap fun b =>
      blockWrites inner shape b ((blocks b).getD [])).map Prod.fst).Nodup := by
  rw [List.map_flatMap]
  simp only [map_fst_blockWrites]
  rw [List.nodup_flatMap]
  have hlt : ∀ b < (gridOf inner shape).prod, ∀ e ∈ List.range ((blocks b).getD []).length,
      e < inner.prod := fun b hb e he => (List.mem_range.1 he).trans_le (hlength b hb)
  constructor
  · intro b hb
    have hb := List.mem_range.1 hb
    refine List.Nodup.map_on (fun e he e' he' heq => ?_) List.nodup_range
    exact (offset_inj h hb (hlt b hb e he) hb (hlt b hb e' he') heq).2
  · refine List.Pairwise.imp_of_mem (fun hb hb' hne => ?_) List.nodup_range
    have hb := List.mem_range.1 hb
    have hb' := List.mem_range.1 hb'
    intro p hp hp'
    obtain ⟨e, he, rfl⟩ := List.mem_map.1 hp
    obtain ⟨e', he', heq⟩ := List.mem_map.1 hp'
    exact hne (offset_inj h hb (hlt _ hb e he) hb' (hlt _ hb' e' he') heq.symm).1

/-- The element of a coordinate is that of its block, or what was there. -/
theorem getElem?_assemble (h : Divides inner shape)
    (hlength : ∀ b < (gridOf inner shape).prod, ∀ es ∈ blocks b, es.length = inner.prod)
    (hout : out.length = shape.prod) (hx : Within shape x) :
    (assemble inner shape blocks out)[ravel shape x]? =
      match blocks (ravel (gridOf inner shape) (blockOf inner x)) with
      | none => out[ravel shape x]?
      | some es => es[ravel inner (localOf inner x)]? := by
  have hle : ∀ b < (gridOf inner shape).prod, ((blocks b).getD []).length ≤ inner.prod := by
    intro b hb
    cases hes : blocks b with
    | none => exact Nat.zero_le _
    | some es => exact (hlength b hb es hes).le
  have hb := ravel_lt (within_blockOf h hx)
  have he := ravel_lt (within_localOf h hx)
  cases hes : blocks (ravel (gridOf inner shape) (blockOf inner x)) with
  | none =>
      refine getElem?_scatter_of_notMem fun hmem => ?_
      obtain ⟨⟨p, v⟩, hmem, rfl⟩ := List.mem_map.1 hmem
      obtain ⟨b', hb', hmem⟩ := List.mem_flatMap.1 hmem
      obtain ⟨e', he', heq⟩ := mem_blockWrites.1 hmem
      have he'lt : e' < inner.prod :=
        ((List.getElem?_eq_some_iff.1 he').1).trans_le (hle b' (List.mem_range.1 hb'))
      obtain ⟨rfl, -⟩ := offset_inj h (List.mem_range.1 hb') he'lt hb he (heq.trans (offset_eq h hx).symm)
      rw [hes] at he'
      cases he'
  | some es =>
      have hlt : ravel inner (localOf inner x) < es.length := by rwa [hlength _ hb es hes]
      show _ = es[ravel inner (localOf inner x)]?
      rw [List.getElem?_eq_getElem hlt]
      refine getElem?_scatter (nodup_assemble h hle) (List.mem_flatMap.2 ⟨_, List.mem_range.2 hb, ?_⟩)
        (by rw [hout]; exact ravel_lt hx)
      rw [hes]
      exact mem_blockWrites.2 ⟨_, List.getElem?_eq_getElem hlt, offset_eq h hx⟩

end Assemble

end Grid
