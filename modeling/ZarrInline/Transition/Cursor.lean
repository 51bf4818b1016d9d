import ZarrInline.Transition.Machine

/-!
# Cursors over snapshots

A cursor is created with a request.  When it is first asked for an item it takes what it needs
from the state of a machine, and goes on with that.  So it gives the items that there were at
that moment, whatever the machine and other cursors do in between (`yields_replies`).
-/

namespace Transition

variable {σ ο ρ θ γ α : Type}

/-- How a cursor begins, and how it goes on. -/
structure Cursors (σ θ γ α : Type) where
  begin : σ → θ → γ
  next : γ → Option α × γ

/-- The items that a cursor gives. -/
def Cursors.Gives (G : Cursors σ θ γ α) (items : γ → List α) : Prop :=
  ∀ g, (G.next g).1 = (items g).head? ∧ items (G.next g).2 = (items g).tail

/-- A cursor, before it is first asked and after. -/
inductive Cursor (θ γ : Type) where
  | fresh (request : θ)
  | going (g : γ)

/-- What the cursor goes on with. -/
def Cursor.resume (G : Cursors σ θ γ α) (s : σ) : Cursor θ γ → γ
  | .fresh request => G.begin s request
  | .going g => g

/-- The operations of a machine and its cursors. -/
inductive CursorOp (ο θ : Type) where
  | run (op : ο)
  | create (request : θ)
  | next (i : ℕ)

/-- What they reply. -/
inductive CursorReply (ρ α : Type) where
  | ran (r : ρ)
  | created (i : ℕ)
  | item (x : Option α)
  | noCursor

/-- Ask a cursor for its next item. -/
def askCursor (G : Cursors σ θ γ α) (s : σ × List (Cursor θ γ)) (i : ℕ) :
    (σ × List (Cursor θ γ)) × CursorReply ρ α :=
  match s.2[i]? with
  | none => (s, .noCursor)
  | some c => ((s.1, s.2.set i (.going (G.next (c.resume G s.1)).2)), .item (G.next (c.resume G s.1)).1)

/-- A machine with cursors over its states. -/
def Machine.withCursors (m : Machine σ ο ρ) (G : Cursors σ θ γ α) :
    Machine (σ × List (Cursor θ γ)) (CursorOp ο θ) (CursorReply ρ α) where
  step := fun s op =>
    match op with
    | .run op => (((m.step s.1 op).1, s.2), .ran (m.step s.1 op).2)
    | .create request => ((s.1, s.2 ++ [.fresh request]), .created s.2.length)
    | .next i => askCursor G s i

/-- The operation asks the cursor. -/
def CursorOp.asks (i : ℕ) : CursorOp ο θ → Bool
  | .next j => decide (i = j)
  | _ => false

/-- The operations of the machine itself. -/
def CursorOp.ran? : CursorOp ο θ → Option ο
  | .run op => some op
  | _ => none

/-- The replies to the operations that ask the cursor. -/
def yields (i : ℕ) : List (CursorOp ο θ) → List (CursorReply ρ α) → List (CursorReply ρ α)
  | op :: ops, r :: rs => if op.asks i then r :: yields i ops rs else yields i ops rs
  | _, _ => []

/-- The replies of a cursor that is asked `n` times for these items. -/
def itemsInOrder (items : List α) (n : ℕ) : List (CursorReply ρ α) :=
  (List.range n).map fun k => .item items[k]?

section

variable {m : Machine σ ο ρ} {G : Cursors σ θ γ α} {items : γ → List α}
  {s : σ × List (Cursor θ γ)} {i : ℕ} {op : CursorOp ο θ} {ops : List (CursorOp ο θ)}

theorem itemsInOrder_succ (xs : List α) (n : ℕ) :
    (itemsInOrder xs (n + 1) : List (CursorReply ρ α)) = .item xs.head? :: itemsInOrder xs.tail n := by
  rw [itemsInOrder, List.range_succ_eq_map, List.map_cons, List.map_map, ← List.head?_eq_getElem?]
  refine congrArg _ (List.map_congr_left fun k _ => ?_)
  show CursorReply.item xs[k + 1]? = .item xs.tail[k]?
  rw [List.getElem?_tail]

/-- The cursors do not disturb the machine. -/
theorem exec_withCursors_fst (s : σ × List (Cursor θ γ)) (ops : List (CursorOp ο θ)) :
    ((m.withCursors G).exec s ops).1 = m.exec s.1 (ops.filterMap CursorOp.ran?) := by
  induction ops generalizing s with
  | nil => rfl
  | cons op ops ih =>
      show ((m.withCursors G).exec ((m.withCursors G).step s op).1 ops).1 = _
      rw [ih]
      cases op with
      | run op => rfl
      | create request => rfl
      | next j =>
          show m.exec (askCursor (ρ := ρ) G s j).1.1 _ = m.exec s.1 _
          rw [askCursor]
          split <;> rfl

/-- A cursor is as it was after an operation that does not ask it. -/
theorem getElem?_step {c : Cursor θ γ} (hop : op.asks i = false) (hc : s.2[i]? = some c) :
    ((m.withCursors G).step s op).1.2[i]? = some c := by
  cases op with
  | run op => exact hc
  | create request =>
      show (s.2 ++ [.fresh request])[i]? = some c
      rw [List.getElem?_append_left (List.getElem?_eq_some_iff.1 hc).1, hc]
  | next j =>
      have hne : j ≠ i := fun h => of_decide_eq_false hop h.symm
      show (askCursor (ρ := ρ) G s j).1.2[i]? = some c
      rw [askCursor]
      split
      · exact hc
      · rw [List.getElem?_set_ne hne, hc]

theorem step_next {c : Cursor θ γ} (hc : s.2[i]? = some c) :
    (m.withCursors G).step s (.next i) =
      ((s.1, s.2.set i (.going (G.next (c.resume G s.1)).2)), .item (G.next (c.resume G s.1)).1) := by
  show askCursor G s i = _
  rw [askCursor, hc]

/-- A cursor on its way gives its items, in order. -/
theorem yields_going (hG : G.Gives items) {g : γ} (hc : s.2[i]? = some (.going g)) :
    yields i ops ((m.withCursors G).replies s ops) = itemsInOrder (items g) (ops.countP (CursorOp.asks i)) := by
  induction ops generalizing s g with
  | nil => rfl
  | cons op ops ih =>
      rw [Machine.replies, yields, List.countP_cons]
      cases hop : op.asks i with
      | false => exact ih (getElem?_step hop hc)
      | true =>
          obtain rfl : op = .next i := by
            cases op with
            | next j => rw [of_decide_eq_true hop]
            | _ => cases hop
          obtain ⟨hhead, htail⟩ := hG g
          have hlt : i < s.2.length := (List.getElem?_eq_some_iff.1 hc).1
          rw [step_next hc, if_pos rfl, if_pos rfl, itemsInOrder_succ, ← hhead, ← htail]
          exact congrArg _ (ih (List.getElem?_set_self hlt))

/-- A cursor gives the items there were when it was first asked, in order. -/
theorem yields_replies (hG : G.Gives items) {request : θ} (hc : s.2[i]? = some (.fresh request))
    {before after : List (CursorOp ο θ)} (hbefore : ∀ op ∈ before, op.asks i = false) :
    yields i (before ++ .next i :: after) ((m.withCursors G).replies s (before ++ .next i :: after))
      = itemsInOrder (items (G.begin (m.exec s.1 (before.filterMap CursorOp.ran?)) request))
          (after.countP (CursorOp.asks i) + 1) := by
  induction before generalizing s with
  | nil =>
      obtain ⟨hhead, htail⟩ := hG (G.begin s.1 request)
      have hlt : i < s.2.length := (List.getElem?_eq_some_iff.1 hc).1
      have hasks : CursorOp.asks i (.next i : CursorOp ο θ) = true := decide_eq_true rfl
      rw [List.nil_append, Machine.replies, yields, step_next hc, if_pos hasks, itemsInOrder_succ]
      show _ = CursorReply.item (items (G.begin s.1 request)).head? ::
        itemsInOrder (items (G.begin s.1 request)).tail _
      rw [← hhead, ← htail]
      exact congrArg _ (yields_going hG (List.getElem?_set_self hlt))
  | cons op before ih =>
      obtain ⟨hop, hrest⟩ := List.forall_mem_cons.1 hbefore
      rw [List.cons_append, Machine.replies, yields, if_neg (by simp [hop]), ih (getElem?_step hop hc) hrest]
      have hstate := exec_withCursors_fst (m := m) (G := G) s (op :: before)
      rw [← hstate, ← exec_withCursors_fst (m := m) (G := G)]
      rfl

end

end Transition
