import Mathlib

/-!
# Machines, runs and refinement

A machine takes one operation at a time, moves to a next state and gives a reply.
Whatever is shown about one step is carried to whole runs here and nowhere else:
invariants (`exec_induct`, `forall_events`), refinement of a specification given as a
relation on abstract states (`refines`), and equality of the replies of two machines
(`replies_eq`).
-/

namespace Transition

variable {σ τ α ο ρ : Type}

/-- A machine that replies to operations. -/
structure Machine (σ ο ρ : Type) where
  step : σ → ο → σ × ρ

/-- One step of a run. -/
structure Event (σ ο ρ : Type) where
  before : σ
  op : ο
  after : σ
  reply : ρ

namespace Machine

variable (m : Machine σ ο ρ)

/-- The state after a sequence of operations. -/
def exec : σ → List ο → σ
  | s, [] => s
  | s, o :: os => exec (m.step s o).1 os

/-- The replies to a sequence of operations. -/
def replies : σ → List ο → List ρ
  | _, [] => []
  | s, o :: os => (m.step s o).2 :: replies (m.step s o).1 os

/-- The steps of a run. -/
def events : σ → List ο → List (Event σ ο ρ)
  | _, [] => []
  | s, o :: os => ⟨s, o, (m.step s o).1, (m.step s o).2⟩ :: events (m.step s o).1 os

/-- The states that some run reaches. -/
def Reachable (s t : σ) : Prop := ∃ os, m.exec s os = t

variable {m}

theorem exec_append (s : σ) (os ps : List ο) :
    m.exec s (os ++ ps) = m.exec (m.exec s os) ps := by
  induction os generalizing s with
  | nil => rfl
  | cons o os ih => exact ih _

theorem replies_append_singleton (s : σ) (os : List ο) (o : ο) :
    m.replies s (os ++ [o]) = m.replies s os ++ [(m.step (m.exec s os) o).2] := by
  induction os generalizing s with
  | nil => rfl
  | cons p os ih => exact congrArg (_ :: ·) (ih _)

/-- What one step preserves, a run preserves.  The operations of the run may be
restricted. -/
theorem exec_induct {P : σ → Prop} {A : ο → Prop} (hstep : ∀ s o, A o → P s → P (m.step s o).1)
    {s : σ} {os : List ο} (hos : ∀ o ∈ os, A o) (hs : P s) : P (m.exec s os) := by
  induction os generalizing s with
  | nil => exact hs
  | cons o os ih =>
      exact ih (fun p hp => hos p (by simp [hp])) (hstep s o (hos o (by simp)) hs)

/-- Under an invariant that the steps of a run of some kind keep, what holds of every step of
that kind from a state of the invariant holds of every step of the run. -/
theorem forall_events_of {P : σ → Prop} {A Q : Event σ ο ρ → Prop}
    (hstep : ∀ s o, P s → A ⟨s, o, (m.step s o).1, (m.step s o).2⟩ → P (m.step s o).1)
    (hQ : ∀ s o, P s → A ⟨s, o, (m.step s o).1, (m.step s o).2⟩ →
      Q ⟨s, o, (m.step s o).1, (m.step s o).2⟩) {s : σ} {os : List ο}
    (hA : ∀ e ∈ m.events s os, A e) (hs : P s) : ∀ e ∈ m.events s os, Q e := by
  induction os generalizing s with
  | nil => simp [events]
  | cons o os ih =>
      obtain ⟨hfirst, hrest⟩ := List.forall_mem_cons.1 hA
      exact List.forall_mem_cons.2 ⟨hQ s o hs hfirst, ih hrest (hstep s o hs hfirst)⟩

/-- Under an invariant, what holds of every step from a state of the invariant holds of
every step of a run. -/
theorem forall_events {P : σ → Prop} {Q : Event σ ο ρ → Prop}
    (hstep : ∀ s o, P s → P (m.step s o).1)
    (hQ : ∀ s o, P s → Q ⟨s, o, (m.step s o).1, (m.step s o).2⟩) {s : σ} {os : List ο} (hs : P s) :
    ∀ e ∈ m.events s os, Q e :=
  forall_events_of (A := fun _ => True) (fun s o hs _ => hstep s o hs) (fun s o hs _ => hQ s o hs)
    (fun _ _ => trivial) hs

/-- Every state of a run is reachable. -/
theorem reachable_before {s : σ} {os : List ο} {e : Event σ ο ρ} (he : e ∈ m.events s os) :
    m.Reachable s e.before ∧ m.step e.before e.op = (e.after, e.reply) := by
  induction os generalizing s with
  | nil => cases he
  | cons o os ih =>
      rcases List.mem_cons.1 he with rfl | he
      · exact ⟨⟨[], rfl⟩, rfl⟩
      · obtain ⟨⟨ps, hps⟩, hstep⟩ := ih he
        exact ⟨⟨o :: ps, hps⟩, hstep⟩

/-- Machines whose related states reply alike and stay related give the same replies to a
run. -/
theorem replies_eq {m' : Machine τ ο ρ} {R : σ → τ → Prop} {A : ο → Prop}
    (hstep : ∀ s t o, A o → R s t →
      (m.step s o).2 = (m'.step t o).2 ∧ R (m.step s o).1 (m'.step t o).1)
    {s : σ} {t : τ} {os : List ο} (hos : ∀ o ∈ os, A o) (h : R s t) :
    m.replies s os = m'.replies t os := by
  induction os generalizing s t with
  | nil => rfl
  | cons o os ih =>
      obtain ⟨hreply, hnext⟩ := hstep s t o (hos o (by simp)) h
      rw [replies, replies, hreply, ih (fun p hp => hos p (by simp [hp])) hnext]

/-- Machines whose related states stay related end a run in related states. -/
theorem exec_rel {m' : Machine τ ο ρ} {R : σ → τ → Prop}
    (hstep : ∀ s t o, R s t → R (m.step s o).1 (m'.step t o).1) {s : σ} {t : τ} (os : List ο)
    (h : R s t) : R (m.exec s os) (m'.exec t os) := by
  induction os generalizing s t with
  | nil => exact h
  | cons o os ih => exact ih (hstep s t o h)

end Machine

/-! ## Specifications -/

/-- A specification: the abstract states an operation may lead to under a reply. -/
abbrev Spec (α ο ρ : Type) := α → ο → ρ → α → Prop

/-- A run that a specification allows. -/
inductive Spec.Run (spec : Spec α ο ρ) : α → List ο → List ρ → α → Prop
  | nil (a : α) : Run spec a [] [] a
  | cons {a b c : α} {o : ο} {r : ρ} {os : List ο} {rs : List ρ} (hstep : spec a o r b)
      (hrun : Run spec b os rs c) : Run spec a (o :: os) (r :: rs) c

/-- A machine whose steps the specification allows has only runs it allows. -/
theorem Machine.refines {m : Machine σ ο ρ} {spec : Spec α ο ρ} {abs : σ → α} {P : σ → Prop}
    (hinv : ∀ s o, P s → P (m.step s o).1)
    (hstep : ∀ s o, P s → spec (abs s) o (m.step s o).2 (abs (m.step s o).1)) {s : σ} (hs : P s)
    (os : List ο) : spec.Run (abs s) os (m.replies s os) (abs (m.exec s os)) := by
  induction os generalizing s with
  | nil => exact .nil _
  | cons o os ih => exact .cons (hstep s o hs) (ih (hinv s o hs))

end Transition
