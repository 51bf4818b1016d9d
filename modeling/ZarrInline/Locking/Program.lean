import ZarrInline.Transition.Machine

/-!
# Programs under two locks

A program works on two resources, each behind a readers-writer lock, one instruction at a
time.  `alone` runs it with nothing else going on.  In a `System` any number of programs run
at once, and the scheduler may let any of them take the next step; a step that asks for a lock
that another holds is no step.

`Follows` is the discipline of the two locks: the outer lock is held through one section, the
inner one only inside it, the resources are touched under their locks, and changed under a
write lock, the inner one only when the outer lock is held for writing.

A run has a history of labels: the call of an operation, its return, and the moment at which
it takes effect, which is when it gives back the outer lock or, if it never takes it, when it
returns.  The history is linearizable (`Linearizes`) if the operations could have run one at a
time, each between its call and its return.
-/

namespace Locking

variable {α β ο ρ : Type}

/-- How a lock is held. -/
inductive Access where
  | read
  | write
deriving DecidableEq

/-- A program over an outer and an inner resource. -/
inductive Program (α β ρ : Type) where
  | lockOuter (access : Access) (next : Program α β ρ)
  | unlockOuter (next : Program α β ρ)
  | lockInner (access : Access) (next : Program α β ρ)
  | unlockInner (next : Program α β ρ)
  | readOuter (next : α → Program α β ρ)
  | writeOuter (f : α → α) (next : Program α β ρ)
  | readInner (next : β → Program α β ρ)
  | writeInner (f : β → β) (next : Program α β ρ)
  | done (reply : ρ)

namespace Program

/-- The program run with nothing else going on. -/
def alone : Program α β ρ → α × β → (α × β) × ρ
  | .lockOuter _ next, s => next.alone s
  | .unlockOuter next, s => next.alone s
  | .lockInner _ next, s => next.alone s
  | .unlockInner next, s => next.alone s
  | .readOuter next, s => (next s.1).alone s
  | .writeOuter f next, s => next.alone (f s.1, s.2)
  | .readInner next, s => (next s.2).alone s
  | .writeInner f next, s => next.alone (s.1, f s.2)
  | .done reply, s => (s, reply)

end Program

/-- Where a program is: before its section, inside it with the locks it holds, after it, or
returned. -/
inductive Phase where
  | outside
  | inside (outer : Access) (inner : Option Access)
  | after
  | returned
deriving DecidableEq

/-- The lock discipline, for the rest of a program from a phase on. -/
def Program.Follows : Program α β ρ → Phase → Prop
  | .lockOuter a next, .outside => next.Follows (.inside a none)
  | .unlockOuter next, .inside _ none => next.Follows .after
  | .lockInner b next, .inside a none => (b = .write → a = .write) ∧ next.Follows (.inside a (some b))
  | .unlockInner next, .inside a (some _) => next.Follows (.inside a none)
  | .readOuter next, .inside a i => ∀ x, (next x).Follows (.inside a i)
  | .writeOuter _ next, .inside .write i => next.Follows (.inside .write i)
  | .readInner next, .inside a (some b) => ∀ y, (next y).Follows (.inside a (some b))
  | .writeInner _ next, .inside .write (some .write) => next.Follows (.inside .write (some .write))
  | .done _, .outside => True
  | .done _, .after => True
  | .done _, .returned => True
  | _, _ => False

/-! ## Systems -/

/-- An operation under way. -/
structure Task (α β ο ρ : Type) where
  op : ο
  phase : Phase
  program : Program α β ρ

/-- The hold a task has on the outer lock. -/
def Task.holdsOuter (t : Task α β ο ρ) : Option Access :=
  match t.phase with
  | .inside a _ => some a
  | _ => none

/-- The hold a task has on the inner lock. -/
def Task.holdsInner (t : Task α β ο ρ) : Option Access :=
  match t.phase with
  | .inside _ i => i
  | _ => none

/-- The hold on the inner lock changes. -/
def Phase.withInner : Phase → Option Access → Phase
  | .inside a _, i => .inside a i
  | phase, _ => phase

/-- The resources, and the operations that were called. -/
structure System (α β ο ρ : Type) where
  shared : α × β
  tasks : List (Task α β ο ρ)

/-- A lock may be given: to a reader if nobody holds it for writing, to a writer if nobody
holds it. -/
def Free (holds : Task α β ο ρ → Option Access) (tasks : List (Task α β ο ρ)) : Access → Prop
  | .read => ∀ t ∈ tasks, holds t ≠ some .write
  | .write => ∀ t ∈ tasks, holds t = none

instance (holds : Task α β ο ρ → Option Access) (tasks : List (Task α β ο ρ)) :
    DecidablePred (Free holds tasks)
  | .read => inferInstanceAs (Decidable (∀ t ∈ tasks, holds t ≠ some .write))
  | .write => inferInstanceAs (Decidable (∀ t ∈ tasks, holds t = none))

/-- What is seen of a run. -/
inductive Label (ο ρ : Type) where
  | called (id : ℕ) (op : ο)
  | effect (id : ℕ) (op : ο) (reply : ρ)
  | returned (id : ℕ) (reply : ρ)

/-- Giving back the outer lock takes effect, if only the return is left. -/
def effectOf (id : ℕ) (op : ο) : Program α β ρ → List (Label ο ρ)
  | .done reply => [.effect id op reply]
  | _ => []

/-- The next step of a task, if it can take one. -/
def System.move (s : System α β ο ρ) (id : ℕ) (t : Task α β ο ρ) :
    Option ((α × β) × Task α β ο ρ × List (Label ο ρ)) :=
  match t.program with
  | .lockOuter a next =>
      if Free Task.holdsOuter s.tasks a then some (s.shared, ⟨t.op, .inside a none, next⟩, [])
      else none
  | .unlockOuter next => some (s.shared, ⟨t.op, .after, next⟩, effectOf id t.op next)
  | .lockInner b next =>
      if Free Task.holdsInner s.tasks b then
        some (s.shared, ⟨t.op, t.phase.withInner (some b), next⟩, [])
      else none
  | .unlockInner next => some (s.shared, ⟨t.op, t.phase.withInner none, next⟩, [])
  | .readOuter next => some (s.shared, ⟨t.op, t.phase, next s.shared.1⟩, [])
  | .writeOuter f next => some ((f s.shared.1, s.shared.2), ⟨t.op, t.phase, next⟩, [])
  | .readInner next => some (s.shared, ⟨t.op, t.phase, next s.shared.2⟩, [])
  | .writeInner f next => some ((s.shared.1, f s.shared.2), ⟨t.op, t.phase, next⟩, [])
  | .done reply =>
      match t.phase with
      | .returned => none
      | .outside =>
          some (s.shared, ⟨t.op, .returned, .done reply⟩,
            [.effect id t.op reply, .returned id reply])
      | _ => some (s.shared, ⟨t.op, .returned, .done reply⟩, [.returned id reply])

theorem System.move_lockOuter {s : System α β ο ρ} {id : ℕ} {op : ο} {phase : Phase} {a : Access}
    {next : Program α β ρ} : s.move id ⟨op, phase, .lockOuter a next⟩
      = if Free Task.holdsOuter s.tasks a then some (s.shared, ⟨op, .inside a none, next⟩, [])
        else none := rfl

theorem System.move_lockInner {s : System α β ο ρ} {id : ℕ} {op : ο} {phase : Phase} {b : Access}
    {next : Program α β ρ} : s.move id ⟨op, phase, .lockInner b next⟩
      = if Free Task.holdsInner s.tasks b then some (s.shared, ⟨op, phase.withInner (some b), next⟩, [])
        else none := rfl

/-- What a scheduler may do: call an operation, or let one take its next step. -/
inductive Action (ο : Type) where
  | call (op : ο)
  | step (id : ℕ)

/-- The system as a machine. -/
def machine (program : ο → Program α β ρ) :
    Transition.Machine (System α β ο ρ) (Action ο) (List (Label ο ρ)) where
  step := fun s action =>
    match action with
    | .call op =>
        ({ s with tasks := s.tasks ++ [⟨op, .outside, program op⟩] }, [.called s.tasks.length op])
    | .step id =>
        match s.tasks[id]? with
        | none => (s, [])
        | some t =>
            match s.move id t with
            | none => (s, [])
            | some (shared, t', labels) => (⟨shared, s.tasks.set id t'⟩, labels)

/-- A system in which nothing was called. -/
def System.initial (shared : α × β) : System α β ο ρ := ⟨shared, []⟩

/-- The history of a run. -/
def history (program : ο → Program α β ρ) (shared : α × β) (actions : List (Action ο)) :
    List (Label ο ρ) :=
  ((machine program).replies (.initial shared) actions).flatten

/-- An operation that took effect. -/
structure Entry (ο ρ : Type) where
  id : ℕ
  op : ο
  reply : ρ

/-- The operations that took effect, in order. -/
def effects : List (Label ο ρ) → List (Entry ο ρ)
  | [] => []
  | .effect id op reply :: labels => ⟨id, op, reply⟩ :: effects labels
  | _ :: labels => effects labels

@[simp] theorem effects_append (h l : List (Label ο ρ)) : effects (h ++ l) = effects h ++ effects l := by
  induction h with
  | nil => rfl
  | cons label h ih => cases label <;> simp [effects, ih]

/-- One operation at a time. -/
def aloneMachine (program : ο → Program α β ρ) : Transition.Machine (α × β) ο ρ where
  step := fun s op => (program op).alone s

/-- The resources after the operations that took effect, one at a time. -/
def sequential (program : ο → Program α β ρ) (shared : α × β) (h : List (Label ο ρ)) : α × β :=
  (aloneMachine program).exec shared ((effects h).map Entry.op)

theorem sequential_effect {program : ο → Program α β ρ} {shared : α × β} {h : List (Label ο ρ)}
    {id : ℕ} {op : ο} {reply : ρ} :
    sequential program shared (h ++ [.effect id op reply])
      = ((program op).alone (sequential program shared h)).1 := by
  rw [sequential, effects_append, List.map_append, Transition.Machine.exec_append]
  rfl

/-- The operations could have run in an order, one at a time: those that returned are in it with
their replies, those in it were called, and one that returned before another was called comes
before it. -/
structure Linearizes {σ : Type} (m : Transition.Machine σ ο ρ) (s : σ) (h : List (Label ο ρ))
    (order : List (Entry ο ρ)) : Prop where
  nodup : (order.map Entry.id).Nodup
  called : ∀ e ∈ order, .called e.id e.op ∈ h
  returned : ∀ id reply, .returned id reply ∈ h → ∃ op, ⟨id, op, reply⟩ ∈ order
  legal : m.replies s (order.map Entry.op) = order.map Entry.reply
  realTime : ∀ h₁ h₂, h = h₁ ++ h₂ → ∀ i j reply op, .returned i reply ∈ h₁ → .called j op ∈ h₂ →
    j ∈ order.map Entry.id → [i, j].Sublist (order.map Entry.id)

end Locking
