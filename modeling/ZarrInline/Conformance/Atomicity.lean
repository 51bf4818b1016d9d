import ZarrInline.Python.Store
import ZarrInline.TypeScript.Store

/-!
# Failed operations

An operation that fails should leave the document and the skipped keys as they were, the
order of the members included.  Every operation of the two stores does, but `delete`:
when the backing fails, the removed member is written back as a new one, at the end of
the document.  In JavaScript a key that spells an array index comes back in its place.
-/

namespace Conformance

open Transition (Event)

variable {β ε : Type}

/-- The document and the skipped keys are as before. -/
def Unchanged {κ V ο ρ : Type} [DecidableEq κ] {rank : κ → Option ℕ}
    (e : Event (Backed.Store rank V β) ο ρ) : Prop :=
  e.after.document = e.before.document ∧ e.after.skipped = e.before.skipped

/-! ## TypeScript -/

/-- The operation throws. -/
def TypeScriptFails : TypeScript.Reply ε → Prop
  | .failed _ => True
  | _ => False

/-- If the operation is a removal by a writable store, it can be taken back. -/
def TypeScriptRestores (B : TypeScript.Backing β ε) (s : TypeScript.Store β) : TypeScript.Op → Prop
  | .delete key => s.readOnly = false → s.RestoresErase B (TypeScript.docKey key)
  | _ => True

/-- A removal that fails leaves the document if and only if it can be taken back. -/
theorem typeScript_delete_iff (B : TypeScript.Backing β ε) (s : TypeScript.Store β)
    (key : TypeScript.JsString) :
    (∀ e, (TypeScript.Store.delete B s key).2 = .error e →
        (TypeScript.Store.delete B s key).1.document = s.document ∧
          (TypeScript.Store.delete B s key).1.skipped = s.skipped) ↔
      (s.readOnly = false → s.RestoresErase B (TypeScript.docKey key)) := by
  rw [← Backed.Store.commitErase_error_iff TypeScript.arrayIndex?_inj]
  unfold TypeScript.Store.delete
  cases s.readOnly with
  | true => simp
  | false =>
      cases s.commitErase B (TypeScript.docKey key) with
      | mk s' r => cases r <;> simp

/-- A step leaves the document when it fails if and only if it can be taken back. -/
theorem typeScript_step_iff (B : TypeScript.Backing β ε) (s : TypeScript.Store β)
    (op : TypeScript.Op) :
    (TypeScriptFails ((TypeScript.storeMachine B).step s op).2 →
        ((TypeScript.storeMachine B).step s op).1.document = s.document ∧
          ((TypeScript.storeMachine B).step s op).1.skipped = s.skipped) ↔
      TypeScriptRestores B s op := by
  have hset : ∀ key value, TypeScriptFails (TypeScript.Reply.ofUnit (s.setBytes B key value).2) →
      (s.setBytes B key value).1.document = s.document ∧
        (s.setBytes B key value).1.skipped = s.skipped := by
    intro key value hfail
    cases h : s.setBytes B key value with
    | mk s' r =>
        cases r with
        | ok u => rw [h] at hfail; exact hfail.elim
        | error e =>
            obtain ⟨hdoc, hskip, -⟩ := TypeScript.setBytes_error h
            exact ⟨hdoc, hskip⟩
  cases op with
  | get key =>
      refine iff_of_true (fun _ => ?_) trivial
      simp only [TypeScript.storeMachine]
      split <;> exact ⟨rfl, rfl⟩
  | has key => exact iff_of_true (fun _ => ⟨rfl, rfl⟩) trivial
  | list => exact iff_of_true (fun _ => ⟨rfl, rfl⟩) trivial
  | set key value => exact iff_of_true (hset key value) trivial
  | setJson key value =>
      refine iff_of_true ?_ trivial
      rcases TypeScript.setJson_cases B s key value with ⟨text, -, h⟩ | ⟨e, h, -⟩
      · simp only [TypeScript.storeMachine, h]
        exact hset key _
      · simp only [TypeScript.storeMachine, h]
        exact fun _ => ⟨trivial, trivial⟩
  | delete key =>
      rw [TypeScriptRestores, ← typeScript_delete_iff]
      simp only [TypeScript.storeMachine]
      cases (TypeScript.Store.delete B s key).2 with
      | ok u => simp [TypeScript.Reply.ofUnit, TypeScriptFails]
      | error e => simp [TypeScript.Reply.ofUnit, TypeScriptFails]

/-! ## Python -/

/-- The operation raises. -/
def PythonFails : Python.Reply ε → Prop
  | .failed _ => True
  | _ => False

/-- If the operation is a removal by a writable store, it can be taken back. -/
def PythonRestores (B : Python.Backing β ε) (s : Python.Store β) : Python.Op → Prop
  | .delete key => s.readOnly = false → s.RestoresErase B key
  | _ => True

/-- A removal that fails leaves the document if and only if it can be taken back. -/
theorem python_delete_iff (B : Python.Backing β ε) (s : Python.Store β) (key : Python.PyString) :
    (∀ e, (Python.Store.delete B s key).2 = .error e →
        (Python.Store.delete B s key).1.document = s.document ∧
          (Python.Store.delete B s key).1.skipped = s.skipped) ↔
      (s.readOnly = false → s.RestoresErase B key) := by
  have hinj : ∀ (a b : Python.PyString) n, Json.noRank a = some n → Json.noRank b = some n → a = b := by
    rintro a b n h
    cases h
  rw [← Backed.Store.commitErase_error_iff hinj]
  unfold Python.Store.delete
  cases s.readOnly with
  | true => simp
  | false =>
      cases s.commitErase B key with
      | mk s' r => cases r <;> simp

/-- A step leaves the document when it fails if and only if it can be taken back. -/
theorem python_step_iff (I : Python.Interpreter) (B : Python.Backing β ε) (s : Python.Store β)
    (op : Python.Op) :
    (PythonFails ((Python.storeMachine I B).step s op).2 →
        ((Python.storeMachine I B).step s op).1.document = s.document ∧
          ((Python.storeMachine I B).step s op).1.skipped = s.skipped) ↔ PythonRestores B s op := by
  have hset : ∀ key value, PythonFails (Python.Reply.ofUnit (Python.Store.setBytes I B s key value).2) →
      (Python.Store.setBytes I B s key value).1.document = s.document ∧
        (Python.Store.setBytes I B s key value).1.skipped = s.skipped := by
    intro key value hfail
    cases h : Python.Store.setBytes I B s key value with
    | mk s' r =>
        cases r with
        | ok u => rw [h] at hfail; exact hfail.elim
        | error e => exact Python.setBytes_error h
  cases op with
  | get key =>
      refine iff_of_true (fun _ => ?_) trivial
      simp only [Python.storeMachine]
      split <;> exact ⟨rfl, rfl⟩
  | «exists» key => exact iff_of_true (fun _ => ⟨rfl, rfl⟩) trivial
  | list => exact iff_of_true (fun _ => ⟨rfl, rfl⟩) trivial
  | set key value => exact iff_of_true (hset key value) trivial
  | setJson key value =>
      refine iff_of_true ?_ trivial
      rcases Python.setJson_cases I B s key value with ⟨data, h⟩ | ⟨e, h⟩
      · simp only [Python.storeMachine, h]
        exact hset key data
      · simp only [Python.storeMachine, h]
        exact fun _ => ⟨trivial, trivial⟩
  | delete key =>
      rw [PythonRestores, ← python_delete_iff]
      simp only [Python.storeMachine]
      cases (Python.Store.delete B s key).2 with
      | ok u => simp [Python.Reply.ofUnit, PythonFails]
      | error e => simp [Python.Reply.ofUnit, PythonFails]

/-! ## Runs -/

/-- In every run of either store, every operation that fails leaves the document and the
skipped keys as they were if and only if every removal in it can be taken back. -/
theorem failed_unchanged_iff (B : TypeScript.Backing β ε) (s : TypeScript.Store β)
    (ops : List TypeScript.Op) (I : Python.Interpreter) (B' : Python.Backing β ε)
    (s' : Python.Store β) (ops' : List Python.Op) :
    ((∀ e ∈ (TypeScript.storeMachine B).events s ops, TypeScriptFails e.reply → Unchanged e) ↔
        ∀ e ∈ (TypeScript.storeMachine B).events s ops, TypeScriptRestores B e.before e.op) ∧
      ((∀ e ∈ (Python.storeMachine I B').events s' ops', PythonFails e.reply → Unchanged e) ↔
        ∀ e ∈ (Python.storeMachine I B').events s' ops', PythonRestores B' e.before e.op) := by
  constructor
  · refine forall₂_congr fun e he => ?_
    obtain ⟨-, hstep⟩ := Transition.Machine.reachable_before he
    have h := typeScript_step_iff B e.before e.op
    rw [hstep] at h
    exact h
  · refine forall₂_congr fun e he => ?_
    obtain ⟨-, hstep⟩ := Transition.Machine.reachable_before he
    have h := python_step_iff I B' e.before e.op
    rw [hstep] at h
    exact h

/-- A backing that never persists. -/
def failingBacking {κ V : Type} [DecidableEq κ] (rank : κ → Option ℕ) :
    Backed.Backing rank V (Json.Members rank V) Unit where
  load := .ok
  persist := fun b _ => (b, .error ())

/-- Two empty arrays, at `a` and at `b`. -/
def twoArrays : TypeScript.Document :=
  .ofList [(TypeScript.js "a", .arr []), (TypeScript.js "b", .arr [])]

/-- A removal of the first of two members that fails moves the member to the end. -/
theorem failed_delete_moves_member :
    ∃ s, TypeScript.construct (failingBacking TypeScript.arrayIndex?) twoArrays {} = .ok s ∧
      s.document.keys = [TypeScript.js "a", TypeScript.js "b"] ∧
      ∃ e ∈ (TypeScript.storeMachine (failingBacking TypeScript.arrayIndex?)).events s
          [.delete (TypeScript.js "a")],
        TypeScriptFails e.reply ∧ e.after.document.keys = [TypeScript.js "b", TypeScript.js "a"] :=
  ⟨_, rfl, by decide, _, List.mem_singleton.2 rfl, trivial, by decide⟩

end Conformance
