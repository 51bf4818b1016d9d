import ZarrInline.Python.Skipping
import ZarrInline.TypeScript.Skipping

/-!
# Skipped keys

A lenient store skips the keys at which its document has an issue.  In every state that a
run reaches these are exactly the skipped keys, whatever fails on the way.
-/

namespace Conformance

variable {β ε : Type}

/-- The skipped keys in every state that runs reach from a store: they are the keys with
an issue, each holds what it held in `document`, and they only become fewer. -/
structure SkipsIssues {κ V ο ρ : Type} [DecidableEq κ] {rank : κ → Option ℕ}
    (m : Transition.Machine (Backed.Store rank V β) ο ρ)
    (issueKeys : Json.Members rank V → List κ) (document : Json.Members rank V)
    (s : Backed.Store rank V β) : Prop where
  mem_iff : ∀ ops key, key ∈ (m.exec s ops).skipped ↔ key ∈ issueKeys (m.exec s ops).document
  kept : ∀ ops, ∀ key ∈ (m.exec s ops).skipped, (m.exec s ops).document.get key = document.get key
  shrinks : ∀ ops ops', (m.exec s (ops ++ ops')).skipped ⊆ (m.exec s ops).skipped

/-- Steps that keep the invariant of skipped names give runs that do. -/
theorem skipsIssues_of_step {κ V ο ρ : Type} [DecidableEq κ] {rank : κ → Option ℕ}
    {m : Transition.Machine (Backed.Store rank V β) ο ρ}
    {issueKeys : Json.Members rank V → List κ} {document : Json.Members rank V}
    {s : Backed.Store rank V β} {faulty : κ → V → Prop}
    (hissue : ∀ document key, key ∈ issueKeys document ↔
      ∃ value, document.get key = some value ∧ faulty key value)
    (hstep : ∀ (s : Backed.Store rank V β) op, s.Skips faulty document.get → s.Shrinks faulty document.get (m.step s op).1)
    (hs : s.Skips faulty document.get) : SkipsIssues m issueKeys document s := by
  have hrun : ∀ ops, (m.exec s ops).Skips faulty document.get := fun ops =>
    Transition.Machine.exec_induct (A := fun _ => True) (fun t op _ ht => (hstep t op ht).1)
      (fun _ _ => trivial) hs
  refine ⟨fun ops key => ?_, fun ops => (hrun ops).kept, fun ops ops' => ?_⟩
  · rw [(hrun ops).mem_iff, hissue]
  · rw [Transition.Machine.exec_append]
    have hshrink : ∀ t : Backed.Store rank V β, t.Skips faulty document.get →
        (m.exec t ops').skipped ⊆ t.skipped := by
      induction ops' with
      | nil => exact fun t _ => Finset.Subset.refl _
      | cons op ops' ih =>
          intro t ht
          obtain ⟨hnext, hsub⟩ := hstep t op ht
          exact (ih _ hnext).trans hsub
    exact hshrink _ (hrun ops)

/-! ## Runs -/

/-- A run from a store that skips nothing never skips anything. -/
theorem SkipsIssues.eq_empty {κ V ο ρ : Type} [DecidableEq κ] {rank : κ → Option ℕ}
    {m : Transition.Machine (Backed.Store rank V β) ο ρ}
    {issueKeys : Json.Members rank V → List κ} {document : Json.Members rank V}
    {s : Backed.Store rank V β} (h : SkipsIssues m issueKeys document s) (hs : s.skipped = ∅)
    (ops : List ο) : issueKeys (m.exec s ops).document = [] := by
  have hempty : (m.exec s ops).skipped = ∅ :=
    Finset.subset_empty.1 ((h.shrinks [] ops).trans hs.subset)
  refine List.eq_nil_iff_forall_not_mem.2 fun key hkey => ?_
  have hmem := (h.mem_iff ops key).2 hkey
  rw [hempty] at hmem
  exact absurd hmem (Finset.notMem_empty key)

/-- In every state of every run from a new store, the skipped keys are exactly those with
an issue; each still holds what it held at construction; and they only become fewer.  A
store that was built strictly, or over an empty document, holds a document without an
issue. -/
theorem skipped_iff_issue {β' ε' : Type} (B : TypeScript.Backing β ε) (b : β)
    (options : TypeScript.StoreOptions) (I : Python.Interpreter) (B' : Python.Backing β' ε') (b' : β')
    (readOnly strict : Bool) :
    (∀ s, TypeScript.construct B b options = .ok s →
        SkipsIssues (TypeScript.storeMachine B)
            (fun d => (TypeScript.validate d).map Rules.ValidationIssue.key) s.document s ∧
          (options.strict = true ∨ s.document = Json.Members.empty →
            ∀ ops, TypeScript.validate ((TypeScript.storeMachine B).exec s ops).document = [])) ∧
      ∀ s, Python.construct B' b' readOnly strict = .ok s →
        SkipsIssues (Python.storeMachine I B')
            (fun d => (Python.validate d).map Rules.ValidationIssue.key) s.document s ∧
          (strict = true ∨ s.document = Json.Members.empty →
            ∀ ops, Python.validate ((Python.storeMachine I B').exec s ops).document = []) := by
  constructor
  · intro s h
    obtain ⟨hskips, hstrict⟩ := TypeScript.construct_skips h
    have hrun := skipsIssues_of_step TypeScript.mem_issueKeys
      (fun _ op ht => TypeScript.step_shrinks (B := B) op ht) hskips
    refine ⟨hrun, fun hcase ops => ?_⟩
    have hempty : s.skipped = ∅ := by
      rcases hcase with hs | hdoc
      · exact hstrict hs
      · refine hskips.eq_empty_iff.2 fun key value hvalue => ?_
        rw [hdoc] at hvalue
        cases hvalue
    exact List.map_eq_nil_iff.1 (hrun.eq_empty hempty ops)
  · intro s h
    obtain ⟨hskips, hstrict⟩ := Python.construct_skips h
    have hrun := skipsIssues_of_step Python.mem_issueKeys
      (fun _ op ht => Python.step_shrinks (I := I) (B := B') op ht) hskips
    refine ⟨hrun, fun hcase ops => ?_⟩
    have hempty : s.skipped = ∅ := by
      rcases hcase with hs | hdoc
      · exact hstrict hs
      · refine hskips.eq_empty_iff.2 fun key value hvalue => ?_
        rw [hdoc] at hvalue
        cases hvalue
    exact List.map_eq_nil_iff.1 (hrun.eq_empty hempty ops)

/-- A document with a malformed key, in TypeScript. -/
def typeScriptMalformed : TypeScript.Document := .ofList [(TypeScript.js "/a", .arr [])]

/-- The same, in Python. -/
def pythonMalformed : Python.Document := .ofList [(Python.py "/a", .arr [])]

theorem skipped_iff_issue_malformed :
    (∃ s, TypeScript.construct TypeScript.memoryBacking typeScriptMalformed {} = .ok s ∧
        s.skipped = {TypeScript.js "/a"} ∧ SkipsIssues (TypeScript.storeMachine TypeScript.memoryBacking)
          (fun d => (TypeScript.validate d).map Rules.ValidationIssue.key) s.document s) ∧
      ∃ s, Python.construct Python.memoryBacking pythonMalformed false false = .ok s ∧
        s.skipped = {Python.py "/a"} ∧
          SkipsIssues (Python.storeMachine Python.cpython Python.memoryBacking)
            (fun d => (Python.validate d).map Rules.ValidationIssue.key) s.document s :=
  ⟨⟨_, rfl, by decide, ((skipped_iff_issue TypeScript.memoryBacking typeScriptMalformed {}
      Python.cpython Python.memoryBacking pythonMalformed false false).1 _ rfl).1⟩,
    ⟨_, rfl, by decide, ((skipped_iff_issue TypeScript.memoryBacking typeScriptMalformed {}
      Python.cpython Python.memoryBacking pythonMalformed false false).2 _ rfl).1⟩⟩

end Conformance
