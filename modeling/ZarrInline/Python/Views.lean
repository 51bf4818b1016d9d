import ZarrInline.Python.Refinement
import ZarrInline.Transition.Cursor

/-!
# Views and iterators over a Python store

`with_read_only` gives another store over the same backing, with the document and the skipped
keys of the first one and a lock of its own.  No call waits while it holds a lock, so the calls
of all these views run one at a time, and together they are one map (`views_refine_map`).

The calls that list keys return iterators.  Between two names of an iterator anything may happen
to the document, through any view, and other iterators may be asked.  An iterator gives the names
there were when it was first asked (`iterator_gives_snapshot`).
-/

namespace Python

variable {β ε : Type}

/-! ## The source -/

/-- Stores over one document: what they share, and which of them are read-only. -/
structure Views (β : Type) where
  backing : β
  document : Document
  skipped : Finset PyString
  readOnly : List Bool

namespace Views

/-- One of the stores. -/
def view (v : Views β) (readOnly : Bool) : Store β := ⟨v.backing, v.document, readOnly, v.skipped⟩

/-- What is shared, as one of the stores leaves it. -/
def put (v : Views β) (s : Store β) : Views β :=
  { v with backing := s.backing, document := s.document, skipped := s.skipped }

/-- `with_read_only`: the new store is constructed, so the backing is read, and then what was
read is replaced by what the stores share. -/
def withReadOnly (B : Backing β ε) (v : Views β) (readOnly : Bool) : Except ε (Views β) :=
  (B.load v.backing).map fun _ => { v with readOnly := v.readOnly ++ [readOnly] }

end Views

/-- A call of one of the stores. -/
inductive ViewCall where
  | on (i : ℕ) (call : Call)
  | withReadOnly (i : ℕ) (readOnly : Bool)

/-- What it returns or raises. -/
inductive ViewAnswer (ε : Type) where
  | answer (a : Answer ε)
  | view (i : ℕ)
  | failed (e : ε)
  | noView

/-- A step of the stores. -/
def Views.step (I : Interpreter) (B : Backing β ε) (v : Views β) : ViewCall → Views β × ViewAnswer ε
  | .on i call =>
      match v.readOnly[i]? with
      | none => (v, .noView)
      | some readOnly =>
          (v.put ((callMachine I B).step (v.view readOnly) call).1,
            .answer ((callMachine I B).step (v.view readOnly) call).2)
  | .withReadOnly i readOnly =>
      match v.readOnly[i]? with
      | none => (v, .noView)
      | some _ =>
          match v.withReadOnly B readOnly with
          | .ok v' => (v', .view v.readOnly.length)
          | .error e => (v, .failed e)

/-- Stores over one document. -/
def viewMachine (I : Interpreter) (B : Backing β ε) : Transition.Machine (Views β) ViewCall (ViewAnswer ε) where
  step := Views.step I B

/-- The generators of the stores. -/
def iterators (β : Type) : Transition.Cursors (Views β) ListRequest Generator PyString where
  begin := fun v request => request.begin (v.view true)
  next := Generator.next

/-! ## The views are one map -/

/-- The map that the stores are. -/
def Views.keyMap (I : Interpreter) (v : Views β) : KeyMap := (v.view true).keyMap I

/-- The map, and which of the stores are read-only. -/
def Views.sharedMap (I : Interpreter) (v : Views β) : KeyMap × List Bool := (v.keyMap I, v.readOnly)

/-- What the calls do to the map and to the list of stores. -/
def viewSpec (I : Interpreter) : Transition.Spec (KeyMap × List Bool) ViewCall (ViewAnswer ε) :=
  fun m call answer m' =>
    match call with
    | .on i call =>
        match m.2[i]? with
        | none => answer = .noView ∧ m' = m
        | some readOnly =>
            ∃ a, answer = .answer a ∧ mapSpec I readOnly m.1 call a m'.1 ∧ m'.2 = m.2
    | .withReadOnly i readOnly =>
        if i < m.2.length then
          (answer = .view m.2.length ∧ m' = (m.1, m.2 ++ [readOnly])) ∨ (∃ e, answer = .failed e) ∧ m' = m
        else answer = .noView ∧ m' = m

theorem viewSpec_step (I : Interpreter) (B : Backing β ε) (v : Views β) (call : ViewCall) :
    viewSpec I (v.sharedMap I) call (v.step I B call).2 ((v.step I B call).1.sharedMap I) := by
  cases call with
  | on i call =>
      simp only [viewSpec, Views.step, Views.sharedMap]
      cases v.readOnly[i]? with
      | none => exact ⟨rfl, rfl⟩
      | some readOnly => exact ⟨_, rfl, mapSpec_step I B (v.view readOnly) call, rfl⟩
  | withReadOnly i readOnly =>
      simp only [viewSpec, Views.step, Views.sharedMap]
      cases hi : v.readOnly[i]? with
      | none =>
          have hlen : ¬ i < v.readOnly.length := (List.getElem?_eq_none_iff.1 hi).not_gt
          exact (if_neg hlen).mpr ⟨rfl, rfl⟩
      | some _ =>
          have hlen : i < v.readOnly.length := (List.getElem?_eq_some_iff.1 hi).1
          rw [Views.withReadOnly]
          cases B.load v.backing with
          | ok document => exact (if_pos hlen).mpr (.inl ⟨rfl, rfl⟩)
          | error e => exact (if_pos hlen).mpr (.inr ⟨⟨e, rfl⟩, rfl⟩)

/-- Every run of stores over one document, over any backing, is a run of one map. -/
theorem views_refine_map (I : Interpreter) (B : Backing β ε) (v : Views β) (calls : List ViewCall) :
    (viewSpec I).Run (v.sharedMap I) calls ((viewMachine I B).replies v calls)
      (((viewMachine I B).exec v calls).sharedMap I) :=
  Transition.Machine.refines (P := fun _ : Views β => True) (fun _ _ _ => trivial)
    (fun v call _ => viewSpec_step I B v call) trivial calls

/-! ## Iterators -/

theorem iterators_gives : (iterators β).Gives Generator.names := Generator.next_names

/-- The names that a call lists. -/
def Names (m : KeyMap) : ListRequest → List PyString → Prop
  | .list, names => names.Nodup ∧ ∀ key, key ∈ names ↔ (m key).isSome
  | .listPrefix dir, names => names.Nodup ∧ ∀ key, key ∈ names ↔ (m key).isSome ∧ dir <+: key
  | .listDir dir, names => names.Nodup ∧ ∀ child, child ∈ names ↔
      child ≠ [] ∧ slash ∉ child ∧ ∃ key, (m key).isSome ∧ IsThrough (dirPrefix dir) child key

theorem names_begin (I : Interpreter) (v : Views β) (request : ListRequest) :
    Names (v.keyMap I) request ((iterators β).begin v request).names := by
  have hmem : ∀ key, key ∈ (v.view true).keys ↔ (v.keyMap I key).isSome := fun key =>
    Backed.Store.mem_keys_iff_keyMap_isSome
  have hnodup : (v.view true).keys.Nodup := Backed.Store.nodup_keys
  cases request with
  | list => exact ⟨hnodup, hmem⟩
  | listPrefix dir =>
      refine ⟨hnodup.filter _, fun key => ?_⟩
      exact List.mem_filter.trans (and_congr (hmem key) List.isPrefixOf_iff_prefix)
  | listDir dir =>
      refine ⟨nodup_childNames, fun child => mem_listDir_iff.trans ?_⟩
      exact and_congr_right fun _ => and_congr_right fun _ => exists_congr fun key =>
        and_congr_left fun _ => hmem key

/-- Whatever happens in between, an iterator gives the names there were when it was first asked,
each once, and asking it changes nothing. -/
theorem iterator_gives_snapshot (I : Interpreter) (B : Backing β ε) (v : Views β)
    (cursors : List (Transition.Cursor ListRequest Generator)) (i : ℕ) (request : ListRequest)
    (hfresh : cursors[i]? = some (.fresh request))
    (before after : List (Transition.CursorOp ViewCall ListRequest))
    (hbefore : ∀ op ∈ before, op.asks i = false) :
    (∃ names,
        Names (((viewMachine I B).exec v (before.filterMap Transition.CursorOp.ran?)).keyMap I) request
          names ∧
        Transition.yields i (before ++ .next i :: after)
            (((viewMachine I B).withCursors (iterators β)).replies (v, cursors) (before ++ .next i :: after))
          = Transition.itemsInOrder names (after.countP (Transition.CursorOp.asks i) + 1)) ∧
      (((viewMachine I B).withCursors (iterators β)).exec (v, cursors) (before ++ .next i :: after)).1
        = (viewMachine I B).exec v ((before ++ .next i :: after).filterMap Transition.CursorOp.ran?) :=
  ⟨⟨_, names_begin I _ request, Transition.yields_replies iterators_gives hfresh hbefore⟩,
    Transition.exec_withCursors_fst (v, cursors) _⟩

/-- A store in memory, writable, with one member. -/
def oneArray : Views Document :=
  ⟨.ofList [(py "a/zarr.json", .obj [])], .ofList [(py "a/zarr.json", .obj [])], ∅, [false]⟩

/-- A key is deleted after its directory was listed. -/
def deleteListed : List (Transition.CursorOp ViewCall ListRequest) :=
  [.run (.on 0 (.op (.delete (py "a/zarr.json")))), .next 0]

/-- A writer and an iterator over one document. -/
def listing : Transition.Machine (Views Document × List (Transition.Cursor ListRequest Generator))
    (Transition.CursorOp ViewCall ListRequest)
    (Transition.CursorReply (ViewAnswer Empty) PyString) :=
  (viewMachine cpython memoryBacking).withCursors (iterators Document)

theorem iterator_gives_snapshot_deleted :
    (∃ names, Names (oneArray.keyMap cpython) (.listDir []) names ∧
        Transition.yields 0 (.next 0 :: deleteListed)
            (listing.replies (oneArray, [.fresh (.listDir [])]) (.next 0 :: deleteListed))
          = Transition.itemsInOrder names 2) ∧
      (listing.exec (oneArray, [.fresh (.listDir [])]) (.next 0 :: deleteListed)).1
        = (viewMachine cpython memoryBacking).exec oneArray
          [.on 0 (.op (.delete (py "a/zarr.json")))] :=
  iterator_gives_snapshot cpython memoryBacking oneArray [.fresh (.listDir [])] 0 (.listDir []) rfl []
    deleteListed fun op hop => by cases hop

end Python
