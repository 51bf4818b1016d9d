import ZarrInline.Python.RoundTrip
import ZarrInline.Text.Sorting

/-!
# Converting between documents and Zarr stores

`to_zarr` of `convert.py`, and the byte-for-byte part of `from_zarr`.  A Zarr store is a map
from keys to bytes; a destination may also be any other thing with a `set` that may
fail.  `decode_value` is one call nearer to the top in `to_zarr` than `encode_value` is in
`_copy_bytes`.

`to_zarr` hands the keys of the document over as they are: the rule R1, which the store
checks at every write, is not checked here (`toZarr_checkKey_iff`).
-/

namespace Python

variable {I : Interpreter} {σ ε : Type}

/-! ## To a Zarr store -/

/-- What a destination does at `set`. -/
structure Dest (σ ε : Type) where
  set : σ → PyString → Bytes → σ × Except ε Unit

/-- Why a document is not loaded. -/
inductive LoadError where
  | codec (e : PyError)
  | notObject

/-- The message of an error of the source itself. -/
def LoadError.message : LoadError → Option PyString
  | .codec _ => none
  | .notObject => py "document file must hold a JSON object"

/-- What a conversion raises. -/
inductive ConvertError (ε : Type) where
  | load (e : LoadError)
  | codec (e : PyError)
  /-- `zarr` finds no group to open. -/
  | noGroup
  | dest (e : ε)

/-- What a conversion leaves: the destination, the calls of its `set`, and the
result. -/
structure Converted (σ ε : Type) where
  dest : σ
  calls : List (PyString × Bytes)
  result : Except (ConvertError ε) Unit

/-- What `to_zarr` takes: a document, or a file by the text it holds. -/
inductive DocumentSource where
  | parsed (document : Document)
  | file (text : PyString)

/-- The document of a source. -/
def DocumentSource.load (I : Interpreter) : DocumentSource → Except LoadError Document
  | .parsed document => .ok document
  | .file text =>
      match strictLoads I text with
      | .error e => .error (.codec e)
      | .ok (.obj ms) => .ok (Json.Members.ofList ms)
      | .ok _ => .error .notObject

/-- The members, in the order of `sorted(document)`. -/
def sortedMembers (document : Document) : List (PyString × PyValue) :=
  document.entries.mergeSort fun m n => decide (m.1 ≤ n.1)

/-- The loop of `to_zarr`. -/
def copyMembers (I : Interpreter) (D : Dest σ ε) : List (PyString × PyValue) → σ → Converted σ ε
  | [], dest => ⟨dest, [], .ok ()⟩
  | m :: ms, dest =>
      match decodeValue I m.1 m.2 with
      | .error e => ⟨dest, [], .error (.codec e)⟩
      | .ok data =>
          match D.set dest m.1 data with
          | (dest, .error e) => ⟨dest, [(m.1, data)], .error (.dest e)⟩
          | (dest, .ok ()) =>
              let rest := copyMembers I D ms dest
              ⟨rest.dest, (m.1, data) :: rest.calls, rest.result⟩

/-- `to_zarr`. -/
def toZarr (I : Interpreter) (D : Dest σ ε) (source : DocumentSource) (dest : σ) : Converted σ ε :=
  match source.load I with
  | .error e => ⟨dest, [], .error (.load e)⟩
  | .ok document => copyMembers (I.nearer 1) D (sortedMembers document) dest

/-! ## From a Zarr store -/

/-- A store as `zarr` sees it. -/
abbrev StoreMap := PyMembers Bytes

/-- What the source leaves to `zarr`: whether `open_group` finds a group at the root of a
store. -/
structure ZarrPython where
  opensGroup : (PyString → Option Bytes) → Bool

/-- What `from_zarr` takes: a store, or a group in a store by its path. -/
inductive GroupSource where
  | store (store : StoreMap)
  | group (store : StoreMap) (path : PyString)

/-- `_open_group`: the store and the path of the group. -/
def openGroup (Z : ZarrPython) : GroupSource → Except (ConvertError ε) (StoreMap × PyString)
  | .store store => if Z.opensGroup store.get then .ok (store, []) else .error .noGroup
  | .group store path => .ok (store, path)

/-- What the keys of a group begin with. -/
def groupPrefix (path : PyString) : PyString :=
  if path = [] then [] else path.rdropWhile (· = '/'.toNat) ++ py "/"

/-- One round of the loop of `_copy_bytes`; `n` is the length of the prefix. -/
def copyKey (I : Interpreter) (store : StoreMap) (n : ℕ) (document : Document) (key : PyString) :
    Except PyError Document :=
  match store.get key with
  | none => .ok document
  | some data => do
      let value ← encodeValue I (key.drop n) data
      return document.set (key.drop n) value

/-- `_copy_bytes`. -/
def copyBytes (I : Interpreter) (store : StoreMap) (path subpath : PyString) (document : Document) :
    Except PyError Document :=
  let scope := groupPrefix path ++ if subpath = [] then [] else subpath ++ py "/"
  (Text.sortStrings (store.keys.filter fun key => scope.isPrefixOf key)).foldlM
    (copyKey I store (groupPrefix path).length) document

/-- `from_zarr` with `inline_data=False`. -/
def fromZarr (I : Interpreter) (Z : ZarrPython) (source : GroupSource) :
    Except (ConvertError ε) Document :=
  match openGroup Z source with
  | .error e => .error e
  | .ok (store, path) =>
      match copyBytes I store path [] Json.Members.empty with
      | .error e => .error (.codec e)
      | .ok document => .ok document

/-! ## The keys that are handed over -/

/-- The members that `to_zarr` comes to, unless the destination stops it before: those
before the first, in the order of the keys, that does not decode. -/
def reachedMembers (I : Interpreter) (document : Document) : List (PyString × PyValue) :=
  (sortedMembers document).takeWhile fun m => (decodeValue I m.1 m.2).toBool

theorem copyMembers_calls {D : Dest σ ε} {ms : List (PyString × PyValue)} {dest : σ}
    {c : PyString × Bytes} (h : c ∈ (copyMembers I D ms dest).calls) :
    c.1 ∈ (ms.takeWhile fun m => (decodeValue I m.1 m.2).toBool).map Prod.fst := by
  induction ms generalizing dest with
  | nil => cases h
  | cons m ms ih =>
      rw [copyMembers] at h
      cases hdec : decodeValue I m.1 m.2 with
      | error e => rw [hdec] at h; cases h
      | ok data =>
          have htake : (m :: ms).takeWhile (fun m => (decodeValue I m.1 m.2).toBool)
              = m :: ms.takeWhile fun m => (decodeValue I m.1 m.2).toBool := by
            rw [List.takeWhile_cons, if_pos]
            rw [hdec]
            rfl
          rw [htake, List.map_cons, List.mem_cons]
          rw [hdec] at h
          simp only at h
          split at h
          · exact Or.inl (congrArg Prod.fst (List.mem_singleton.1 h))
          · rcases List.mem_cons.1 h with hc | hc
            · exact Or.inl (congrArg Prod.fst hc)
            · exact Or.inr (ih hc)

/-- A destination that takes everything. -/
def recorder : Dest Unit Empty := ⟨fun _ _ _ => ((), .ok ())⟩

theorem calls_recorder (ms : List (PyString × PyValue)) :
    (copyMembers I recorder ms ()).calls.map Prod.fst
      = (ms.takeWhile fun m => (decodeValue I m.1 m.2).toBool).map Prod.fst := by
  induction ms with
  | nil => rfl
  | cons m ms ih =>
      rw [copyMembers, List.takeWhile_cons]
      cases hdec : decodeValue I m.1 m.2 with
      | error e => rfl
      | ok data =>
          show m.1 :: (copyMembers I recorder ms ()).calls.map Prod.fst = _
          rw [ih]
          rfl

/-- Whatever the destination does, every key that is handed over satisfies R1, if and only
if every key does that comes, in the order of code points, before the first key that does
not decode. -/
theorem toZarr_checkKey_iff (I : Interpreter) (source : DocumentSource) :
    (∀ (σ ε : Type) (D : Dest σ ε) (dest : σ), ∀ c ∈ (toZarr I D source dest).calls,
        checkKey c.1 = none) ↔
      ∀ document, source.load I = .ok document →
        ∀ m ∈ reachedMembers (I.nearer 1) document, checkKey m.1 = none := by
  cases hload : source.load I with
  | error e =>
      refine iff_of_true (fun σ ε D dest c hc => ?_) fun document h => by cases h
      rw [toZarr, hload] at hc
      cases hc
  | ok document =>
      simp only [Except.ok.injEq, forall_eq', toZarr, hload]
      constructor
      · intro h m hm
        have hkey : m.1 ∈ (reachedMembers (I.nearer 1) document).map Prod.fst :=
          List.mem_map_of_mem hm
        rw [reachedMembers, ← calls_recorder] at hkey
        obtain ⟨c, hc, hcm⟩ := List.mem_map.1 hkey
        rw [← hcm]
        exact h Unit Empty recorder () c hc
      · intro h σ ε D dest c hc
        obtain ⟨m, hm, hcm⟩ := List.mem_map.1 (copyMembers_calls hc)
        rw [← hcm]
        exact h m hm

/-- A document that addresses a file above the destination. -/
def escapingDocument : Document := .ofList [(py "../evil", .str [])]

theorem toZarr_escapes :
    ∃ c ∈ (toZarr cpython recorder (.parsed escapingDocument) ()).calls, checkKey c.1 ≠ none :=
  ⟨(py "../evil", []), by decide +kernel, by decide⟩

end Python
