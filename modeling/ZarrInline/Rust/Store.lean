import ZarrInline.Rust.Validator
import ZarrInline.Transition.Machine

/-!
# The Rust store

`store.rs`.  The operations of a store run one at a time under its locks, so a store is a
machine.  There is no backing: a document leaves a store as text, and a store is built
over a document that was parsed.
-/

namespace Rust

variable {C : Crates}

/-! ## Documents -/

/-- `IndexMap::swap_remove`, which the `remove` of an order-preserving map is: the last
member takes the place of the one that is removed. -/
def swapRemove (key : RustString) : List (RustString × Value) → List (RustString × Value)
  | [] => []
  | m :: ms =>
      if m.1 = key then
        match ms.getLast? with
        | some last => last :: ms.dropLast
        | none => []
      else m :: swapRemove key ms

theorem swapRemove_perm {key : RustString} {ms : List (RustString × Value)}
    (h : (ms.map Prod.fst).Nodup) : (swapRemove key ms).Perm (Json.erase key ms) := by
  induction ms with
  | nil => exact List.Perm.refl _
  | cons m ms ih =>
      obtain ⟨hm, hms⟩ := List.nodup_cons.1 h
      rw [swapRemove, Json.erase_cons]
      by_cases hkey : m.1 = key
      · rw [if_pos hkey, if_pos hkey, Json.erase_of_not_mem (hkey ▸ hm)]
        cases hlast : ms.getLast? with
        | none => rw [List.getLast?_eq_none_iff.1 hlast]
        | some last =>
            have hsplit : ms = ms.dropLast ++ [last] := by
              obtain ⟨hne, rfl⟩ := List.mem_getLast?_eq_getLast hlast
              exact (List.dropLast_append_getLast hne).symm
            conv_rhs => rw [hsplit]
            exact (List.perm_append_singleton last _).symm
      · rw [if_neg hkey, if_neg hkey]
        exact (ih hms).cons m

theorem ordered_noRank_iff {ks : List RustString} : Json.Ordered Json.noRank ks ↔ ks.Nodup := by
  simp [Json.Ordered, List.Nodup, Json.Precedes, Json.noRank]

/-- `Map::remove`. -/
def removeKey (d : Document) (key : RustString) : Document :=
  ⟨swapRemove key d.entries, by
    have hnodup := ordered_noRank_iff.1 d.ordered
    refine ordered_noRank_iff.2 ?_
    rw [((swapRemove_perm hnodup).map Prod.fst).nodup_iff]
    exact ordered_noRank_iff.1 (d.erase key).ordered⟩

theorem get_removeKey (d : Document) (key l : RustString) :
    (removeKey d key).get l = (d.erase key).get l := by
  have hperm : (swapRemove key d.entries).Perm (Json.erase key d.entries) :=
    swapRemove_perm (ordered_noRank_iff.1 d.ordered)
  refine Option.ext fun value => ?_
  rw [Json.Members.get_eq_some_iff, Json.Members.get_eq_some_iff]
  exact hperm.mem_iff

/-! ## The source -/

/-- `ZarrInlineStore`. -/
structure Store where
  document : Document
  skipped : Finset RustString

/-- `StorageError::Other`, for the errors of the store itself. -/
inductive StorageError where
  | invalidKey (key : RustString) (issue : ValidationIssue)
  | setJsonMetadata (key : RustString)
  | setJsonByte (key : RustString)
  | offsetOverflow (offset : UInt64)
  | endOverflow
  | codec (e : RustError)

/-- The message of an error, with keys as `Debug` shows them. -/
def StorageError.message (debug : RustString → RustString) : StorageError → Option RustString
  | .invalidKey key issue =>
      some ("invalid store key ".toList ++ debug key ++ ": ".toList ++ issue.message.toList)
  | .setJsonMetadata key =>
      some ("set_json: metadata key ".toList ++ debug key ++ " takes a JSON object".toList)
  | .setJsonByte key =>
      some ("set_json: byte key ".toList ++ debug key ++ " takes a JSON array or object".toList)
  | .offsetOverflow offset =>
      some ("partial write offset ".toList ++ offset.toNat.repr.toList ++ " overflows usize".toList)
  | .endOverflow => some "partial write end offset overflows usize".toList
  | .codec e => e.message debug

namespace Store

/-- `new`. -/
def new : Store := ⟨Json.Members.empty, ∅⟩

/-- `from_document`. -/
def fromDocument (document : Document) : Except (List ValidationIssue) Store := do
  validateStrict document
  return ⟨document, ∅⟩

/-- `from_document_lenient`. -/
def fromDocumentLenient (document : Document) : Store × List ValidationIssue :=
  (⟨document, ((validate document).map Rules.ValidationIssue.key).toFinset⟩, validate document)

/-- `to_json_string`. -/
def toJsonString (C : Crates) (s : Store) : Except RustError RustString :=
  (canonicalToString C (.obj s.document.entries)).map ofCodes

/-- `get_bytes`, and so `get`. -/
def getBytes (C : Crates) (s : Store) (key : RustString) : Except StorageError (Option Bytes) :=
  if key ∈ s.skipped then .ok none
  else
    match s.document.get key with
    | none => .ok none
    | some value =>
        match decodeValue C key value with
        | .ok data => .ok (some data)
        | .error e => .error (.codec e)

/-- `check_write_key`. -/
def checkWriteKey (key : RustString) : Except StorageError Unit :=
  match checkKey key with
  | none => .ok ()
  | some issue => .error (.invalidKey key issue)

/-- Insert what was encoded, and clear the skip of its key. -/
def insertEncoded (s : Store) (key : RustString) (encoded : Except RustError Value) :
    Store × Except StorageError Unit :=
  match encoded with
  | .ok value => (⟨s.document.set key value, s.skipped.erase key⟩, .ok ())
  | .error e => (s, .error (.codec e))

/-- `set`. -/
def set (C : Crates) (s : Store) (key : RustString) (value : Bytes) :
    Store × Except StorageError Unit :=
  match checkWriteKey key with
  | .error e => (s, .error e)
  | .ok () => s.insertEncoded key (encodeValue C key value)

/-- `set_json`. -/
def setJson (C : Crates) (s : Store) (key : RustString) (value : Value) :
    Store × Except StorageError Unit :=
  if isMetadataKey key ∧ ¬ isObject value then (s, .error (.setJsonMetadata key))
  else if ¬ isMetadataKey key ∧ ¬ isArray value ∧ ¬ isObject value then
    (s, .error (.setJsonByte key))
  else
    match canonicalToString C value with
    | .error e => (s, .error (.codec e))
    | .ok text => s.set C key (Unicode.encodeUtf8 text)

/-- The greatest `usize`. -/
def usizeMax : ℕ := 2 ^ 64 - 1

/-- The greatest `isize`: no `Vec` grows longer. -/
def isizeMax : ℕ := 2 ^ 63 - 1

/-- One write of `set_partial_many`: zeros up to the end of the write, then the bytes.
`Vec::resize` panics at a length over the greatest `isize`. -/
def writeAt (bytes : Bytes) (offset : UInt64) (value : Bytes) : Except StorageError Bytes :=
  if usizeMax < offset.toNat then .error (.offsetOverflow offset)
  else if usizeMax < offset.toNat + value.length then .error .endOverflow
  else if bytes.length < offset.toNat + value.length ∧ isizeMax < offset.toNat + value.length then
    .error (.codec .panic)
  else
    let bytes := bytes ++ List.replicate (offset.toNat + value.length - bytes.length) 0
    .ok (bytes.take offset.toNat ++ value ++ bytes.drop (offset.toNat + value.length))

/-- `set_partial_many`. -/
def setPartialMany (C : Crates) (s : Store) (key : RustString)
    (offsetValues : List (UInt64 × Bytes)) : Store × Except StorageError Unit :=
  match do
    checkWriteKey key
    let bytes := (← s.getBytes C key).getD []
    offsetValues.foldlM (fun bytes (w : UInt64 × Bytes) => writeAt bytes w.1 w.2) bytes with
  | .error e => (s, .error e)
  | .ok bytes => s.insertEncoded key (encodeValue C key bytes)

/-- `erase`. -/
def erase (s : Store) (key : RustString) : Store :=
  ⟨removeKey s.document key, s.skipped.erase key⟩

/-- `erase_prefix`. -/
def erasePrefix (s : Store) (dir : RustString) : Store :=
  ⟨s.document.retain fun key => ¬ dir.isPrefixOf key, s.skipped.filter fun key => ¬ dir.isPrefixOf key⟩

end Store

/-! ## The store as a machine -/

/-- The operations. -/
inductive Op where
  | get (key : RustString)
  | set (key : RustString) (value : Bytes)
  | setJson (key : RustString) (value : Value)
  | setPartialMany (key : RustString) (offsetValues : List (UInt64 × Bytes))
  | erase (key : RustString)
  | erasePrefix (dir : RustString)

/-- What an operation returns. -/
inductive Reply where
  | bytes (data : Option Bytes)
  | done
  | failed (e : StorageError)

/-- The reply of an operation that returns nothing. -/
def Reply.ofUnit : Except StorageError Unit → Reply
  | .ok () => .done
  | .error e => .failed e

/-- The store. -/
def storeMachine (C : Crates) : Transition.Machine Store Op Reply where
  step := fun s op =>
    match op with
    | .get key =>
        match s.getBytes C key with
        | .ok data => (s, .bytes data)
        | .error e => (s, .failed e)
    | .set key value => ((s.set C key value).1, .ofUnit (s.set C key value).2)
    | .setJson key value => ((s.setJson C key value).1, .ofUnit (s.setJson C key value).2)
    | .setPartialMany key offsetValues =>
        ((s.setPartialMany C key offsetValues).1, .ofUnit (s.setPartialMany C key offsetValues).2)
    | .erase key => (s.erase key, .done)
    | .erasePrefix dir => (s.erasePrefix dir, .done)

end Rust
