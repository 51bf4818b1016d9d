import ZarrInline.Rust.Persistence
import ZarrInline.Text.Sorting

/-!
# Reading parts of the Rust store and listing it

The rest of `store.rs`.  Listing leaves out the keys that `zarrs` has no `StoreKey` for.
-/

namespace Rust

variable {C : Crates}

/-! ## The source -/

/-- What the store leaves to `zarrs`: the strings that `StoreKey::new` and
`StorePrefix::new` take. -/
structure Zarrs where
  storeKey : RustString → Bool
  storePrefix : RustString → Bool

/-- `ByteRange`. -/
inductive ByteRange where
  | fromStart (offset : UInt64) (length : Option UInt64)
  | suffix (length : UInt64)

/-- `InvalidByteRangeError`. -/
structure InvalidByteRange where
  range : ByteRange
  length : ℕ

/-- The start and the end of a range, if they fit 64 bits. -/
def ByteRange.bounds (len : ℕ) : ByteRange → Option (ℕ × ℕ)
  | .fromStart offset none => some (offset.toNat, len)
  | .fromStart offset (some length) =>
      if offset.toNat + length.toNat < 2 ^ 64 then
        some (offset.toNat, offset.toNat + length.toNat)
      else none
  | .suffix length => if length.toNat ≤ len then some (len - length.toNat, len) else none

/-- The bytes in a range. -/
def ByteRange.slice (data : Bytes) (range : ByteRange) : Except InvalidByteRange Bytes :=
  match range.bounds data.length with
  | some (first, last) =>
      if first ≤ last ∧ last ≤ data.length then .ok ((data.take last).drop first)
      else .error ⟨range, data.length⟩
  | none => .error ⟨range, data.length⟩

/-- `str::strip_prefix`. -/
def stripPrefix (dir key : RustString) : Option RustString :=
  if dir.isPrefixOf key then some (key.drop dir.length) else none

namespace Store

/-- `get_partial_many`. -/
def getPartialMany (C : Crates) (s : Store) (key : RustString) (ranges : List ByteRange) :
    Except StorageError (Option (List (Except InvalidByteRange Bytes))) := do
  match ← s.getBytes C key with
  | none => return none
  | some data => return some (ranges.map (ByteRange.slice data))

/-- `size_key`. -/
def sizeKey (C : Crates) (s : Store) (key : RustString) : Except StorageError (Option ℕ) := do
  return (← s.getBytes C key).map List.length

/-- `sorted_keys`. -/
def sortedKeys (s : Store) : List RustString := Text.sortStrings s.keys

/-- `list`. -/
def list (Z : Zarrs) (s : Store) : List RustString := s.sortedKeys.filter Z.storeKey

/-- `list_prefix`. -/
def listPrefix (Z : Zarrs) (s : Store) (dir : RustString) : List RustString :=
  (s.sortedKeys.filter fun key => dir.isPrefixOf key).filter Z.storeKey

/-- One round of the loop of `list_dir`. -/
def listDirStep (Z : Zarrs) (dir : RustString) (found : List RustString × List RustString)
    (key : RustString) : List RustString × List RustString :=
  match stripPrefix dir key with
  | none => found
  | some remainder =>
      if '/' ∈ remainder then
        let childPrefix := dir ++ remainder.takeWhile (· ≠ '/') ++ ['/']
        if Z.storePrefix childPrefix ∧ found.2.getLast? ≠ some childPrefix then
          (found.1, found.2 ++ [childPrefix])
        else found
      else if Z.storeKey key then (found.1 ++ [key], found.2)
      else found

/-- `list_dir`: the keys and the prefixes. -/
def listDir (Z : Zarrs) (s : Store) (dir : RustString) : List RustString × List RustString :=
  s.sortedKeys.foldl (listDirStep Z dir) ([], [])

/-- `size_prefix`. -/
def sizePrefix (C : Crates) (Z : Zarrs) (s : Store) (dir : RustString) : Except StorageError ℕ :=
  (s.listPrefix Z dir).foldlM (fun size key => do
    match ← s.sizeKey C key with
    | some sizeKey => return size + sizeKey
    | none => return size) 0

end Store

/-! ## All calls -/

/-- The calls. -/
inductive Call where
  | op (op : Op)
  | getPartialMany (key : RustString) (ranges : List ByteRange)
  | sizeKey (key : RustString)
  | list
  | listPrefix (dir : RustString)
  | listDir (dir : RustString)
  | sizePrefix (dir : RustString)

/-- What a call returns. -/
inductive Answer where
  | reply (r : Reply)
  | parts (r : Except StorageError (Option (List (Except InvalidByteRange Bytes))))
  | size (r : Except StorageError (Option ℕ))
  | keys (keys : List RustString)
  | keysPrefixes (r : List RustString × List RustString)
  | total (r : Except StorageError ℕ)

/-- The answer of `get`. -/
def Answer.ofGet : Except StorageError (Option Bytes) → Answer
  | .ok data => .reply (.bytes data)
  | .error e => .reply (.failed e)

/-- The answer of `get_partial_many`. -/
def Answer.ofParts (ranges : List ByteRange) (r : Except StorageError (Option Bytes)) : Answer :=
  .parts (r.map fun data => data.map fun bytes => ranges.map (ByteRange.slice bytes))

/-- The answer of `size_key`. -/
def Answer.ofSize (r : Except StorageError (Option Bytes)) : Answer :=
  .size (r.map fun data => data.map List.length)

/-- The store with all its calls. -/
def callMachine (C : Crates) (Z : Zarrs) : Transition.Machine Store Call Answer where
  step := fun s call =>
    match call with
    | .op op => (((storeMachine C).step s op).1, .reply ((storeMachine C).step s op).2)
    | .getPartialMany key ranges => (s, .parts (s.getPartialMany C key ranges))
    | .sizeKey key => (s, .size (s.sizeKey C key))
    | .list => (s, .keys (s.list Z))
    | .listPrefix dir => (s, .keys (s.listPrefix Z dir))
    | .listDir dir => (s, .keysPrefixes (s.listDir Z dir))
    | .sizePrefix dir => (s, .total (s.sizePrefix C Z dir))

end Rust
