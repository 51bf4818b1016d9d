import ZarrInline.Backed.KeyMap
import ZarrInline.Rust.Hierarchy
import ZarrInline.Rust.Overlay
import ZarrInline.Rust.Skipping

/-!
# The map that the Rust store is

To its callers a store is a map from keys to bytes, in which a value may be undecodable.
`mapSpec` says what each call does to the map and what it answers, without documents, JSON
values or skipped keys, and every run of the store is a run of it (`store_refines_map`).
-/

namespace Rust

variable {C : Crates} {Z : Zarrs} {s : Store} {key : RustString}

/-! ## The specification -/

/-- A map from keys to bytes; `some none` is a value that cannot be decoded. -/
abbrev KeyMap := RustString → Option (Option Bytes)

/-- The map a store is. -/
def Store.keyMap (C : Crates) (s : Store) : KeyMap :=
  Backed.keyMap (fun key value => (decodeValue C key value).toOption) s.document.get s.skipped

/-- The bytes are the text of an object. -/
def isObjectText (C : Crates) (data : Bytes) : Bool :=
  match strictFromSlice C data with
  | .ok parsed => isObject parsed
  | .error _ => false

/-- The bytes are taken at the key. -/
def takes (C : Crates) (key : RustString) (data : Bytes) : Bool :=
  (checkKey key).isNone && (!isMetadataKey key || isObjectText C data)

/-- What a key has after a write: at a metadata key, the canonical text of what was parsed. -/
def storedBytes (C : Crates) (key : RustString) (data : Bytes) : Option Bytes :=
  if isMetadataKey key then
    match strictFromSlice C data with
    | .ok parsed => some (Unicode.encodeUtf8 (canonicalTree parsed).text)
    | .error _ => none
  else some data

/-- What reading a key gives. -/
def ReadsAs (r : Except StorageError (Option Bytes)) : Option (Option Bytes) → Prop
  | none => r = .ok none
  | some none => ∃ e, r = .error (.codec e)
  | some (some data) => r = .ok (some data)

/-- The live keys of a kind, in ascending order. -/
structure Lists (m : KeyMap) (p : RustString → Bool) (keys : List RustString) : Prop where
  ascending : Ascending keys
  mem_iff : ∀ key, key ∈ keys ↔ (m key).isSome ∧ p key = true

/-- The size of what a key has. -/
def sizeAt : Option (Option Bytes) → ℕ
  | some (some data) => data.length
  | _ => 0

/-- The sizes are added up, if every key can be decoded. -/
def Totals (m : KeyMap) (keys : List RustString) (n : ℕ) (r : Except StorageError ℕ) : Prop :=
  if some none ∈ keys.map m then ∃ e, r = .error (.codec e)
  else r = .ok (n + (keys.map fun key => sizeAt (m key)).sum)

/-- A call fails and changes nothing. -/
def Refused (m : KeyMap) (answer : Answer) (m' : KeyMap) : Prop :=
  (∃ e, answer = .reply (.failed e)) ∧ m' = m

/-- Bytes are written where they are taken. -/
def Writes (C : Crates) (m : KeyMap) (key : RustString) (data : Bytes) (answer : Answer) (m' : KeyMap) :
    Prop :=
  if takes C key data then
    answer = .reply .done ∧ m' = Function.update m key (some (storedBytes C key data))
  else Refused m answer m'

/-- The bytes a partial write starts from, if they can be decoded. -/
def startingBytes : Option (Option Bytes) → Option Bytes
  | none => some []
  | some data => data

/-- Every write ends where a `Vec` of the length or a `Vec` that grows may. -/
def Fits (len : ℕ) (ws : List (UInt64 × Bytes)) : Prop :=
  ∀ w ∈ ws, writeEnd w ≤ Store.usizeMax ∧ writeEnd w ≤ max len Store.isizeMax

instance (len : ℕ) (ws : List (UInt64 × Bytes)) : Decidable (Fits len ws) :=
  inferInstanceAs (Decidable (∀ w ∈ ws, _))

/-- What the calls do to the map. -/
def mapSpec (C : Crates) (Z : Zarrs) : Transition.Spec KeyMap Call Answer := fun m call answer m' =>
  match call with
  | .op (.get key) => m' = m ∧ ∃ r, ReadsAs r (m key) ∧ answer = .ofGet r
  | .getPartialMany key ranges => m' = m ∧ ∃ r, ReadsAs r (m key) ∧ answer = .ofParts ranges r
  | .sizeKey key => m' = m ∧ ∃ r, ReadsAs r (m key) ∧ answer = .ofSize r
  | .list => m' = m ∧ ∃ keys, Lists m Z.storeKey keys ∧ answer = .keys keys
  | .listPrefix dir =>
      m' = m ∧ ∃ keys, Lists m (fun key => dir.isPrefixOf key && Z.storeKey key) keys ∧ answer = .keys keys
  | .listDir dir =>
      m' = m ∧ ∃ keys, Lists m (fun _ => true) keys ∧
        answer = .keysPrefixes (keys.foldl (Store.listDirStep Z dir) ([], []))
  | .sizePrefix dir =>
      m' = m ∧ ∃ keys r, Lists m (fun key => dir.isPrefixOf key && Z.storeKey key) keys ∧
        Totals m keys 0 r ∧ answer = .total r
  | .op (.set key data) => Writes C m key data answer m'
  | .op (.setJson key value) =>
      if TakesJson key value ∧ Json.HasNumbers value then
        Writes C m key (Unicode.encodeUtf8 (canonicalTree value).text) answer m'
      else Refused m answer m'
  | .op (.setPartialMany key ws) =>
      match startingBytes (m key) with
      | some data =>
          if Fits data.length ws then Writes C m key (ws.foldl overlay data) answer m'
          else Refused m answer m'
      | none => Refused m answer m'
  | .op (.erase key) => answer = .reply .done ∧ m' = Function.update m key none
  | .op (.erasePrefix dir) =>
      answer = .reply .done ∧ m' = fun key => if !dir.isPrefixOf key then m key else none

/-! ## Reading -/

theorem readsAs_getBytes (s : Store) (key : RustString) : ReadsAs (s.getBytes C key) (s.keyMap C key) := by
  rw [Store.getBytes, Store.keyMap, Backed.keyMap]
  split
  · rfl
  · cases hget : s.document.get key with
    | none => rfl
    | some value =>
        cases hdecode : decodeValue C key value with
        | ok data =>
            simp only [hdecode, Option.map_some]
            rfl
        | error e =>
            simp only [hdecode, Option.map_some]
            exact ⟨e, rfl⟩

theorem mem_keys_iff : key ∈ s.keys ↔ (s.keyMap C key).isSome := by
  rw [mem_keys, Store.keyMap, Backed.keyMap_isSome, and_comm]

theorem lists_filter (p : RustString → Bool) : Lists (s.keyMap C) p (s.sortedKeys.filter p) where
  ascending := ascending_iff.2 ((sortedKeys_ascending s).filter p)
  mem_iff key := by rw [List.mem_filter, mem_sortedKeys, mem_keys_iff (C := C)]

theorem listPrefix_eq (dir : RustString) :
    s.listPrefix Z dir = s.sortedKeys.filter fun key => dir.isPrefixOf key && Z.storeKey key := by
  rw [Store.listPrefix, List.filter_filter]
  exact List.filter_congr fun key _ => Bool.and_comm _ _

theorem sizeKey_eq (s : Store) (key : RustString) :
    s.sizeKey C key = (s.getBytes C key).map fun data => data.map List.length := by
  rw [Store.sizeKey]
  cases s.getBytes C key <;> rfl

theorem getPartialMany_eq (s : Store) (key : RustString) (ranges : List ByteRange) :
    s.getPartialMany C key ranges
      = (s.getBytes C key).map fun data => data.map fun bytes => ranges.map (ByteRange.slice bytes) := by
  rw [Store.getPartialMany]
  cases s.getBytes C key with
  | error e => rfl
  | ok data => cases data <;> rfl

/-- One round of `size_prefix`. -/
theorem sizeStep_eq (s : Store) (key : RustString) (n : ℕ) :
    (do
      match ← s.sizeKey C key with
      | some sizeKey => return n + sizeKey
      | none => return n : Except StorageError ℕ)
      = (s.getBytes C key).map fun data => n + sizeAt (data.map some) := by
  rw [sizeKey_eq]
  cases s.getBytes C key with
  | error e => rfl
  | ok data => cases data <;> rfl

theorem totals_cons {m : KeyMap} {key : RustString} {keys : List RustString} {n : ℕ}
    {r : Except StorageError (Option Bytes)} {total : ℕ → Except StorageError ℕ}
    (hread : ReadsAs r (m key)) (htotal : ∀ n, Totals m keys n (total n)) :
    Totals m (key :: keys) n ((r.map fun data => n + sizeAt (data.map some)).bind total) := by
  rw [Totals, List.map_cons, List.map_cons, List.sum_cons, ← Nat.add_assoc]
  have hrest : ∀ n', m key ≠ some none →
      (if some none ∈ m key :: keys.map m then ∃ e, total n' = .error (.codec e)
      else total n' = .ok (n' + (keys.map fun key => sizeAt (m key)).sum)) := by
    intro n' hkey
    refine (if_congr ?_ rfl rfl).mpr (htotal n')
    exact List.mem_cons.trans (or_iff_right (Ne.symm hkey))
  cases hm : m key with
  | none =>
      rw [hm] at hread hrest
      rw [hread]
      exact hrest n (by simp)
  | some data =>
      rw [hm] at hread hrest
      cases data with
      | none =>
          obtain ⟨e, rfl⟩ := hread
          rw [if_pos List.mem_cons_self]
          exact ⟨e, rfl⟩
      | some data =>
          rw [show r = .ok (some data) from hread]
          exact hrest (n + data.length) (by simp)

/-- The sum that `size_prefix` computes. -/
theorem totals_foldlM (keys : List RustString) (n : ℕ) :
    Totals (s.keyMap C) keys n (keys.foldlM (fun size key => do
      match ← s.sizeKey C key with
      | some sizeKey => return size + sizeKey
      | none => return size) n) := by
  induction keys generalizing n with
  | nil => exact (if_neg (by simp)).mpr rfl
  | cons key keys ih =>
      rw [List.foldlM_cons, sizeStep_eq]
      exact totals_cons (readsAs_getBytes s key) ih

/-! ## Writing -/

/-- Bytes that are taken are encoded as a value that is read as what the map is to have. -/
theorem encodeValue_of_takes {data : Bytes} (h : takes C key data = true) :
    ∃ value, encodeValue C key data = .ok value ∧
      (decodeValue C key value).toOption = storedBytes C key data := by
  rw [takes, Bool.and_eq_true, Bool.or_eq_true, Bool.not_eq_true'] at h
  rw [storedBytes]
  cases hkey : isMetadataKey key with
  | false =>
      obtain ⟨value, hvalue⟩ := exists_encodeValue (C := C) hkey data
      exact ⟨value, hvalue, congrArg Except.toOption (decodeValue_of_encodeValue hkey hvalue)⟩
  | true =>
      rw [hkey] at h
      have hobject : isObjectText C data = true := h.2.resolve_left Bool.true_eq_false_eq_False
      rw [isObjectText] at hobject
      cases hparsed : strictFromSlice C data with
      | error e =>
          rw [hparsed] at hobject
          cases hobject
      | ok parsed =>
          rw [hparsed] at hobject
          refine ⟨parsed, (encodeValue_metadata_eq_ok hkey).2 ⟨hparsed, hobject⟩, ?_⟩
          rw [((TakesJson.of_metadata hkey).2 hobject).decodeValue_eq,
            canonicalToString_eq (strictFromSlice_eq_ok_iff.1 hparsed).2]
          rfl

/-- Bytes that are not taken at a key that R1 allows are not encoded. -/
theorem encodeValue_of_not_takes {data : Bytes} (h : ¬ takes C key data = true)
    (hcheck : checkKey key = none) : ∃ e, encodeValue C key data = .error e := by
  rw [takes, hcheck, Bool.and_eq_true, Bool.or_eq_true, Bool.not_eq_true', not_and, not_or,
    Bool.not_eq_false] at h
  obtain ⟨hkey, hobject⟩ := h rfl
  rw [isObjectText] at hobject
  cases hvalue : encodeValue C key data with
  | error e => exact ⟨e, rfl⟩
  | ok value =>
      obtain ⟨hparsed, hisObject⟩ := (encodeValue_metadata_eq_ok hkey).1 hvalue
      rw [hparsed] at hobject
      exact absurd hisObject hobject

theorem keyMap_insertEncoded {value : Value} :
    (s.insertEncoded key (.ok value)).1.keyMap C
      = Function.update (s.keyMap C) key (some (decodeValue C key value).toOption) := by
  rw [Store.keyMap, Store.insertEncoded, Json.Members.get_set_eq_update]
  exact Backed.keyMap_update (some value)

/-- Encoded bytes are written where they are taken. -/
theorem writes_insertEncoded {data : Bytes} (hcheck : checkKey key = none) :
    Writes C (s.keyMap C) key data
      (.reply (.ofUnit (s.insertEncoded key (encodeValue C key data)).2))
      ((s.insertEncoded key (encodeValue C key data)).1.keyMap C) := by
  rw [Writes]
  split
  · next htakes =>
      obtain ⟨value, hvalue, hstored⟩ := encodeValue_of_takes htakes
      rw [hvalue, keyMap_insertEncoded, hstored]
      exact ⟨rfl, rfl⟩
  · next htakes =>
      obtain ⟨e, he⟩ := encodeValue_of_not_takes htakes hcheck
      rw [he]
      exact ⟨⟨_, rfl⟩, rfl⟩

theorem writes_set (data : Bytes) :
    Writes C (s.keyMap C) key data (.reply (.ofUnit (s.set C key data).2)) ((s.set C key data).1.keyMap C) := by
  rw [Store.set, Store.checkWriteKey]
  cases hcheck : checkKey key with
  | none => exact writes_insertEncoded hcheck
  | some issue =>
      rw [Writes, if_neg (by simp [takes, hcheck])]
      exact ⟨⟨_, rfl⟩, rfl⟩

/-- The writes that fit succeed, and no others. -/
theorem foldlM_writeAt_eq_ok_iff {ws : List (UInt64 × Bytes)} {bytes out : Bytes} :
    ws.foldlM (fun bytes w => Store.writeAt bytes w.1 w.2) bytes = .ok out ↔
      Fits bytes.length ws ∧ out = ws.foldl overlay bytes := by
  induction ws generalizing bytes with
  | nil =>
      constructor
      · exact fun h => ⟨fun w hw => (by cases hw), (Except.ok.inj h).symm⟩
      · rintro ⟨-, rfl⟩
        rfl
  | cons w ws ih =>
      have hfits : ∀ next, Store.writeAt bytes w.1 w.2 = .ok next →
          (Fits bytes.length (w :: ws) ↔ Fits next.length ws) := by
        intro next hnext
        rw [length_writeAt hnext]
        rw [writeAt_eq] at hnext
        split at hnext
        · cases hnext
        · next husize =>
            split at hnext
            · cases hnext
            · next hisize =>
                have hmax : max (max bytes.length (writeEnd w)) Store.isizeMax
                    = max bytes.length Store.isizeMax := by omega
                rw [Fits, Fits, hmax, List.forall_mem_cons]
                exact and_iff_right ⟨by omega, by omega⟩
      rw [List.foldlM_cons, List.foldl_cons]
      cases hwrite : Store.writeAt bytes w.1 w.2 with
      | ok next =>
          rw [hfits next hwrite, ← writeAt_eq_overlay hwrite]
          exact ih
      | error e =>
          constructor
          · exact fun h => (by cases h)
          · rintro ⟨hfit, -⟩
            obtain ⟨husize, hisize⟩ := hfit w List.mem_cons_self
            rw [writeAt_eq, if_neg (by omega), if_neg (by omega)] at hwrite
            cases hwrite

theorem startingBytes_keyMap :
    startingBytes (s.keyMap C key) = ((s.getBytes C key).map fun old => old.getD []).toOption := by
  have hread := readsAs_getBytes (C := C) s key
  cases hm : s.keyMap C key with
  | none =>
      rw [hm] at hread
      rw [hread]
      rfl
  | some data =>
      rw [hm] at hread
      cases data with
      | none =>
          obtain ⟨e, he⟩ := hread
          rw [he]
          rfl
      | some data =>
          rw [show s.getBytes C key = .ok (some data) from hread]
          rfl

theorem writes_setPartialMany (ws : List (UInt64 × Bytes)) :
    mapSpec C Z (s.keyMap C) (.op (.setPartialMany key ws))
      (.reply (.ofUnit (s.setPartialMany C key ws).2)) ((s.setPartialMany C key ws).1.keyMap C) := by
  rw [mapSpec, startingBytes_keyMap, Store.setPartialMany, Store.checkWriteKey]
  cases hcheck : checkKey key with
  | some issue =>
      have hrefused : Refused (s.keyMap C) (.reply (.ofUnit (.error (.invalidKey key issue)))) (s.keyMap C) :=
        ⟨⟨_, rfl⟩, rfl⟩
      have htakes : ∀ data, ¬ takes C key data = true := fun data => by simp [takes, hcheck]
      cases s.getBytes C key with
      | error e => exact hrefused
      | ok old =>
          show if Fits (old.getD []).length ws then Writes C _ key (ws.foldl overlay (old.getD [])) _ _
            else Refused _ _ _
          split
          · rw [Writes, if_neg (htakes _)]
            exact hrefused
          · exact hrefused
  | none =>
      cases s.getBytes C key with
      | error e => exact ⟨⟨_, rfl⟩, rfl⟩
      | ok old =>
          show if Fits (old.getD []).length ws then Writes C _ key (ws.foldl overlay (old.getD [])) _ _
            else Refused _ _ _
          simp only [bind, Except.bind]
          split
          · next hfits =>
              rw [foldlM_writeAt_eq_ok_iff.2 ⟨hfits, rfl⟩]
              exact writes_insertEncoded hcheck
          · next hfits =>
              cases hfold : ws.foldlM (fun bytes w => Store.writeAt bytes w.1 w.2) (old.getD []) with
              | error e => exact ⟨⟨_, rfl⟩, rfl⟩
              | ok out => exact absurd (foldlM_writeAt_eq_ok_iff.1 hfold).1 hfits

theorem writes_setJson (value : Value) :
    mapSpec C Z (s.keyMap C) (.op (.setJson key value))
      (.reply (.ofUnit (s.setJson C key value).2)) ((s.setJson C key value).1.keyMap C) := by
  show if TakesJson key value ∧ Json.HasNumbers value then
      Writes C (s.keyMap C) key (Unicode.encodeUtf8 (canonicalTree value).text) _ _
    else Refused (s.keyMap C) _ _
  split
  · next h =>
      rw [setJson_eq s h.1, canonicalToString_eq h.2]
      exact writes_set _
  · next h =>
      rcases not_and_or.1 h with hkind | hnumbers
      · rw [setJson_of_not_takesJson s hkind]
        exact ⟨⟨_, rfl⟩, rfl⟩
      · by_cases hkind : TakesJson key value
        · rw [setJson_eq s hkind, canonicalToString_eq_panic hnumbers]
          exact ⟨⟨_, rfl⟩, rfl⟩
        · rw [setJson_of_not_takesJson s hkind]
          exact ⟨⟨_, rfl⟩, rfl⟩

/-! ## The store is the map -/

theorem mapSpec_step (s : Store) (call : Call) :
    mapSpec C Z (s.keyMap C) call ((callMachine C Z).step s call).2
      (((callMachine C Z).step s call).1.keyMap C) := by
  cases call with
  | op op =>
      cases op with
      | get key =>
          simp only [callMachine, storeMachine]
          cases hget : s.getBytes C key with
          | ok data => exact ⟨rfl, _, hget ▸ readsAs_getBytes s key, rfl⟩
          | error e => exact ⟨rfl, _, hget ▸ readsAs_getBytes s key, rfl⟩
      | set key data => exact writes_set data
      | setJson key value => exact writes_setJson value
      | setPartialMany key ws => exact writes_setPartialMany ws
      | erase key =>
          refine ⟨rfl, ?_⟩
          show Backed.keyMap _ (removeKey s.document key).get (s.skipped.erase key) = _
          rw [get_removeKey_eq_update]
          exact Backed.keyMap_update none
      | erasePrefix dir =>
          refine ⟨rfl, ?_⟩
          have hnot : ∀ b : Bool, ¬ b = true ↔ (!b) = true := by decide
          have hfilter : (s.erasePrefix dir).skipped
              = s.skipped.filter fun key => (!dir.isPrefixOf key) = true :=
            Finset.filter_congr fun key _ => hnot _
          show Backed.keyMap _ (s.erasePrefix dir).document.get (s.erasePrefix dir).skipped = _
          rw [hfilter]
          refine Backed.keyMap_restrict (p := fun key => !dir.isPrefixOf key) fun l => ?_
          exact Json.Members.get_retain.trans (if_congr (decide_eq_true_iff.trans (hnot _)) rfl rfl)
  | getPartialMany key ranges =>
      refine ⟨rfl, _, readsAs_getBytes s key, ?_⟩
      exact congrArg Answer.parts (getPartialMany_eq s key ranges)
  | sizeKey key => exact ⟨rfl, _, readsAs_getBytes s key, congrArg Answer.size (sizeKey_eq s key)⟩
  | list => exact ⟨rfl, _, lists_filter _, rfl⟩
  | listPrefix dir => exact ⟨rfl, _, lists_filter _, congrArg Answer.keys (listPrefix_eq dir)⟩
  | listDir dir =>
      have hall : s.sortedKeys.filter (fun _ => true) = s.sortedKeys := List.filter_eq_self.2 fun _ _ => rfl
      exact ⟨rfl, _, hall ▸ lists_filter _, rfl⟩
  | sizePrefix dir =>
      exact ⟨rfl, s.listPrefix Z dir, _, listPrefix_eq (s := s) dir ▸ lists_filter _, totals_foldlM _ 0, rfl⟩

end Rust
