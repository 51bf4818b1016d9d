import ZarrInline.Backed.Store
import ZarrInline.Transition.Machine
import ZarrInline.TypeScript.Validator

/-!
# The TypeScript store

`store.ts` and `backing.ts`.  The operations of a store run one at a time under its lock,
so a store is a machine.  `ε` is what a backing throws.

`keyMap` is what the store is for: a map from keys to bytes, in which a value that cannot
be decoded stands as `none`.  The store is that map over every run.
-/

namespace TypeScript

variable {β ε : Type}

/-! ## Backings -/

/-- `Backing`. -/
abbrev Backing (β ε : Type) := Backed.Backing arrayIndex? JsValue β ε

/-- `MemoryBacking`: its state is the document. -/
def memoryBacking : Backing Document Empty where
  load := .ok
  persist := fun _ document => (document, .ok ())

/-- The errors of `StringBacking`. -/
inductive DocumentError where
  | codec (e : JsError)
  | notObject

/-- `requireDocumentObject`, and `toNullPrototype` after it. -/
def requireDocumentObject : JsValue → Except DocumentError Document
  | .obj ms => .ok (Json.Members.ofList ms)
  | .num (.exotic _) => .ok Json.Members.empty
  | _ => .error .notObject

/-- `canonicalStringify` of a document. -/
def documentText (document : Document) : Except JsError JsString :=
  canonicalStringify (.obj document.entries)

/-- `StringBacking`: its state is the text. -/
def stringBacking : Backing JsString DocumentError where
  load := fun text =>
    match strictParse text with
    | .ok value => requireDocumentObject value
    | .error e => .error (.codec e)
  persist := fun text document =>
    match documentText document with
    | .ok text => (text, .ok ())
    | .error e => (text, .error (.codec e))

/-! ## The store -/

/-- What an operation of the store throws. -/
inductive StoreError (ε : Type) where
  | readOnly
  | invalidKey (key : JsString) (issue : ValidationIssue)
  | setJsonMetadata (key : JsString)
  | setJsonByte (key : JsString)
  | codec (e : JsError)
  | backing (e : ε)

/-- The message of an error of the store itself. -/
def StoreError.message : StoreError ε → Option JsString
  | .readOnly => js "store is read-only"
  | .invalidKey key issue =>
      some (js "invalid store key " ++ jsonStringifyKey key ++ js ": " ++ js issue.message)
  | .setJsonMetadata key =>
      some (js "setJson: metadata key " ++ jsonStringifyKey key ++ js " takes a JSON object")
  | .setJsonByte key =>
      some (js "setJson: byte key " ++ jsonStringifyKey key ++ js " takes a JSON array or object")
  | .codec e => e.message
  | .backing _ => none

/-- The fields of `ZarrInlineStore`. -/
abbrev Store (β : Type) := Backed.Store arrayIndex? JsValue β

/-- `ZarrInlineStoreOptions`; the callback that reports issues is left out. -/
structure StoreOptions where
  readOnly : Bool := false
  strict : Bool := false

/-- What the constructor throws. -/
inductive ConstructError (ε : Type) where
  | backing (e : ε)
  | validation (issues : List ValidationIssue)

/-- The constructor. -/
def construct (B : Backing β ε) (b : β) (options : StoreOptions) :
    Except (ConstructError ε) (Store β) :=
  match B.load b with
  | .error e => .error (.backing e)
  | .ok document =>
      if options.strict then
        match validateStrict document with
        | .error issues => .error (.validation issues)
        | .ok () => .ok ⟨b, document, options.readOnly, ∅⟩
      else
        .ok ⟨b, document, options.readOnly, ((validate document).map Rules.ValidationIssue.key).toFinset⟩

/-- `#docKey`. -/
def docKey (key : JsString) : JsString :=
  match key with
  | 47 :: rest => rest
  | key => key

namespace Store

/-- `get`. -/
def get (s : Store β) (key : JsString) : Except (StoreError ε) (Option Bytes) :=
  if s.present (docKey key) then
    match s.document.get (docKey key) with
    | some value =>
        match decodeValue (docKey key) value with
        | .ok data => .ok (some data)
        | .error e => .error (.codec e)
    | none => .ok none
  else .ok none

/-- `has`. -/
def has (s : Store β) (key : JsString) : Bool := s.present (docKey key)

/-- `list`. -/
def list (s : Store β) : List JsString := s.keys

/-- `#setBytes`. -/
def setBytes (B : Backing β ε) (s : Store β) (key : JsString) (value : Bytes) :
    Store β × Except (StoreError ε) Unit :=
  if s.readOnly then (s, .error .readOnly)
  else
    match checkKey (docKey key) with
    | some issue => (s, .error (.invalidKey (docKey key) issue))
    | none =>
        match encodeValue (docKey key) value with
        | .error e => (s, .error (.codec e))
        | .ok encoded =>
            match s.commitSet B (docKey key) encoded with
            | (s, .ok ()) => (s, .ok ())
            | (s, .error e) => (s, .error (.backing e))

/-- `setJson`. -/
def setJson (B : Backing β ε) (s : Store β) (key : JsString) (value : JsValue) :
    Store β × Except (StoreError ε) Unit :=
  if isMetadataKey (docKey key) ∧ ¬ isObject value then
    (s, .error (.setJsonMetadata (docKey key)))
  else if ¬ isMetadataKey (docKey key) ∧ ¬ isArray value ∧ ¬ isObject value then
    (s, .error (.setJsonByte (docKey key)))
  else
    match canonicalStringify value with
    | .error e => (s, .error (.codec e))
    | .ok text => s.setBytes B key (utf8Encode text)

/-- `delete`. -/
def delete (B : Backing β ε) (s : Store β) (key : JsString) :
    Store β × Except (StoreError ε) Unit :=
  if s.readOnly then (s, .error .readOnly)
  else
    match s.commitErase B (docKey key) with
    | (s, .ok ()) => (s, .ok ())
    | (s, .error e) => (s, .error (.backing e))

end Store

/-! ## The store as a machine -/

/-- The operations. -/
inductive Op where
  | get (key : JsString)
  | has (key : JsString)
  | list
  | set (key : JsString) (value : Bytes)
  | setJson (key : JsString) (value : JsValue)
  | delete (key : JsString)

/-- What an operation returns or throws. -/
inductive Reply (ε : Type) where
  | bytes (data : Option Bytes)
  | present (b : Bool)
  | keys (ks : List JsString)
  | done
  | failed (e : StoreError ε)

/-- The reply of an operation that returns nothing. -/
def Reply.ofUnit : Except (StoreError ε) Unit → Reply ε
  | .ok () => .done
  | .error e => .failed e

/-- The store over a backing. -/
def storeMachine (B : Backing β ε) : Transition.Machine (Store β) Op (Reply ε) where
  step := fun s op =>
    match op with
    | .get key =>
        match s.get key with
        | .ok data => (s, .bytes data)
        | .error e => (s, .failed e)
    | .has key => (s, .present (s.has key))
    | .list => (s, .keys s.list)
    | .set key value => ((s.setBytes B key value).1, .ofUnit (s.setBytes B key value).2)
    | .setJson key value => ((s.setJson B key value).1, .ofUnit (s.setJson B key value).2)
    | .delete key => ((s.delete B key).1, .ofUnit (s.delete B key).2)

/-! ## What a write does -/

section Write

variable {B : Backing β ε} {s s' : Store β} {key : JsString} {value : Bytes}

/-- A write goes through: the key is well formed, the value is stored under it, and the
key is no longer skipped. -/
theorem setBytes_ok (h : s.setBytes B key value = (s', .ok ())) :
    s.readOnly = false ∧ checkKey (docKey key) = none ∧
      ∃ encoded, encodeValue (docKey key) value = .ok encoded ∧
        s'.document = s.document.set (docKey key) encoded ∧
        s'.skipped = s.skipped.erase (docKey key) := by
  unfold Store.setBytes at h
  split_ifs at h with hro
  · cases h
  · split at h
    · cases h
    · next hkey =>
        split at h
        · cases h
        · next encoded hencoded =>
            split at h
            · next hcommit =>
                cases h
                exact ⟨by simpa using hro, hkey, encoded, hencoded, Backed.Store.commitSet_ok hcommit⟩
            · cases h

/-- Why a write of bytes fails. -/
def SetFails (readOnly : Bool) (key : JsString) (value : Bytes) : StoreError ε → Prop
  | .readOnly => readOnly = true
  | .invalidKey _ issue => checkKey (docKey key) = some issue
  | .codec e => isMetadataKey (docKey key) = true ∧ encodeValue (docKey key) value = .error e
  | .backing _ => True
  | .setJsonMetadata _ => False
  | .setJsonByte _ => False

/-- Why a write of a value fails. -/
def SetJsonFails (readOnly : Bool) (key : JsString) (value : JsValue) (e : StoreError ε) : Prop :=
  match canonicalStringify value with
  | .ok text =>
      SetFails readOnly key (utf8Encode text) e ∨
        isMetadataKey (docKey key) = true ∧ isObject value = false ∨
        isMetadataKey (docKey key) = false ∧ isArray value = false ∧ isObject value = false
  | .error _ => True

/-- Why a removal fails. -/
def DeleteFails (readOnly : Bool) : StoreError ε → Prop
  | .readOnly => readOnly = true
  | .backing _ => True
  | _ => False

/-- A write that fails leaves the document and the skipped keys as they were. -/
theorem setBytes_error {e : StoreError ε} (h : s.setBytes B key value = (s', .error e)) :
    s'.document = s.document ∧ s'.skipped = s.skipped ∧ SetFails s.readOnly key value e := by
  unfold Store.setBytes at h
  split_ifs at h with hro
  · cases h; exact ⟨rfl, rfl, hro⟩
  · split at h
    · next issue hissue => cases h; exact ⟨rfl, rfl, hissue⟩
    · split at h
      · next e' he' =>
          cases h
          refine ⟨rfl, rfl, ?_, he'⟩
          by_contra hmeta
          have hbyte : isMetadataKey (docKey key) = false := by simpa using hmeta
          obtain ⟨w, hw, -⟩ := exists_encodeValue hbyte value
          rw [hw] at he'
          cases he'
      · split at h
        · cases h
        · next hcommit =>
            cases h
            obtain ⟨hdoc, hskip⟩ := Backed.Store.commitSet_error hcommit
            exact ⟨hdoc, hskip, trivial⟩

theorem setBytes_readOnly : (s.setBytes B key value).1.readOnly = s.readOnly := by
  unfold Store.setBytes
  split_ifs
  · rfl
  · split
    · rfl
    · split
      · rfl
      · next encoded hencoded =>
          have := @Backed.Store.commitSet_readOnly _ _ _ _ _ _ B s (docKey key) encoded
          split <;> simp_all

/-- `setJson` is `set` of the canonical text, or fails before. -/
theorem setJson_cases (B : Backing β ε) (s : Store β) (key : JsString) (value : JsValue) :
    (∃ text, canonicalStringify value = .ok text ∧
        s.setJson B key value = s.setBytes B key (utf8Encode text)) ∨
      ∃ e, s.setJson B key value = (s, .error e) ∧ SetJsonFails s.readOnly key value e := by
  unfold Store.setJson SetJsonFails
  cases htext : canonicalStringify value with
  | error e =>
      split_ifs
      · exact Or.inr ⟨_, rfl, trivial⟩
      · exact Or.inr ⟨_, rfl, trivial⟩
      · exact Or.inr ⟨_, rfl, trivial⟩
  | ok text =>
      split_ifs with hmeta hbyte
      · exact Or.inr ⟨_, rfl, Or.inr (Or.inl (by simpa using hmeta))⟩
      · exact Or.inr ⟨_, rfl, Or.inr (Or.inr (by simpa using hbyte))⟩
      · exact Or.inl ⟨text, rfl, rfl⟩

/-- A removal goes through. -/
theorem delete_ok (h : s.delete B key = (s', .ok ())) :
    s.readOnly = false ∧ s'.document = s.document.erase (docKey key) ∧
      s'.skipped = s.skipped.erase (docKey key) := by
  unfold Store.delete at h
  split_ifs at h with hro
  · cases h
  · split at h
    · next hcommit => cases h; exact ⟨by simpa using hro, Backed.Store.commitErase_ok hcommit⟩
    · cases h

/-- A removal that fails leaves the skipped keys as they were, and writes the member
back. -/
theorem delete_error {e : StoreError ε} (h : s.delete B key = (s', .error e)) :
    s'.skipped = s.skipped ∧ DeleteFails s.readOnly e ∧
      (s.readOnly = true ∧ s'.document = s.document ∨
        s.readOnly = false ∧ ∃ e', s.commitErase B (docKey key) = (s', .error e')) := by
  unfold Store.delete at h
  split_ifs at h with hro
  · cases h; exact ⟨rfl, hro, Or.inl ⟨hro, rfl⟩⟩
  · split at h
    · cases h
    · next hcommit =>
        cases h
        exact ⟨(Backed.Store.commitErase_error hcommit).2, trivial,
          Or.inr ⟨by simpa using hro, _, hcommit⟩⟩

end Write

/-! ## The map a store is -/

/-- A map from keys to bytes; `some none` is a value that cannot be decoded. -/
abbrev KeyMap := JsString → Option (Option Bytes)

/-- The map a store is: the keys in the document that are not skipped, and what their
values decode to. -/
def keyMap (s : Store β) : KeyMap := fun key =>
  if key ∈ s.skipped then none
  else (s.document.get key).map fun value => (decodeValue key value).toOption

/-- The bytes that `set` leaves at a metadata key: the canonical text of what was
parsed. -/
def canonicalBytes (data : Bytes) : Option Bytes :=
  match (do canonicalStringify (← strictParse (← utf8Decode data))) with
  | .ok text => some (utf8Encode text)
  | .error _ => none

/-- What `set` leaves at a key. -/
def storedBytes (key : JsString) (data : Bytes) : Option Bytes :=
  if isMetadataKey key then canonicalBytes data else some data

/-- What a map store does.  `readOnly` is its only parameter; a failure changes
nothing. -/
def mapSpec (readOnly : Bool) : Transition.Spec KeyMap Op (Reply ε) := fun m op reply m' =>
  match op with
  | .get key =>
      m' = m ∧
        match m (docKey key) with
        | none => reply = .bytes none
        | some none => ∃ e, reply = .failed (.codec e)
        | some (some data) => reply = .bytes (some data)
  | .has key => m' = m ∧ reply = .present (m (docKey key)).isSome
  | .list => m' = m ∧ ∃ ks, reply = .keys ks ∧ ks.Nodup ∧ ∀ key, key ∈ ks ↔ (m key).isSome
  | .set key data =>
      (reply = .done ∧ readOnly = false ∧ checkKey (docKey key) = none ∧
          m' = Function.update m (docKey key) (some (storedBytes (docKey key) data))) ∨
        (∃ e, reply = .failed e ∧ SetFails readOnly key data e) ∧ m' = m
  | .setJson key value =>
      (∃ text, canonicalStringify value = .ok text ∧ reply = .done ∧ readOnly = false ∧
          checkKey (docKey key) = none ∧
          m' = Function.update m (docKey key)
            (some (storedBytes (docKey key) (utf8Encode text)))) ∨
        (∃ e, reply = .failed e ∧ SetJsonFails readOnly key value e) ∧ m' = m
  | .delete key =>
      (reply = .done ∧ readOnly = false ∧ m' = Function.update m (docKey key) none) ∨
        (∃ e, reply = .failed e ∧ DeleteFails readOnly e) ∧ m' = m

theorem keyMap_isSome {s : Store β} {key : JsString} : (keyMap s key).isSome = s.present key := by
  unfold keyMap Backed.Store.present
  by_cases h : key ∈ s.skipped <;> simp [h]

/-- What `encodeValue` stores decodes to what the map holds. -/
theorem decodeValue_encodeValue {key : JsString} {data : Bytes} {encoded : JsValue}
    (h : encodeValue key data = .ok encoded) :
    (decodeValue key encoded).toOption = storedBytes key data := by
  unfold storedBytes
  cases hkey : isMetadataKey key with
  | true =>
      simp only [encodeValue, hkey, if_true] at h ⊢
      cases htext : utf8Decode data with
      | error e => rw [htext] at h; cases h
      | ok text =>
          cases hparsed : strictParse text with
          | error e => rw [htext] at h; simp only [bind, Except.bind, hparsed] at h; cases h
          | ok parsed =>
              rw [htext] at h
              simp only [bind, Except.bind, hparsed] at h
              split_ifs at h with hplain
              cases h
              simp only [canonicalBytes, htext, bind, Except.bind, hparsed, decodeValue, hkey, if_true,
                hplain]
              cases canonicalStringify encoded <;> rfl
  | false =>
      obtain ⟨w, hw, hdec⟩ := exists_encodeValue hkey data
      rw [h] at hw
      cases hw
      rw [hdec]
      rfl

theorem keyMap_set {s s' : Store β} {key : JsString} {encoded : JsValue}
    (hdoc : s'.document = s.document.set key encoded) (hskip : s'.skipped = s.skipped.erase key) :
    keyMap s' = Function.update (keyMap s) key (some (decodeValue key encoded).toOption) := by
  funext k
  unfold keyMap
  rw [hdoc, hskip, Json.Members.get_set]
  by_cases h : k = key
  · subst h; simp
  · simp [h, Ne.symm h]

theorem keyMap_delete {s s' : Store β} {key : JsString} (hdoc : s'.document = s.document.erase key)
    (hskip : s'.skipped = s.skipped.erase key) :
    keyMap s' = Function.update (keyMap s) key none := by
  funext k
  unfold keyMap
  rw [hdoc, hskip, Json.Members.get_erase]
  by_cases h : k = key
  · subst h; simp
  · simp [h, Ne.symm h]

theorem keyMap_congr {s s' : Store β} (hdoc : ∀ key, s'.document.get key = s.document.get key)
    (hskip : s'.skipped = s.skipped) : keyMap s' = keyMap s := by
  funext k
  simp only [keyMap, hdoc, hskip]

/-- `set` on the map. -/
theorem mapSpec_setBytes {B : Backing β ε} (s : Store β) (key : JsString) (value : Bytes) :
    ((s.setBytes B key value).2 = .ok () ∧ s.readOnly = false ∧ checkKey (docKey key) = none ∧
        keyMap (s.setBytes B key value).1
          = Function.update (keyMap s) (docKey key) (some (storedBytes (docKey key) value))) ∨
      (∃ e, (s.setBytes B key value).2 = .error e ∧ SetFails s.readOnly key value e) ∧
        keyMap (s.setBytes B key value).1 = keyMap s := by
  cases h : s.setBytes B key value with
  | mk s' r =>
      cases r with
      | ok u =>
          obtain ⟨hro, hkey, encoded, hencoded, hdoc, hskip⟩ := setBytes_ok h
          refine Or.inl ⟨rfl, hro, hkey, ?_⟩
          rw [keyMap_set hdoc hskip, decodeValue_encodeValue hencoded]
      | error e =>
          obtain ⟨hdoc, hskip, hcause⟩ := setBytes_error h
          exact Or.inr ⟨⟨e, rfl, hcause⟩, keyMap_congr (fun _ => by rw [hdoc]) hskip⟩

/-- Every step of the store is a step of the map. -/
theorem mapSpec_step (B : Backing β ε) (s : Store β) (op : Op) :
    mapSpec s.readOnly (keyMap s) op ((storeMachine B).step s op).2
      (keyMap ((storeMachine B).step s op).1) := by
  cases op with
  | get key =>
      have hpresent := @keyMap_isSome _ s (docKey key)
      simp only [storeMachine, Store.get, mapSpec, ← hpresent]
      cases hmap : keyMap s (docKey key) with
      | none => simp
      | some data =>
          have hget : ∃ value, s.document.get (docKey key) = some value ∧
              (decodeValue (docKey key) value).toOption = data := by
            unfold keyMap at hmap
            split_ifs at hmap
            obtain ⟨value, hvalue, rfl⟩ := Option.map_eq_some_iff.1 hmap
            exact ⟨value, hvalue, rfl⟩
          obtain ⟨value, hvalue, rfl⟩ := hget
          simp only [Option.isSome_some, if_true, hvalue]
          cases decodeValue (docKey key) value with
          | ok data => exact ⟨rfl, rfl⟩
          | error e => exact ⟨rfl, e, rfl⟩
  | has key => exact ⟨rfl, by rw [keyMap_isSome]; rfl⟩
  | list =>
      refine ⟨rfl, _, rfl, Backed.Store.nodup_keys, fun key => ?_⟩
      rw [keyMap_isSome, Store.list, Backed.Store.present_iff]
  | set key value =>
      rcases mapSpec_setBytes (B := B) s key value with ⟨hok, hrest⟩ | ⟨⟨e, he, hcause⟩, hmap⟩
      · exact Or.inl ⟨by simp only [storeMachine, hok, Reply.ofUnit], hrest⟩
      · exact Or.inr ⟨⟨e, by simp only [storeMachine, he, Reply.ofUnit], hcause⟩, hmap⟩
  | setJson key value =>
      rcases setJson_cases B s key value with ⟨text, htext, hset⟩ | ⟨e, he, hcause⟩
      · simp only [storeMachine, mapSpec, hset, SetJsonFails, htext]
        rcases mapSpec_setBytes (B := B) s key (utf8Encode text) with
          ⟨hok, hrest⟩ | ⟨⟨e, he, hcause⟩, hmap⟩
        · exact Or.inl ⟨text, rfl, by rw [hok]; rfl, hrest⟩
        · exact Or.inr ⟨⟨e, by rw [he]; rfl, Or.inl hcause⟩, hmap⟩
      · exact Or.inr ⟨⟨e, by simp only [storeMachine, he, Reply.ofUnit], hcause⟩, by
          simp only [storeMachine, he]⟩
  | delete key =>
      simp only [storeMachine, mapSpec]
      cases h : s.delete B key with
      | mk s' r =>
          cases r with
          | ok u =>
              obtain ⟨hro, hdoc, hskip⟩ := delete_ok h
              exact Or.inl ⟨rfl, hro, keyMap_delete hdoc hskip⟩
          | error e =>
              obtain ⟨hskip, hcause, ⟨-, hdoc⟩ | ⟨-, e', hcommit⟩⟩ := delete_error h
              · exact Or.inr ⟨⟨e, rfl, hcause⟩, keyMap_congr (fun _ => by rw [hdoc]) hskip⟩
              · exact Or.inr ⟨⟨e, rfl, hcause⟩, keyMap_congr (fun _ => by
                  rw [(Backed.Store.commitErase_error hcommit).1, Json.Members.get_undoErase]) hskip⟩

theorem delete_readOnly {B : Backing β ε} {s : Store β} {key : JsString} :
    (s.delete B key).1.readOnly = s.readOnly := by
  unfold Store.delete
  split_ifs
  · rfl
  · have := @Backed.Store.commitErase_readOnly _ _ _ _ _ _ B s (docKey key)
    split <;> simp_all

theorem readOnly_step (B : Backing β ε) (s : Store β) (op : Op) :
    ((storeMachine B).step s op).1.readOnly = s.readOnly := by
  cases op with
  | get key => simp only [storeMachine]; split <;> rfl
  | has key => rfl
  | list => rfl
  | set key value => exact setBytes_readOnly
  | setJson key value =>
      rcases setJson_cases B s key value with ⟨text, -, hset⟩ | ⟨e, he, -⟩
      · simp only [storeMachine, hset]
        exact setBytes_readOnly
      · simp only [storeMachine, he]
  | delete key => exact delete_readOnly

/-- The map of a new store: the members of the document that have no issue. -/
theorem keyMap_construct {B : Backing β ε} {b : β} {options : StoreOptions} {s : Store β}
    (h : construct B b options = .ok s) :
    s.readOnly = options.readOnly ∧ ∃ document, B.load b = .ok document ∧ ∀ key, keyMap s key =
      ((document.get key).filter fun value => (memberIssue key value).isNone).map
        fun value => (decodeValue key value).toOption := by
  unfold construct at h
  split at h
  · cases h
  · next document hload =>
      have hissue : ∀ key, key ∈ (validate document).map Rules.ValidationIssue.key ↔
          ((document.get key).filter fun value => (memberIssue key value).isNone)
            ≠ document.get key := by
        intro key
        rw [mem_keys_validate]
        cases hget : document.get key with
        | none => simp
        | some value => cases hissue : memberIssue key value <;> simp [hissue]
      have hdrop : ∀ key, key ∈ (validate document).map Rules.ValidationIssue.key →
          ((document.get key).filter fun value => (memberIssue key value).isNone) = none := by
        intro key hkey
        obtain ⟨value, hvalue, hsome⟩ := mem_keys_validate.1 hkey
        obtain ⟨issue, hissue⟩ := Option.isSome_iff_exists.1 hsome
        simp [hvalue, hissue]
      split_ifs at h with hstrict
      · split at h
        · cases h
        · next hvalid =>
            cases h
            refine ⟨rfl, document, hload, fun key => ?_⟩
            have hnone : validate document = [] := by
              unfold validateStrict at hvalid
              split_ifs at hvalid with hnil
              exact hnil
            have := (hissue key).not.1 (by simp [hnone])
            rw [not_not.1 this]
            simp [keyMap]
      · cases h
        refine ⟨rfl, document, hload, fun key => ?_⟩
        unfold keyMap
        by_cases hkey : key ∈ (validate document).map Rules.ValidationIssue.key
        · rw [if_pos (List.mem_toFinset.2 hkey), hdrop key hkey]
          rfl
        · rw [if_neg fun hmem => hkey (List.mem_toFinset.1 hmem), not_not.1 ((hissue key).not.1 hkey)]

/-- The store is a map from keys to bytes, over every run from every construction and over
every backing. -/
theorem store_refines (B : Backing β ε) (b : β) (options : StoreOptions) (s : Store β)
    (h : construct B b options = .ok s) (ops : List Op) :
    (∃ document, B.load b = .ok document ∧ ∀ key, keyMap s key =
        ((document.get key).filter fun value => (memberIssue key value).isNone).map
          fun value => (decodeValue key value).toOption) ∧
      (mapSpec options.readOnly).Run (keyMap s) ops ((storeMachine B).replies s ops)
        (keyMap ((storeMachine B).exec s ops)) := by
  obtain ⟨hro, hmap⟩ := keyMap_construct h
  refine ⟨hmap, Transition.Machine.refines (P := fun s => s.readOnly = options.readOnly) ?_ ?_ hro
    ops⟩
  · intro s op hs
    rw [readOnly_step, hs]
  · intro s op hs
    rw [← hs]
    exact mapSpec_step B s op

/-- A new store over an empty document in memory. -/
def emptyStore : Store Document := ⟨.empty, .empty, false, ∅⟩

theorem store_refines_emptyStore :
    construct memoryBacking .empty {} = .ok emptyStore ∧
      (mapSpec false).Run (keyMap emptyStore) [.set (js "/a/c/0") [1, 2], .list, .delete (js "/a/c/0")]
        ((storeMachine memoryBacking).replies emptyStore
          [.set (js "/a/c/0") [1, 2], .list, .delete (js "/a/c/0")])
        (keyMap ((storeMachine memoryBacking).exec emptyStore
          [.set (js "/a/c/0") [1, 2], .list, .delete (js "/a/c/0")])) :=
  ⟨rfl, (store_refines memoryBacking .empty {} emptyStore rfl
    [.set (js "/a/c/0") [1, 2], .list, .delete (js "/a/c/0")]).2⟩

end TypeScript
