import ZarrInline.Python.Listing

/-!
# The map that the Python store is

To its callers a store is a map from keys to bytes, in which a value may be undecodable.
`mapSpec` says what each call does to the map and what it answers, without documents, JSON
values, skipped keys or a backing.  A write is refused by a read-only store, at a key or of
bytes that are not taken, or when the backing fails, and then changes nothing.
-/

namespace Python

variable {β ε : Type} {I : Interpreter} {B : Backing β ε} {s : Store β} {key : PyString}

/-! ## The specification -/

/-- A map from keys to bytes; `some none` is a value that cannot be decoded. -/
abbrev KeyMap := PyString → Option (Option Bytes)

/-- What `get` makes of a value. -/
def readValue (I : Interpreter) (key : PyString) (value : PyValue) : Option Bytes :=
  (decodeValue (I.nearer 1) key value).toOption

/-- The map a store is. -/
def Store.keyMap (I : Interpreter) (s : Store β) : KeyMap := Backed.Store.keyMap (readValue I) s

/-- The bytes are taken at the key. -/
def Takes (I : Interpreter) (key : PyString) (data : Bytes) : Prop :=
  checkKey key = none ∧
    if isMetadataKey key then ∃ parsed, strictLoadsBytes I data = .ok parsed ∧ isDict parsed = true
    else Manageable I data

/-- What a key has after a write: at a metadata key, the canonical text of what was parsed. -/
def storedBytes (I : Interpreter) (key : PyString) (data : Bytes) : Option Bytes :=
  if isMetadataKey key then
    match strictLoadsBytes I data with
    | .ok parsed => readValue I key parsed
    | .error _ => none
  else some data

/-- The kinds of value that `set_json` takes at a key. -/
def TakesJson (key : PyString) (value : PyValue) : Prop :=
  if isMetadataKey key then isDict value = true else isList value = true ∨ isDict value = true

instance (value : PyValue) : Decidable (TakesJson key value) := by
  unfold TakesJson
  infer_instance

/-- The bytes that `set_json` sets. -/
def jsonBytes (I : Interpreter) (key : PyString) (value : PyValue) : Option Bytes :=
  if TakesJson key value then
    (do utf8Encode (← canonicalDumps I value (I.frames + 3)) : Except PyError Bytes).toOption
  else none

/-- What reading a key gives. -/
def ReadsAs (r : Except (StoreError ε) (Option Bytes)) : Option (Option Bytes) → Prop
  | none => r = .ok none
  | some none => ∃ e, r = .error (.codec e)
  | some (some data) => r = .ok (some data)

/-- The backing raised. -/
def StoreError.IsBacking : StoreError ε → Prop
  | .backing _ => True
  | _ => False

/-- Bytes are written; or the call fails, nothing changes, and only the backing can be to blame if
the store is writable and the bytes are taken. -/
def Writes (I : Interpreter) (readOnly : Bool) (m : KeyMap) (key : PyString) (data : Bytes)
    (answer : Answer ε) (m' : KeyMap) : Prop :=
  (answer = .reply .done ∧ readOnly = false ∧ Takes I key data ∧
      m' = Function.update m key (some (storedBytes I key data))) ∨
    (∃ e, answer = .reply (.failed e) ∧ (readOnly = false → Takes I key data → e.IsBacking)) ∧ m' = m

/-- What the calls do to the map. -/
def mapSpec (I : Interpreter) (readOnly : Bool) : Transition.Spec KeyMap Call (Answer ε) :=
  fun m call answer m' =>
    match call with
    | .op (.get key) => m' = m ∧ ∃ r, ReadsAs r (m key) ∧ answer = .ofGet r
    | .getRange key byteRange =>
        m' = m ∧ ∃ r, ReadsAs r (m key) ∧
          answer = .ofGet (r.map fun data => data.map fun bytes => applyByteRange bytes byteRange)
    | .getPartialValues keyRanges =>
        m' = m ∧
          if ∃ kr ∈ keyRanges, m kr.1 = some none then ∃ e, answer = .values (.error (.codec e))
          else answer = .values (.ok (keyRanges.map fun kr =>
            (m kr.1).join.map fun bytes => applyByteRange bytes kr.2))
    | .op (.exists key) => m' = m ∧ answer = .reply (.present (m key).isSome)
    | .op .list =>
        m' = m ∧ ∃ keys, keys.Nodup ∧ (∀ key, key ∈ keys ↔ (m key).isSome) ∧ answer = .reply (.keys keys)
    | .op (.set key data) => Writes I readOnly m key data answer m'
    | .op (.setJson key value) =>
        match jsonBytes I key value with
        | some data => Writes I readOnly m key data answer m'
        | none => (∃ e, answer = .reply (.failed e) ∧ ¬ e.IsBacking) ∧ m' = m
    | .op (.delete key) =>
        (answer = .reply .done ∧ readOnly = false ∧ m' = Function.update m key none) ∨
          (∃ e, answer = .reply (.failed e) ∧ (readOnly = false → e.IsBacking)) ∧ m' = m

/-! ## Reading -/

theorem readsAs_get (s : Store β) (key : PyString) :
    ReadsAs (s.get I key : Except (StoreError ε) (Option Bytes)) (s.keyMap I key) := by
  rw [Store.get, Store.keyMap, Backed.Store.keyMap, Backed.keyMap, Backed.Store.present]
  by_cases hskip : key ∈ s.skipped
  · simp [hskip, ReadsAs]
  · cases hget : s.document.get key with
    | none => simp [hskip, ReadsAs]
    | some value =>
        cases hdecode : decodeValue (I.nearer 1) key value with
        | ok data => simp [hskip, ReadsAs, readValue, hdecode, Except.toOption]
        | error e => simp [hskip, ReadsAs, readValue, hdecode, Except.toOption]

theorem get_eq_join (h : s.keyMap I key ≠ some none) :
    (s.get I key : Except (StoreError ε) (Option Bytes)) = .ok (s.keyMap I key).join := by
  have hread := readsAs_get (I := I) (ε := ε) s key
  cases hm : s.keyMap I key with
  | none =>
      rw [hm] at hread
      exact hread
  | some data =>
      rw [hm] at hread
      cases data with
      | none => exact absurd hm h
      | some bytes => exact hread

/-- The values are read one by one, up to the first that cannot be decoded. -/
theorem getPartialValues_spec (s : Store β) (keyRanges : List (PyString × Option ByteRequest)) :
    if ∃ kr ∈ keyRanges, s.keyMap I kr.1 = some none then
      ∃ e, s.getPartialValues I keyRanges
        = (.error (.codec e) : Except (StoreError ε) (List (Option Bytes)))
    else s.getPartialValues I keyRanges
      = (.ok (keyRanges.map fun kr => (s.keyMap I kr.1).join.map fun bytes => applyByteRange bytes kr.2) :
        Except (StoreError ε) (List (Option Bytes))) := by
  induction keyRanges with
  | nil => exact (if_neg (by simp)).mpr rfl
  | cons kr krs ih =>
      rw [Store.getPartialValues, List.mapM_cons, ← Store.getPartialValues, Store.getRange]
      by_cases hm : s.keyMap I kr.1 = some none
      · have hread := readsAs_get (I := I) (ε := ε) s kr.1
        rw [hm] at hread
        obtain ⟨e, he⟩ := hread
        rw [if_pos ⟨kr, List.mem_cons_self, hm⟩, he]
        exact ⟨e, rfl⟩
      · rw [get_eq_join hm]
        split
        · next hbad =>
            obtain ⟨e, he⟩ := (if_pos (by simpa [hm] using hbad)).mp ih
            exact ⟨e, by rw [he]; rfl⟩
        · next hgood =>
            rw [(if_neg (by simpa [hm] using hgood)).mp ih]
            rfl

/-! ## Writing -/

/-- Bytes that are taken are encoded as a value that is read as what the map is to have. -/
theorem encodeValue_of_takes {data : Bytes} (h : Takes I key data) :
    ∃ value, encodeValue I key data = .ok value ∧ readValue I key value = storedBytes I key data := by
  obtain ⟨-, h⟩ := h
  rw [storedBytes]
  cases hkey : isMetadataKey key with
  | false =>
      rw [hkey] at h
      rcases encodeValue_cases (I := I) hkey data with ⟨⟨w, hw, hdecode⟩, -⟩ | ⟨-, hnot⟩
      · exact ⟨w, hw, congrArg Except.toOption (decodeValue_nearer 1 hdecode)⟩
      · exact absurd h hnot
  | true =>
      rw [hkey] at h
      obtain ⟨parsed, hparsed, hdict⟩ := h
      refine ⟨parsed, ?_, ?_⟩
      · rw [encodeValue, if_pos hkey, hparsed]
        exact if_pos hdict
      · rw [if_pos rfl, hparsed]

/-- Bytes that are not taken at a key that R1 allows are not encoded. -/
theorem encodeValue_of_not_takes {data : Bytes} (h : ¬ Takes I key data) (hcheck : checkKey key = none) :
    ∃ e, encodeValue I key data = .error e := by
  rw [Takes, hcheck, and_iff_right rfl] at h
  cases hkey : isMetadataKey key with
  | false =>
      rw [hkey] at h
      rcases encodeValue_cases (I := I) hkey data with ⟨-, hman⟩ | ⟨herror, -⟩
      · exact absurd hman h
      · exact ⟨_, herror⟩
  | true =>
      rw [hkey, if_pos rfl, not_exists] at h
      rw [encodeValue, if_pos hkey]
      cases hparsed : strictLoadsBytes I data with
      | error e => exact ⟨e, rfl⟩
      | ok parsed =>
          have hdict : ¬ isDict parsed = true := fun hdict => h parsed ⟨hparsed, hdict⟩
          exact ⟨_, if_neg hdict⟩

theorem writes_setBytes (s : Store β) (data : Bytes) :
    Writes I s.readOnly (s.keyMap I) key data (.reply (.ofUnit (s.setBytes I B key data).2))
      ((s.setBytes I B key data).1.keyMap I) := by
  rw [Store.setBytes]
  cases hro : s.readOnly with
  | true => exact .inr ⟨⟨_, rfl, fun h => (by cases h)⟩, rfl⟩
  | false =>
      rw [if_neg Bool.false_ne_true]
      cases hcheck : checkKey key with
      | some issue =>
          refine .inr ⟨⟨_, rfl, fun _ htakes => ?_⟩, rfl⟩
          rw [Takes, hcheck] at htakes
          cases htakes.1
      | none =>
          by_cases htakes : Takes I key data
          · obtain ⟨value, hvalue, hstored⟩ := encodeValue_of_takes htakes
            rcases Backed.Store.keyMap_commitSet (readValue I) B s key value with ⟨hok, hmap⟩ | ⟨⟨e, he⟩, hmap⟩
            · simp only [hvalue]
              split
              · next s' hcommit =>
                  rw [hcommit, hstored] at hmap
                  exact .inl ⟨rfl, rfl, htakes, hmap⟩
              · next s' e hcommit =>
                  rw [hcommit] at hok
                  cases hok
            · simp only [hvalue]
              split
              · next s' hcommit =>
                  rw [hcommit] at he
                  cases he
              · next s' e' hcommit =>
                  rw [hcommit] at hmap
                  exact .inr ⟨⟨_, rfl, fun _ _ => trivial⟩, hmap⟩
          · obtain ⟨e, he⟩ := encodeValue_of_not_takes htakes hcheck
            simp only [he]
            exact .inr ⟨⟨_, rfl, fun _ h => absurd h htakes⟩, rfl⟩

/-- `set_json` sets the canonical text of a value of a kind it takes. -/
theorem setJson_eq {value : PyValue} (h : TakesJson key value) :
    s.setJson I B key value =
      match (do utf8Encode (← canonicalDumps I value (I.frames + 3)) : Except PyError Bytes) with
      | .error e => (s, .error (.codec e))
      | .ok data => s.setBytes I B key data := by
  unfold TakesJson at h
  rw [Store.setJson]
  split at h
  · next hkey => exact (if_neg fun hne => hne.2 h).trans (if_neg fun hne => hne.1 hkey)
  · next hkey => exact (if_neg fun hne => hkey hne.1).trans (if_neg fun hne => h.elim hne.2.1 hne.2.2)

/-- A value of another kind is refused. -/
theorem setJson_of_not_takesJson {value : PyValue} (h : ¬ TakesJson key value) :
    ∃ e : StoreError ε, ¬ e.IsBacking ∧ s.setJson I B key value = (s, .error e) := by
  unfold TakesJson at h
  rw [Store.setJson]
  split at h
  · next hkey => exact ⟨_, id, if_pos ⟨hkey, h⟩⟩
  · next hkey =>
      rw [not_or] at h
      exact ⟨_, id, (if_neg fun hne => hkey hne.1).trans (if_pos ⟨hkey, h⟩)⟩

theorem writes_setJson (s : Store β) (value : PyValue) :
    mapSpec I s.readOnly (s.keyMap I) (.op (.setJson key value))
      (.reply (.ofUnit (s.setJson I B key value).2)) ((s.setJson I B key value).1.keyMap I) := by
  rw [mapSpec, jsonBytes]
  split
  · next data hdata =>
      split at hdata
      · next htakes =>
          rw [setJson_eq htakes]
          cases hbytes : (do utf8Encode (← canonicalDumps I value (I.frames + 3)) : Except PyError Bytes) with
          | error e =>
              rw [hbytes] at hdata
              cases hdata
          | ok bytes =>
              rw [hbytes] at hdata
              obtain rfl := Option.some.inj hdata
              exact writes_setBytes s bytes
      · cases hdata
  · next hdata =>
      split at hdata
      · next htakes =>
          rw [setJson_eq htakes]
          cases hbytes : (do utf8Encode (← canonicalDumps I value (I.frames + 3)) : Except PyError Bytes) with
          | error e => exact ⟨⟨_, rfl, id⟩, rfl⟩
          | ok bytes =>
              rw [hbytes] at hdata
              cases hdata
      · next hkind =>
          obtain ⟨e, he, heq⟩ := setJson_of_not_takesJson (I := I) (B := B) (s := s) hkind
          rw [heq]
          exact ⟨⟨e, rfl, he⟩, rfl⟩

theorem deletes_delete (s : Store β) :
    mapSpec I s.readOnly (s.keyMap I) (.op (.delete key)) (.reply (.ofUnit (s.delete B key).2))
      ((s.delete B key).1.keyMap I) := by
  rw [mapSpec, Store.delete]
  cases hro : s.readOnly with
  | true => exact .inr ⟨⟨_, rfl, fun h => (by cases h)⟩, rfl⟩
  | false =>
      rw [if_neg Bool.false_ne_true]
      rcases Backed.Store.keyMap_commitErase (readValue I) B s key with
        ⟨hok, hmap⟩ | ⟨⟨e, he⟩, hmap⟩
      · split
        · next s' hcommit =>
            rw [hcommit] at hmap
            exact .inl ⟨rfl, rfl, hmap⟩
        · next s' e hcommit =>
            rw [hcommit] at hok
            cases hok
      · split
        · next s' hcommit =>
            rw [hcommit] at he
            cases he
        · next s' e' hcommit =>
            rw [hcommit] at hmap
            exact .inr ⟨⟨_, rfl, fun _ => trivial⟩, hmap⟩

/-! ## The store is the map -/

theorem mapSpec_step (I : Interpreter) (B : Backing β ε) (s : Store β) (call : Call) :
    mapSpec I s.readOnly (s.keyMap I) call ((callMachine I B).step s call).2
      (((callMachine I B).step s call).1.keyMap I) := by
  cases call with
  | op op =>
      cases op with
      | get key =>
          have hread := readsAs_get (I := I) (ε := ε) s key
          simp only [callMachine, storeMachine]
          cases hget : (s.get I key : Except (StoreError ε) _) with
          | ok data => exact ⟨rfl, _, hget ▸ hread, rfl⟩
          | error e => exact ⟨rfl, _, hget ▸ hread, rfl⟩
      | «exists» key =>
          refine ⟨rfl, congrArg (fun b => Answer.reply (.present b)) ?_⟩
          exact Backed.Store.keyMap_isSome_eq_present.symm
      | list =>
          exact ⟨rfl, s.keys, Backed.Store.nodup_keys, fun key => Backed.Store.mem_keys_iff_keyMap_isSome, rfl⟩
      | set key data => exact writes_setBytes s data
      | setJson key value => exact writes_setJson s value
      | delete key => exact deletes_delete s
  | getRange key byteRange => exact ⟨rfl, _, readsAs_get s key, rfl⟩
  | getPartialValues keyRanges =>
      refine ⟨rfl, ?_⟩
      have hspec := getPartialValues_spec (I := I) (ε := ε) s keyRanges
      split
      · next hbad =>
          obtain ⟨e, he⟩ := (if_pos hbad).mp hspec
          exact ⟨e, congrArg Answer.values he⟩
      · next hgood => exact congrArg Answer.values ((if_neg hgood).mp hspec)

end Python
