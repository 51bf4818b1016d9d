import ZarrInline.Backed.Store
import ZarrInline.Python.Validator
import ZarrInline.Transition.Machine

/-!
# The Python store

`store.py`.  The operations of a store run one at a time under its lock, so a store is a
machine.  `ε` is what a backing raises.  The methods of the store are calls too:
`get` calls `decode_value` one call nearer to the top than `_set_bytes` calls
`encode_value`, and `set_json` calls `canonical_dumps` three calls nearer than
`_try_inline_json` does.

`Manageable` payloads are what a writable store takes at a byte key, unless the backing
fails (`setBytes_cases`).
-/

namespace Python

variable {β ε : Type}

/-- `Backing`. -/
abbrev Backing (β ε : Type) := Backed.Backing (@Json.noRank PyString) PyValue β ε

/-- `MemoryBacking`: its state is the document. -/
def memoryBacking : Backing Document Empty where
  load := .ok
  persist := fun _ document => (document, .ok ())

/-- What an operation of the store raises. -/
inductive StoreError (ε : Type) where
  | readOnly
  | invalidKey (key : PyString) (issue : ValidationIssue)
  | setJsonMetadata (key : PyString)
  | setJsonByte (key : PyString)
  | codec (e : PyError)
  | backing (e : ε)

/-- The message of an error of the store itself, with keys as `repr` shows them. -/
def StoreError.message (repr : PyString → PyString) : StoreError ε → Option PyString
  | .readOnly => none
  | .invalidKey key issue =>
      some (py "invalid store key " ++ repr key ++ py ": " ++ py issue.message)
  | .setJsonMetadata key =>
      some (py "set_json: metadata key " ++ repr key ++ py " takes a JSON object")
  | .setJsonByte key =>
      some (py "set_json: byte key " ++ repr key ++ py " takes a JSON array or object")
  | .codec (.value e) => e.message repr
  | .codec .recursion => none
  | .backing _ => none

/-- The fields of `ZarrInlineStore`. -/
abbrev Store (β : Type) := Backed.Store (@Json.noRank PyString) PyValue β

/-- What the constructor raises. -/
inductive ConstructError (ε : Type) where
  | backing (e : ε)
  | validation (issues : List ValidationIssue)

/-- `__init__`, `strict` standing for `Strictness.STRICT`; the warnings are left out. -/
def construct (B : Backing β ε) (b : β) (readOnly strict : Bool) :
    Except (ConstructError ε) (Store β) :=
  match B.load b with
  | .error e => .error (.backing e)
  | .ok document =>
      if strict then
        match validateStrict document with
        | .error issues => .error (.validation issues)
        | .ok () => .ok ⟨b, document, readOnly, ∅⟩
      else
        .ok ⟨b, document, readOnly,
          ((validate document).map Rules.ValidationIssue.key).toFinset⟩

/-- The interpreter, seen from `n` calls nearer to the top. -/
def Interpreter.nearer (I : Interpreter) (n : ℕ) : Interpreter := { I with frames := I.frames + n }

namespace Store

/-- `get`, without a byte range. -/
def get (I : Interpreter) (s : Store β) (key : PyString) : Except (StoreError ε) (Option Bytes) :=
  if s.present key then
    match s.document.get key with
    | some value =>
        match decodeValue (I.nearer 1) key value with
        | .ok data => .ok (some data)
        | .error e => .error (.codec e)
    | none => .ok none
  else .ok none

/-- `_set_bytes`, and so `set`. -/
def setBytes (I : Interpreter) (B : Backing β ε) (s : Store β) (key : PyString) (value : Bytes) :
    Store β × Except (StoreError ε) Unit :=
  if s.readOnly then (s, .error .readOnly)
  else
    match checkKey key with
    | some issue => (s, .error (.invalidKey key issue))
    | none =>
        match encodeValue I key value with
        | .error e => (s, .error (.codec e))
        | .ok encoded =>
            match s.commitSet B key encoded with
            | (s, .ok ()) => (s, .ok ())
            | (s, .error e) => (s, .error (.backing e))

/-- `set_json`. -/
def setJson (I : Interpreter) (B : Backing β ε) (s : Store β) (key : PyString) (value : PyValue) :
    Store β × Except (StoreError ε) Unit :=
  if isMetadataKey key ∧ ¬ isDict value then (s, .error (.setJsonMetadata key))
  else if ¬ isMetadataKey key ∧ ¬ isList value ∧ ¬ isDict value then (s, .error (.setJsonByte key))
  else
    match do utf8Encode (← canonicalDumps I value (I.frames + 3)) with
    | .error e => (s, .error (.codec e))
    | .ok data => s.setBytes I B key data

/-- `delete`. -/
def delete (B : Backing β ε) (s : Store β) (key : PyString) :
    Store β × Except (StoreError ε) Unit :=
  if s.readOnly then (s, .error .readOnly)
  else
    match s.commitErase B key with
    | (s, .ok ()) => (s, .ok ())
    | (s, .error e) => (s, .error (.backing e))

end Store

/-! ## The store as a machine -/

/-- The operations. -/
inductive Op where
  | get (key : PyString)
  | exists (key : PyString)
  | list
  | set (key : PyString) (value : Bytes)
  | setJson (key : PyString) (value : PyValue)
  | delete (key : PyString)

/-- What an operation returns or raises. -/
inductive Reply (ε : Type) where
  | bytes (data : Option Bytes)
  | present (b : Bool)
  | keys (ks : List PyString)
  | done
  | failed (e : StoreError ε)

/-- The reply of an operation that returns nothing. -/
def Reply.ofUnit : Except (StoreError ε) Unit → Reply ε
  | .ok () => .done
  | .error e => .failed e

/-- The store over a backing. -/
def storeMachine (I : Interpreter) (B : Backing β ε) :
    Transition.Machine (Store β) Op (Reply ε) where
  step := fun s op =>
    match op with
    | .get key =>
        match Store.get I s key with
        | .ok data => (s, .bytes data)
        | .error e => (s, .failed e)
    | .exists key => (s, .present (s.present key))
    | .list => (s, .keys s.keys)
    | .set key value =>
        ((Store.setBytes I B s key value).1, .ofUnit (Store.setBytes I B s key value).2)
    | .setJson key value =>
        ((Store.setJson I B s key value).1, .ofUnit (Store.setJson I B s key value).2)
    | .delete key => ((Store.delete B s key).1, .ofUnit (Store.delete B s key).2)

/-! ## What a write does -/

section Write

variable {I : Interpreter} {B : Backing β ε} {s s' : Store β} {key : PyString}

/-- A write that fails changes nothing. -/
theorem setBytes_error {value : Bytes} {e : StoreError ε}
    (h : s.setBytes I B key value = (s', .error e)) :
    s'.document = s.document ∧ s'.skipped = s.skipped := by
  unfold Store.setBytes at h
  split_ifs at h with hro
  · cases h; exact ⟨rfl, rfl⟩
  · split at h
    · cases h; exact ⟨rfl, rfl⟩
    · split at h
      · cases h; exact ⟨rfl, rfl⟩
      · split at h
        · cases h
        · next hcommit => cases h; exact Backed.Store.commitSet_error hcommit

/-- `set_json` is `set` of the canonical text, or fails before. -/
theorem setJson_cases (I : Interpreter) (B : Backing β ε) (s : Store β) (key : PyString)
    (value : PyValue) :
    (∃ data, s.setJson I B key value = s.setBytes I B key data) ∨
      ∃ e, s.setJson I B key value = (s, .error e) := by
  unfold Store.setJson
  split_ifs
  · exact Or.inr ⟨_, rfl⟩
  · exact Or.inr ⟨_, rfl⟩
  · split
    · exact Or.inr ⟨_, rfl⟩
    · next data _ => exact Or.inl ⟨data, rfl⟩

/-- A removal that fails leaves the skipped keys as they were, and writes the member
back. -/
theorem delete_error {e : StoreError ε} (h : s.delete B key = (s', .error e)) :
    s.readOnly = true ∧ s' = s ∨
      s.readOnly = false ∧ ∃ e', s.commitErase B key = (s', .error e') := by
  unfold Store.delete at h
  split_ifs at h with hro
  · cases h; exact Or.inl ⟨hro, rfl⟩
  · split at h
    · cases h
    · next hcommit => cases h; exact Or.inr ⟨by simpa using hro, _, hcommit⟩

/-- A writable store takes a manageable payload at a byte key, unless the backing fails,
and gives up at the recursion limit on any other. -/
theorem setBytes_cases (hro : s.readOnly = false) (hkey : checkKey key = none)
    (hbyte : isMetadataKey key = false) (value : Bytes) :
    Manageable I value ∧ ((s.setBytes I B key value).2 = .ok () ∨
        ∃ e, (s.setBytes I B key value).2 = .error (.backing e)) ∨
      ¬ Manageable I value ∧ (s.setBytes I B key value).2 = .error (.codec .recursion) := by
  rcases encodeValue_cases (I := I) hbyte value with ⟨⟨w, hw, -⟩, hman⟩ | ⟨herr, hman⟩
  · refine Or.inl ⟨hman, ?_⟩
    simp only [Store.setBytes, hro, Bool.false_eq_true, if_false, hkey, hw]
    split
    · exact Or.inl rfl
    · next e _ => exact Or.inr ⟨e, rfl⟩
  · refine Or.inr ⟨hman, ?_⟩
    simp only [Store.setBytes, hro, Bool.false_eq_true, if_false, hkey, herr]

end Write

/-! ## Payloads -/

/-- Every payload of a byte key is stored, decodes to itself, and is refused by a
writable store only when the backing fails, if and only if it is manageable. -/
theorem byteKey_accepts_iff (I : Interpreter) (key : PyString) (hkey : checkKey key = none)
    (hbyte : isMetadataKey key = false) (data : Bytes) :
    ((∃ w, encodeValue I key data = .ok w ∧ decodeValue I key w = .ok data) ∧
        ∀ (β ε : Type) (B : Backing β ε) (s : Store β), s.readOnly = false →
          ∀ e, (s.setBytes I B key data).2 = .error e → ∃ e', e = .backing e') ↔
      Manageable I data := by
  constructor
  · rintro ⟨⟨w, hw, -⟩, -⟩
    rcases encodeValue_cases (I := I) hbyte data with ⟨-, hman⟩ | ⟨herr, -⟩
    · exact hman
    · rw [hw] at herr
      cases herr
  · intro hman
    constructor
    · rcases encodeValue_cases (I := I) hbyte data with ⟨hw, -⟩ | ⟨-, hnot⟩
      · exact hw
      · exact absurd hman hnot
    · intro β ε B s hro e he
      rcases setBytes_cases (I := I) (B := B) hro hkey hbyte data with
        ⟨-, hok | ⟨e', hb⟩⟩ | ⟨hnot, -⟩
      · rw [hok] at he
        cases he
      · rw [hb] at he
        exact ⟨e', (Except.error.inj he).symm⟩
      · exact absurd hman hnot

/-- An interpreter that reads 10000 nested arrays and nests 990 calls. -/
def cpython : Interpreter where
  scanDepth := 10000
  frames := 990
  textFrames := 2
  floatFrames := 3
  floatText := fun x => if x.IsFinite then some x.toText else none
  floatText_of_isFinite := fun _ h => if_pos h
  floatText_of_not_isFinite := fun _ h => if_neg h

theorem byteKey_accepts_iff_chunk :
    checkKey (py "a/c/0") = none ∧ isMetadataKey (py "a/c/0") = false ∧
      (((∃ w, encodeValue cpython (py "a/c/0") [91, 49, 93] = .ok w ∧
            decodeValue cpython (py "a/c/0") w = .ok [91, 49, 93]) ∧
          ∀ (β ε : Type) (B : Backing β ε) (s : Store β), s.readOnly = false →
            ∀ e, (s.setBytes cpython B (py "a/c/0") [91, 49, 93]).2 = .error e →
              ∃ e', e = .backing e') ↔ Manageable cpython [91, 49, 93]) :=
  ⟨by decide, by decide, byteKey_accepts_iff cpython (py "a/c/0") (by decide) (by decide) _⟩

/-- A chunk of bytes `[`, one more than can be nested, is not stored. -/
theorem encodeValue_brackets :
    checkKey (py "a/c/0") = none ∧ isMetadataKey (py "a/c/0") = false ∧
      encodeValue cpython (py "a/c/0") (List.replicate 10001 91) = .error .recursion := by
  refine ⟨by decide, by decide, ?_⟩
  have hkey : isMetadataKey (py "a/c/0") = false := by decide
  rcases encodeValue_cases (I := cpython) hkey (List.replicate 10001 91) with ⟨-, hman⟩ | ⟨herr, -⟩
  · exact absurd hman (not_manageable_brackets cpython)
  · exact herr

end Python
