import ZarrInline.Backed.Synced
import ZarrInline.Json.Indent
import ZarrInline.Numeric.Repr
import ZarrInline.Python.Conversion

/-!
# The document in a file

`FileBacking` of `backing.py`.  A file that is not there loads as the empty document.
`persist` makes the directory, writes the text of the document, and opens the file, which
empties it, before it encodes and writes the text; each step may fail.

What is written in full reads back as the document (`strictLoads_dumps`).  What is not, or
has no encoding, leaves a file that is empty or cut off, so a store keeps its last document
on disk in the runs whose steps are all `Harmless`.
-/

namespace Python

open Numeric (Text Double NumberToken)

/-! ## `json.dumps` -/

/-- What `json.dumps` raises. -/
inductive DumpsError where
  | intDigits
  | nonFinite
  | notSerializable (type : PyString)
  | recursion

/-- What the source leaves to the system: the nesting at which `json.dumps` gives up, and the
encoding of text files, with the translation of line ends. -/
structure FileHost where
  dumpsDepth : ℕ
  encode : Text → Option Bytes
  decode : Bytes → Option PyString
  decode_encode : ∀ text bytes, '\r'.toNat ∉ text → encode text = some bytes →
    decode bytes = some text

/-- The number token of an atom, a float by its `repr`. -/
def reprToken : PyAtom → NumberToken
  | .int i => .ofInt i
  | .float x => x.reprToken
  | _ => .ofInt 0

/-- `json.dumps` of what is neither a string nor a container.  A file loads to no dict with
odd names. -/
def dumpsAtom : PyAtom → Except DumpsError Text
  | .int i =>
      if (Numeric.natDigits i.natAbs).length ≤ maxStrDigits then .ok (NumberToken.ofInt i).render
      else .error .intDigits
  | .float x => if x.IsFinite then .ok x.reprToken.render else .error .nonFinite
  | .oddDict name => .error (.notSerializable name)
  | .other type => .error (.notSerializable type)

/-- `json.dumps(value, ensure_ascii=False, allow_nan=False, indent=2)`. -/
def dumps (host : FileHost) (value : PyValue) : Except DumpsError Text :=
  Json.writeIndented (fun s => Json.strText (Json.canonicalItems s)) dumpsAtom
    (fun level => if level < host.dumpsDepth then .ok () else .error .recursion) value 0

/-! ## The backing -/

/-- What the backing raises. -/
inductive FileError where
  /-- An `OSError`. -/
  | os
  | dumps (e : DumpsError)
  /-- A text without an encoding. -/
  | unicodeEncode
  /-- Bytes that are no encoding. -/
  | unicodeDecode
  | codec (e : PyError)
  | notObject (type : PyString)

/-- `type(value).__name__`. -/
def typeName : PyValue → PyString
  | .null => py "NoneType"
  | .bool _ => py "bool"
  | .str _ => py "str"
  | .num (.int _) => py "int"
  | .num (.float _) => py "float"
  | .num (.oddDict _) => py "dict"
  | .num (.other type) => type
  | .arr _ => py "list"
  | .obj _ => py "dict"

/-- The message of an error of the source. -/
def FileError.message (repr : PyString → PyString) : FileError → Option PyString
  | .notObject type =>
      some (py "document error: top-level value must be a JSON object, got " ++ type)
  | .codec (.value e) => e.message repr
  | _ => none

/-- `require_document` of a value that was parsed. -/
def requireDocument : PyValue → Except FileError Document
  | .obj members => .ok (.ofList members)
  | value => .error (.notObject (typeName value))

/-- `load`. -/
def loadFile (I : Interpreter) (host : FileHost) : Option Bytes → Except FileError Document
  | none => .ok .empty
  | some bytes =>
      match host.decode bytes with
      | none => .error .unicodeDecode
      | some text =>
          match strictLoads I text with
          | .ok value => requireDocument value
          | .error e => .error (.codec e)

/-- Where the system fails in a call of `persist`: at the directory, at opening the file, or
when so many bytes are written. -/
inductive Fault where
  | directory
  | opening
  | writing (written : ℕ)
deriving DecidableEq

/-- `Path.write_text`: the file is emptied when it is opened. -/
def writeText (host : FileHost) (fault : Option Fault) (file : Option Bytes) (text : Text) :
    Option Bytes × Except FileError Unit :=
  if fault = some .opening then (file, .error .os)
  else
    match host.encode text with
    | none => (some [], .error .unicodeEncode)
    | some bytes =>
        match fault with
        | some (.writing written) => (some (bytes.take written), .error .os)
        | _ => (some bytes, .ok ())

/-- `persist`. -/
def persistFile (host : FileHost) (fault : Option Fault) (file : Option Bytes) (document : Document) :
    Option Bytes × Except FileError Unit :=
  if fault = some .directory then (file, .error .os)
  else
    match dumps host (.obj document.entries) with
    | .error e => (file, .error (.dumps e))
    | .ok text => writeText host fault file text

/-- `FileBacking`: its state is the file, if there is one. -/
def fileBacking (I : Interpreter) (host : FileHost) (fault : Option Fault) :
    Backing (Option Bytes) FileError where
  load := loadFile I host
  persist := persistFile host fault

/-- A store over a file.  What fails in an operation is up to the system. -/
def fileMachine (I : Interpreter) (host : FileHost) :
    Transition.Machine (Store (Option Bytes)) (Op × Option Fault) (Reply FileError) where
  step := fun s o => (storeMachine I (fileBacking I host o.2)).step s o.1

/-! ## Reading back what was written -/

section Dumps

variable {I : Interpreter} {host : FileHost}

theorem dumpsAtom_eq_ok {a : PyAtom} {t : Text} (h : dumpsAtom a = .ok t) :
    t = (reprToken a).render ∧ acceptsNumber (reprToken a) = true ∧ numberValue (reprToken a) = a := by
  cases a with
  | int i =>
      rw [dumpsAtom] at h
      split at h
      · next hlen =>
          cases h
          have hint := NumberToken.isInteger_ofInt i
          refine ⟨rfl, ?_, ?_⟩
          · rw [reprToken, acceptsNumber, if_pos hint]
            exact decide_eq_true hlen
          · rw [reprToken, numberValue, if_pos hint, NumberToken.intValue_ofInt]
      · cases h
  | float x =>
      rw [dumpsAtom] at h
      split at h
      · next hx =>
          cases h
          have hfrac := Double.not_isInteger_reprToken x
          refine ⟨rfl, ?_, ?_⟩
          · rw [reprToken, acceptsNumber, if_neg hfrac, Double.ofToken_reprToken hx]
            exact decide_eq_true hx
          · rw [reprToken, numberValue, if_neg hfrac, Double.ofToken_reprToken hx]
      · cases h
  | oddDict name => cases h
  | other type => cases h

/-- The tree whose indented text `json.dumps` writes. -/
def dumpsTree (v : PyValue) : Json.Raw := v.map Json.canonicalItems reprToken

theorem writable_dumpsTree (v : PyValue) : (dumpsTree v).Writable := Json.writable_map v

theorem dumps_eq_ok {v : PyValue} {text : Text} (h : dumps host v = .ok text) :
    text = (dumpsTree v).indented 0 :=
  Json.writeIndented_eq (fun _ => rfl) (fun _ _ hn => (dumpsAtom_eq_ok hn).1) h

/-- A text that is written has no carriage return. -/
theorem cr_notMem_dumps {v : PyValue} {text : Text} (h : dumps host v = .ok text) :
    '\r'.toNat ∉ text := by
  rw [dumps_eq_ok h]
  intro hmem
  have hprinted := Json.isPrinted_indented (writable_dumpsTree v) 0 _ hmem
  revert hprinted
  decide

/-- What is written is read back, nesting permitting. -/
theorem strictLoads_dumps {v : PyValue} {text : Text}
    (hordered : v.Every (fun _ => True) (fun _ => True) (Json.Ordered Json.noRank))
    (hdepth : v.depth ≤ I.scanDepth) (h : dumps host v = .ok text) : strictLoads I text = .ok v := by
  have hatoms := Json.every_of_writeIndented h
  have hatom : ∀ a, Json.IsOk (dumpsAtom a) →
      acceptsNumber (reprToken a) = true ∧ numberValue (reprToken a) = a := by
    intro a ha
    obtain ⟨t, ht⟩ := Json.isOk_iff.1 ha
    exact (dumpsAtom_eq_ok ht).2
  have hwithin : Json.Within I.limits (dumpsTree v) := by
    constructor
    · rw [Json.Accepted, dumpsTree, Json.every_map]
      exact hatoms.imp (fun _ => id) (fun a ha => (hatom a ha).1) fun _ => id
    · rw [dumpsTree, Json.depth_map]
      simpa [Json.Limits.Fits, Interpreter.limits] using hdepth
  have hread : Json.read (dumpsTree v) = v.map id reprToken :=
    Json.load_map (hordered.imp (fun s _ => Json.unescape_canonicalItems s) (fun _ => id) fun _ => id)
  have hvalue : ofRaw (dumpsTree v) = v := by
    rw [ofRaw, hread, Json.map_map]
    exact Json.map_eq_self hatoms (fun _ _ => rfl) fun a ha => (hatom a ha).2
  rw [strictLoads, dumps_eq_ok h, Json.parse_indented (writable_dumpsTree v) hwithin]
  exact congrArg Except.ok hvalue

end Dumps

/-! ## What a call of `persist` leaves -/

/-- The values of a document have distinct names. -/
def HasOrderedValues (document : Document) : Prop :=
  ∀ key value, document.get key = some value →
    value.Every (fun _ => True) (fun _ => True) (Json.Ordered Json.noRank)

/-- A call that fails before the file is open, or that writes all of a text that has an
encoding and nests no deeper than can be read. -/
def Harmless (I : Interpreter) (host : FileHost) (fault : Option Fault) (document : Document) : Prop :=
  fault = some .directory ∨ fault = some .opening ∨
    ∀ text, dumps host (.obj document.entries) = .ok text →
      fault = none ∧ (host.encode text).isSome ∧
        (Json.obj document.entries : PyValue).depth ≤ I.scanDepth

section Persist

variable {I : Interpreter} {host : FileHost} {fault : Option Fault} {document : Document}

theorem ordered_of_hasOrderedValues (h : HasOrderedValues document) :
    (Json.obj document.entries : PyValue).Every (fun _ => True) (fun _ => True)
      (Json.Ordered Json.noRank) :=
  (Json.every_obj _).2 ⟨document.ordered, fun m hm =>
    ⟨trivial, h m.1 m.2 (Json.Members.get_of_mem hm)⟩⟩

/-- A text that was encoded loads to its document. -/
theorem loadFile_dumps {text : Text} {bytes : Bytes} (hordered : HasOrderedValues document)
    (hdepth : (Json.obj document.entries : PyValue).depth ≤ I.scanDepth)
    (htext : dumps host (.obj document.entries) = .ok text) (hbytes : host.encode text = some bytes) :
    loadFile I host (some bytes) = .ok document := by
  have hdecode := host.decode_encode text bytes (cr_notMem_dumps htext) hbytes
  have hparse := strictLoads_dumps (ordered_of_hasOrderedValues hordered) hdepth htext
  have hdocument : (Json.Members.ofList document.entries : Document) = document := by
    ext1
    exact Json.collapse_of_ordered document.ordered
  simp only [loadFile, hdecode, hparse, requireDocument, hdocument]

/-- What fails before the file is open leaves it as it was. -/
theorem persistFile_of_not_open (file : Option Bytes)
    (h : fault = some .directory ∨ fault = some .opening ∨
      ∃ e, dumps host (.obj document.entries) = .error e) :
    ∃ e, persistFile host fault file document = (file, .error e) := by
  unfold persistFile
  split
  · exact ⟨_, rfl⟩
  · next hdirectory =>
      cases hdumps : dumps host (.obj document.entries) with
      | error e => exact ⟨_, rfl⟩
      | ok text =>
          rcases h with rfl | rfl | ⟨e, he⟩
          · exact absurd rfl hdirectory
          · exact ⟨_, rfl⟩
          · rw [hdumps] at he
            cases he

/-- A harmless call leaves the file with the document, or as it was. -/
theorem saves_of_harmless (hordered : HasOrderedValues document)
    (h : Harmless I host fault document) (file : Option Bytes) :
    (fileBacking I host fault).Saves file document := by
  have hfails : (fault = some .directory ∨ fault = some .opening ∨
      ∃ e, dumps host (.obj document.entries) = .error e) →
      (fileBacking I host fault).Saves file document := by
    intro hopen
    obtain ⟨e, he⟩ := persistFile_of_not_open file hopen
    exact Backed.Backing.saves_of_error he
  rcases h with hdirectory | hopening | hwrite
  · exact hfails (Or.inl hdirectory)
  · exact hfails (Or.inr (Or.inl hopening))
  · cases hdumps : dumps host (.obj document.entries) with
    | error e => exact hfails (Or.inr (Or.inr ⟨e, hdumps⟩))
    | ok text =>
        obtain ⟨rfl, hencode, hdepth⟩ := hwrite text hdumps
        obtain ⟨bytes, hbytes⟩ := Option.isSome_iff_exists.1 hencode
        have hpersist : (fileBacking I host none).persist file document = (some bytes, .ok ()) := by
          simp only [fileBacking, persistFile, hdumps, writeText, hbytes]
          rfl
        exact Backed.Backing.saves_of_ok hpersist (loadFile_dumps hordered hdepth hdumps hbytes)

end Persist

/-! ## The steps of a store -/

/-- The document that a write of bytes persists. -/
def pendingSet {β : Type} (I : Interpreter) (s : Store β) (key : PyString) (data : Bytes) :
    Option Document :=
  if s.readOnly ∨ (checkKey key).isSome then none
  else
    match encodeValue I key data with
    | .ok encoded => some (s.document.set key encoded)
    | .error _ => none

/-- The document that an operation persists, if it gets so far. -/
def pending {β : Type} (I : Interpreter) (s : Store β) : Op → Option Document
  | .set key value => pendingSet I s key value
  | .setJson key value =>
      match do utf8Encode (← canonicalDumps I value (I.frames + 3)) with
      | .ok data => pendingSet I s key data
      | .error _ => none
  | .delete key => if s.readOnly then none else some (s.document.erase key)
  | _ => none

section Step

variable {β ε : Type} {I : Interpreter} {B : Backing β ε} {s : Store β} {key : PyString}

/-- A write of bytes fails before it persists, or is the change of the document it persists. -/
theorem setBytes_fst_cases (I : Interpreter) (B : Backing β ε) (s : Store β) (key : PyString)
    (value : Bytes) :
    (s.setBytes I B key value).1 = s ∨
      ∃ w, encodeValue I key value = .ok w ∧
        pendingSet I s key value = some (s.document.set key w) ∧
        (s.setBytes I B key value).1 = (s.commitSet B key w).1 := by
  unfold Store.setBytes pendingSet
  cases hro : s.readOnly with
  | true => exact Or.inl rfl
  | false =>
      cases hkey : checkKey key with
      | some issue => exact Or.inl rfl
      | none =>
          cases hencode : encodeValue I key value with
          | error e => exact Or.inl rfl
          | ok w =>
              refine Or.inr ⟨w, rfl, by simp, ?_⟩
              simp only [Bool.false_eq_true, if_false]
              split <;> next hcommit => rw [hcommit]

/-- What an operation does to the store: nothing, or the change that it persists. -/
theorem step_fst_cases (I : Interpreter) (B : Backing β ε) (s : Store β) (op : Op) :
    ((storeMachine I B).step s op).1 = s ∨
      (∃ key w data, encodeValue I key data = .ok w ∧
        pending I s op = some (s.document.set key w) ∧
        ((storeMachine I B).step s op).1 = (s.commitSet B key w).1) ∨
      ∃ key, pending I s op = some (s.document.erase key) ∧
        ((storeMachine I B).step s op).1 = (s.commitErase B key).1 := by
  cases op with
  | get key =>
      refine Or.inl ?_
      simp only [storeMachine]
      split <;> rfl
  | «exists» key => exact Or.inl rfl
  | list => exact Or.inl rfl
  | set key value =>
      refine (setBytes_fst_cases I B s key value).imp id ?_
      rintro ⟨w, hw, hpending, hstep⟩
      exact Or.inl ⟨key, w, value, hw, hpending, hstep⟩
  | setJson key value =>
      simp only [storeMachine, pending]
      unfold Store.setJson
      split_ifs
      · exact Or.inl rfl
      · exact Or.inl rfl
      · cases hdata : (do utf8Encode (← canonicalDumps I value (I.frames + 3))) with
        | error e => exact Or.inl rfl
        | ok data =>
            refine (setBytes_fst_cases I B s key data).imp id ?_
            rintro ⟨w, hw, hpending, hstep⟩
            exact Or.inl ⟨key, w, data, hw, hpending, hstep⟩
  | delete key =>
      simp only [storeMachine, pending]
      unfold Store.delete
      cases hro : s.readOnly with
      | true => exact Or.inl rfl
      | false =>
          refine Or.inr (Or.inr ⟨key, rfl, ?_⟩)
          simp only [Bool.false_eq_true, if_false]
          split <;> next hcommit => rw [hcommit]

/-- An operation that fails leaves every member. -/
theorem get_of_step_failed {op : Op} {e : StoreError ε}
    (h : ((storeMachine I B).step s op).2 = .failed e) (l : PyString) :
    ((storeMachine I B).step s op).1.document.get l = s.document.get l := by
  have hset : ∀ (key : PyString) (value : Bytes), Reply.ofUnit (s.setBytes I B key value).2 = .failed e →
      (s.setBytes I B key value).1.document.get l = s.document.get l := by
    intro key value h
    cases hstep : s.setBytes I B key value with
    | mk s' r =>
        rw [hstep] at h
        cases r with
        | ok u => cases h
        | error e' => rw [(setBytes_error hstep).1]
  cases op with
  | get key =>
      simp only [storeMachine]
      split <;> rfl
  | «exists» key => rfl
  | list => rfl
  | set key value => exact hset key value h
  | setJson key value =>
      simp only [storeMachine] at h ⊢
      rcases setJson_cases I B s key value with ⟨data, heq⟩ | ⟨e', heq⟩
      · rw [heq] at h ⊢
        exact hset key data h
      · rw [heq]
  | delete key =>
      simp only [storeMachine] at h ⊢
      cases hstep : s.delete B key with
      | mk s' r =>
          rw [hstep] at h
          cases r with
          | ok u => cases h
          | error e' =>
              rcases delete_error hstep with ⟨-, rfl⟩ | ⟨-, e'', hcommit⟩
              · rfl
              · rw [(Backed.Store.commitErase_error hcommit).1]
                exact Json.Members.get_undoErase

/-! ### Distinct names -/

theorem ordered_of_strictLoads {text : PyString} {v : PyValue} (h : strictLoads I text = .ok v) :
    v.Every (fun _ => True) (fun _ => True) (Json.Ordered Json.noRank) := by
  obtain ⟨raw, -, rfl⟩ := strictLoads_eq_ok h
  have hload : (Json.read raw).Every (fun _ => True) (fun _ => True) (Json.Ordered Json.noRank) :=
    Json.every_load (Json.every_of_forall (fun _ => trivial) (fun _ => trivial) (fun _ => trivial) raw)
  rw [ofRaw, Json.every_map]
  exact hload.imp (fun _ => id) (fun _ => id) fun ks hks => (List.map_id ks).symm ▸ hks

theorem ordered_of_strictLoadsBytes {data : Bytes} {v : PyValue}
    (h : strictLoadsBytes I data = .ok v) :
    v.Every (fun _ => True) (fun _ => True) (Json.Ordered Json.noRank) := by
  obtain ⟨text, -, hparsed⟩ := strictLoadsBytes_eq_ok h
  exact ordered_of_strictLoads hparsed

/-- What is inlined was parsed. -/
theorem strictLoadsBytes_of_inlineBody {data : Bytes} {v : PyValue}
    (h : inlineBody I data = .ok (some v)) : strictLoadsBytes I data = .ok v := by
  unfold inlineBody at h
  cases hload : strictLoadsBytes I data with
  | error e => rw [hload] at h; cases h
  | ok parsed =>
      simp only [hload, bind, Except.bind] at h
      split at h
      · split at h
        · cases h
        · split at h
          · cases h
          · simp only [pure, Except.pure, Except.ok.injEq] at h
            split at h
            · cases h
              rfl
            · cases h
      · cases h

/-- What is encoded has distinct names. -/
theorem ordered_of_encodeValue {data : Bytes} {w : PyValue} (h : encodeValue I key data = .ok w) :
    w.Every (fun _ => True) (fun _ => True) (Json.Ordered Json.noRank) := by
  unfold encodeValue at h
  split at h
  · cases hload : strictLoadsBytes I data with
    | error e => rw [hload] at h; cases h
    | ok parsed =>
        simp only [hload, bind, Except.bind] at h
        split at h
        · cases h
          exact ordered_of_strictLoadsBytes hload
        · cases h
  · cases hinline : tryInlineJson I data with
    | error e => rw [hinline] at h; cases h
    | ok inlined =>
        rw [hinline] at h
        cases inlined with
        | none =>
            cases h
            trivial
        | some v =>
            cases h
            unfold tryInlineJson at hinline
            cases hbody : inlineBody I data with
            | error e => rw [hbody] at hinline; cases e <;> cases hinline
            | ok r =>
                rw [hbody] at hinline
                cases hinline
                exact ordered_of_strictLoadsBytes (strictLoadsBytes_of_inlineBody hbody)

/-- Every step keeps the names of every value distinct. -/
theorem HasOrderedValues.step (h : HasOrderedValues s.document) (op : Op) :
    HasOrderedValues ((storeMachine I B).step s op).1.document := by
  rcases step_fst_cases I B s op with
    heq | ⟨key, w, data, hw, -, heq⟩ | ⟨key, -, heq⟩
  · rw [heq]
    exact h
  · rw [heq]
    intro l value hvalue
    rcases Backed.Store.eq_or_get_of_commitSet hvalue with rfl | hvalue
    · exact ordered_of_encodeValue hw
    · exact h l value hvalue
  · rw [heq]
    exact fun l value hvalue => h l value (Backed.Store.get_of_commitErase hvalue)

end Step

/-! ## Runs -/

section Run

variable {I : Interpreter} {host : FileHost}

theorem hasOrderedValues_of_loadFile {file : Option Bytes} {document : Document}
    (h : loadFile I host file = .ok document) : HasOrderedValues document := by
  intro key value hvalue
  cases file with
  | none =>
      cases h
      cases hvalue
  | some bytes =>
      simp only [loadFile] at h
      split at h
      · cases h
      · split at h
        · next v hparsed =>
            have hordered := ordered_of_strictLoads hparsed
            cases v with
            | obj members =>
                cases h
                have hmem := Json.mem_of_mem_collapse (Json.mem_of_lookup hvalue)
                exact (((Json.every_obj members).1 hordered).2 _ hmem).2
            | _ => cases h
        · cases h

/-- A step that persists nothing, or does so in a harmless call. -/
def HarmlessStep (I : Interpreter) (host : FileHost)
    (e : Transition.Event (Store (Option Bytes)) (Op × Option Fault) (Reply FileError)) : Prop :=
  ∀ document, pending I e.before e.op.1 = some document → Harmless I host e.op.2 document

/-- After the step the file loads to the document in memory, which is the document before the
step if the step failed. -/
def KeepsFile (I : Interpreter) (host : FileHost)
    (e : Transition.Event (Store (Option Bytes)) (Op × Option Fault) (Reply FileError)) : Prop :=
  e.after.Synced (fileBacking I host none) ∧
    ∀ error, e.reply = .failed error → ∀ key, e.after.document.get key = e.before.document.get key

/-- A harmless step keeps the file in step. -/
theorem synced_of_harmless {s : Store (Option Bytes)} {op : Op} {fault : Option Fault}
    (hordered : HasOrderedValues s.document) (hs : s.Synced (fileBacking I host none))
    (h : ∀ document, pending I s op = some document → Harmless I host fault document) :
    ((fileMachine I host).step s (op, fault)).1.Synced (fileBacking I host none) := by
  have hsaves : ∀ document, pending I s op = some document → HasOrderedValues document →
      (fileBacking I host fault).Saves s.backing document := fun document hpending hordered =>
    saves_of_harmless hordered (h document hpending) s.backing
  show ((storeMachine I (fileBacking I host fault)).step s op).1.Synced (fileBacking I host fault)
  rcases step_fst_cases I (fileBacking I host fault) s op with
    heq | ⟨key, w, data, hw, hpending, heq⟩ | ⟨key, hpending, heq⟩
  · rw [heq]
    exact hs
  · rw [heq]
    refine Backed.Store.Synced.commitSet hs (hsaves _ hpending fun l value hvalue => ?_)
    rw [Json.Members.get_set] at hvalue
    split at hvalue
    · cases hvalue
      exact ordered_of_encodeValue hw
    · exact hordered l value hvalue
  · rw [heq]
    refine Backed.Store.Synced.commitErase hs (hsaves _ hpending fun l value hvalue => ?_)
    rw [Json.Members.get_erase] at hvalue
    split at hvalue
    · cases hvalue
    · exact hordered l value hvalue

/-- From every reachable state in which the file loads to the document in memory, every run
whose steps are harmless keeps the file in step. -/
theorem fileBacking_keeps (I : Interpreter) (host : FileHost) (file : Option Bytes)
    (readOnly strict : Bool) (initial s : Store (Option Bytes))
    (hinitial : construct (fileBacking I host none) file readOnly strict = .ok initial)
    (hreachable : (fileMachine I host).Reachable initial s)
    (hsynced : s.Synced (fileBacking I host none)) (ops : List (Op × Option Fault))
    (hharmless : ∀ e ∈ (fileMachine I host).events s ops, HarmlessStep I host e) :
    ∀ e ∈ (fileMachine I host).events s ops, KeepsFile I host e := by
  have hload : loadFile I host file = .ok initial.document := by
    rw [construct] at hinitial
    split at hinitial
    · cases hinitial
    · next document hdocument =>
        split at hinitial
        · split at hinitial
          · cases hinitial
          · cases hinitial
            exact hdocument
        · cases hinitial
          exact hdocument
  have hordered : HasOrderedValues s.document := by
    obtain ⟨os, rfl⟩ := hreachable
    exact Transition.Machine.exec_induct (A := fun _ => True)
      (P := fun t : Store (Option Bytes) => HasOrderedValues t.document)
      (fun t o _ ht => ht.step o.1) (fun _ _ => trivial) (hasOrderedValues_of_loadFile hload)
  refine Transition.Machine.forall_events_of
    (P := fun t => HasOrderedValues t.document ∧ t.Synced (fileBacking I host none))
    (fun t o ht hA => ⟨ht.1.step o.1, synced_of_harmless ht.1 ht.2 hA⟩)
    (fun t o ht hA => ⟨synced_of_harmless ht.1 ht.2 hA, fun error herror => ?_⟩) hharmless
    ⟨hordered, hsynced⟩
  exact get_of_step_failed herror

end Run

/-! ## UTF-8 files -/

/-- Universal newlines, after a carriage return or not. -/
def universalNewlines : Bool → Text → Text
  | _, [] => []
  | afterReturn, c :: text =>
      if c = '\r'.toNat then '\n'.toNat :: universalNewlines true text
      else if c = '\n'.toNat ∧ afterReturn then universalNewlines false text
      else c :: universalNewlines false text

theorem universalNewlines_eq_self {text : Text} (h : '\r'.toNat ∉ text) :
    universalNewlines false text = text := by
  induction text with
  | nil => rfl
  | cons c text ih =>
      rw [List.mem_cons, not_or] at h
      rw [universalNewlines, if_neg (Ne.symm h.1), if_neg (by simp), ih h.2]

/-- A system that keeps text files in UTF-8, with the line ends of the source. -/
def utf8Host : FileHost where
  dumpsDepth := 900
  encode := fun text =>
    if ∀ c ∈ text, Unicode.Passes false c then some (Unicode.encodeUtf8 text) else none
  decode := fun bytes => (Unicode.decodeUtf8 false bytes).map (universalNewlines false)
  decode_encode := by
    intro text bytes hcr hencode
    split at hencode
    · next hpasses =>
        cases hencode
        rw [Unicode.decodeUtf8_encodeUtf8 hpasses, Option.map_some, universalNewlines_eq_self hcr]
    · cases hencode

/-- A new store over the file `{}`. -/
def emptyFileStore : Store (Option Bytes) := ⟨some [123, 125], .empty, false, ∅⟩

theorem construct_emptyFileStore :
    construct (fileBacking cpython utf8Host none) (some [123, 125]) false false
      = .ok emptyFileStore := rfl

theorem synced_emptyFileStore : emptyFileStore.Synced (fileBacking cpython utf8Host none) :=
  ⟨.empty, rfl, fun _ => rfl⟩

theorem fileBacking_keeps_delete :
    construct (fileBacking cpython utf8Host none) (some [123, 125]) false false
        = .ok emptyFileStore ∧
      ∀ e ∈ (fileMachine cpython utf8Host).events emptyFileStore
          [(.delete (py "a/c/0"), none), (.set (py "a/c/0") [91, 49, 93], some .opening)],
        KeepsFile cpython utf8Host e := by
  refine ⟨construct_emptyFileStore, fileBacking_keeps cpython utf8Host (some [123, 125]) false false
    emptyFileStore emptyFileStore construct_emptyFileStore ⟨[], rfl⟩ synced_emptyFileStore _
    fun e he => ?_⟩
  rcases List.mem_cons.1 he with rfl | he
  · intro document hdocument
    cases hdocument
    exact Or.inr (Or.inr fun text htext => by cases htext; exact ⟨rfl, by decide, by decide⟩)
  · rw [List.mem_singleton.1 he]
    exact fun _ _ => Or.inr (Or.inl rfl)

/-- The metadata `{"a":"\ud800"}`. -/
def surrogateMetadata : Bytes :=
  [0x7B, 0x22, 0x61, 0x22, 0x3A, 0x22, 0x5C, 0x75, 0x64, 0x38, 0x30, 0x30, 0x22, 0x7D]

/-- Metadata with a lone surrogate has no UTF-8 text, and writing it empties the file; so does
a chunk of which nothing can be written. -/
theorem not_fileBacking_keeps_surrogate :
    construct (fileBacking cpython utf8Host none) (some [123, 125]) false false
        = .ok emptyFileStore ∧
      emptyFileStore.Synced (fileBacking cpython utf8Host none) ∧
      ∀ o ∈ [(Op.set (py "zarr.json") surrogateMetadata, none),
          (Op.set (py "a/c/0") [91, 49, 93], some (Fault.writing 0))],
        ∃ s e, (fileMachine cpython utf8Host).step emptyFileStore o = (s, .failed (.backing e)) ∧
          s.backing = some [] ∧
          ¬ KeepsFile cpython utf8Host ⟨emptyFileStore, o, s, .failed (.backing e)⟩ := by
  refine ⟨construct_emptyFileStore, synced_emptyFileStore, fun o ho => ?_⟩
  have hempty : ∀ s : Store (Option Bytes), s.backing = some [] →
      ¬ s.Synced (fileBacking cpython utf8Host none) := by
    rintro s hbacking ⟨d, hload, -⟩
    rw [hbacking] at hload
    cases hload
  rcases List.mem_cons.1 ho with rfl | ho
  · exact ⟨_, _, rfl, rfl, fun h => hempty _ rfl h.1⟩
  · rw [List.mem_singleton.1 ho]
    exact ⟨_, _, rfl, rfl, fun h => hempty _ rfl h.1⟩

end Python
