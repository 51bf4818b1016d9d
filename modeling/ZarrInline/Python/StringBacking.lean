import ZarrInline.Python.Dumps
import ZarrInline.Python.Skipping

/-!
# The document in a string

`StringBacking` of `backing.py`.  `persist` replaces the text by what `json.dumps` writes on one
line, or raises and leaves the text as it was.

A document that was loaded holds JSON numbers only, and so does what `encode_value` stores
(`HasEntries`).  So `json.dumps` fails only where a document nests too deep, and what it writes
reads back: after every call of a store, the store can be built anew from the text
(`stringBacking_keeps`).
-/

namespace Python

variable {I : Interpreter} {depth : ℕ} {text : PyString} {document : Document}

/-! ## The backing -/

/-- `load`. -/
def loadText (I : Interpreter) (text : PyString) : Except FileError Document :=
  match strictLoads I text with
  | .ok value => requireDocument value
  | .error e => .error (.codec e)

/-- `persist`. -/
def persistText (depth : ℕ) (text : PyString) (document : Document) : PyString × Except FileError Unit :=
  match dumpsLine depth false (.obj document.entries) with
  | .error e => (text, .error (.dumps e))
  | .ok written => (written, .ok ())

/-- `StringBacking`: its state is the text.  `depth` is the nesting at which `json.dumps` gives
up. -/
def stringBacking (I : Interpreter) (depth : ℕ) : Backing PyString FileError where
  load := loadText I
  persist := persistText depth

/-! ## Documents that can be written -/

/-- How deep a document nests. -/
def nesting (document : Document) : ℕ := (Json.obj document.entries : PyValue).depth

/-- The values of a document are those of parsed texts: numbers are JSON numbers, and names are
distinct. -/
def HasEntries (document : Document) : Prop :=
  ∀ key value, document.get key = some value →
    value.Every (fun _ => True) PyAtom.IsPlain (Json.Ordered Json.noRank)

/-- Documents with the same members nest alike. -/
theorem nesting_le_of_get {d d' : Document} (h : ∀ key, d'.get key = d.get key) :
    nesting d' ≤ nesting d := by
  have hlt : ∀ m ∈ d'.entries, m.2.depth < nesting d := by
    intro m hm
    have hget : d.get m.1 = some m.2 := by
      rw [← h]
      exact Json.Members.get_of_mem hm
    exact Json.depth_lt_of_mem_obj (Json.mem_of_lookup hget)
  obtain ⟨n, hn⟩ : ∃ n, nesting d = n + 1 := ⟨_, Json.depth_obj _⟩
  rw [hn] at hlt ⊢
  exact Json.depth_obj_le_iff.2 fun m hm => Nat.le_of_lt_succ (hlt m hm)

theorem nesting_eq_of_get {d d' : Document} (h : ∀ key, d'.get key = d.get key) :
    nesting d' = nesting d :=
  (nesting_le_of_get h).antisymm (nesting_le_of_get fun key => (h key).symm)

/-- The values of a document, and the document. -/
theorem HasEntries.every (h : HasEntries document) : (Json.obj document.entries : PyValue).Every
    (fun _ => True) PyAtom.IsPlain (Json.Ordered Json.noRank) :=
  (Json.every_obj _).2 ⟨document.ordered, fun m hm =>
    ⟨trivial, h m.1 m.2 (Json.Members.get_of_mem hm)⟩⟩

theorem HasEntries.isPlain (h : HasEntries document) : IsPlain (.obj document.entries) :=
  h.every.imp (fun _ => id) (fun _ => id) fun _ _ => trivial

theorem HasEntries.ordered (h : HasEntries document) : (Json.obj document.entries : PyValue).Every
    (fun _ => True) (fun _ => True) (Json.Ordered Json.noRank) :=
  h.every.imp (fun _ => id) (fun _ _ => trivial) fun _ => id

/-- What is parsed can be part of a document. -/
theorem every_of_strictLoads {v : PyValue} (h : strictLoads I text = .ok v) :
    v.Every (fun _ => True) PyAtom.IsPlain (Json.Ordered Json.noRank) :=
  ((isPlain_of_strictLoads h).and (ordered_of_strictLoads h)).imp (fun _ _ => trivial) (fun _ h => h.1)
    fun _ h => h.2

/-- A document that was loaded. -/
theorem hasEntries_of_loadText (h : loadText I text = .ok document) : HasEntries document := by
  rw [loadText] at h
  cases hloads : strictLoads I text with
  | error e => rw [hloads] at h; cases h
  | ok value =>
      rw [hloads] at h
      have hevery := every_of_strictLoads hloads
      cases value with
      | obj members =>
          cases h
          intro key value hvalue
          have hmem := Json.mem_of_mem_collapse (Json.mem_of_lookup hvalue)
          exact (((Json.every_obj members).1 hevery).2 _ hmem).2
      | _ => cases h

/-- What `encode_value` stores is a string, or was parsed. -/
theorem str_or_parsed_of_encodeValue {key : PyString} {data : Bytes} {w : PyValue}
    (h : encodeValue I key data = .ok w) : (∃ s, w = .str s) ∨ strictLoadsBytes I data = .ok w := by
  rw [encodeValue] at h
  split at h
  · cases hload : strictLoadsBytes I data with
    | error e => rw [hload] at h; cases h
    | ok parsed =>
        simp only [hload, bind, Except.bind] at h
        split at h
        · cases h
          exact Or.inr rfl
        · cases h
  · rw [tryInlineJson] at h
    cases hbody : inlineBody I data with
    | error e =>
        rw [hbody] at h
        cases e with
        | value e => cases h; exact Or.inl ⟨_, rfl⟩
        | recursion => cases h
    | ok inlined =>
        rw [hbody] at h
        cases inlined with
        | none => cases h; exact Or.inl ⟨_, rfl⟩
        | some v => cases h; exact Or.inr (strictLoadsBytes_of_inlineBody hbody)

theorem every_of_encodeValue {key : PyString} {data : Bytes} {w : PyValue}
    (h : encodeValue I key data = .ok w) :
    w.Every (fun _ => True) PyAtom.IsPlain (Json.Ordered Json.noRank) := by
  rcases str_or_parsed_of_encodeValue h with ⟨s, rfl⟩ | hload
  · exact (Json.every_str s).2 trivial
  · obtain ⟨text, -, hloads⟩ := strictLoadsBytes_eq_ok hload
    exact every_of_strictLoads hloads

theorem HasEntries.set (h : HasEntries document) {key : PyString} {data : Bytes} {w : PyValue}
    (hw : encodeValue I key data = .ok w) : HasEntries (document.set key w) := by
  intro l value hvalue
  rw [Json.Members.get_set] at hvalue
  split at hvalue
  · cases hvalue
    exact every_of_encodeValue hw
  · exact h l value hvalue

theorem HasEntries.erase (h : HasEntries document) (key : PyString) : HasEntries (document.erase key) := by
  intro l value hvalue
  rw [Json.Members.get_erase] at hvalue
  split at hvalue
  · cases hvalue
  · exact h l value hvalue

/-! ## A call of `persist` -/

/-- A document that nests as deep as `json.dumps` goes replaces the text, and any other leaves
it. -/
theorem persistText_eq (depth : ℕ) (h : HasEntries document) (text : PyString) :
    (nesting document ≤ depth ∧
      persistText depth text document = ((dumpsTree (.obj document.entries)).spaced, .ok ())) ∨
      depth < nesting document ∧ ∃ e, persistText depth text document = (text, .error e) := by
  rw [persistText]
  rcases le_or_gt (nesting document) depth with hle | hlt
  · rw [dumpsLine_of_isPlain h.isPlain hle]
    exact Or.inl ⟨hle, rfl⟩
  · cases hdumps : dumpsLine depth false (.obj document.entries) with
    | error e => exact Or.inr ⟨hlt, _, rfl⟩
    | ok written => exact absurd hlt (dumpsLine_eq_ok_iff.1 hdumps).1.2.not_gt

/-- What was written loads, nesting permitting. -/
theorem loadText_spaced (h : HasEntries document) (hdepth : nesting document ≤ I.scanDepth) :
    loadText I (dumpsTree (.obj document.entries)).spaced = .ok document := by
  have hdocument : (Json.Members.ofList document.entries : Document) = document := by
    ext1
    exact Json.collapse_of_ordered document.ordered
  rw [loadText, strictLoads_dumpsLine h.isPlain h.ordered hdepth]
  exact congrArg Except.ok hdocument

/-! ## The steps of a store -/

section Step

variable {β ε : Type} {B : Backing β ε} {s : Store β} {key : PyString}

/-- The reply of a change. -/
def Reply.ofCommit : Except ε Unit → Reply ε
  | .ok () => .done
  | .error e => .failed (.backing e)

/-- The reply of an operation that persists nothing. -/
structure Reply.IsIdle (reply : Reply ε) : Prop where
  not_done : reply ≠ .done
  not_failed : ∀ e, reply ≠ .failed (.backing e)

/-- The document that an operation persists, if it gets so far. -/
def persisted (I : Interpreter) (s : Store β) : Op → Option Document
  | .setJson key value =>
      if isMetadataKey key ∧ ¬ isDict value then none
      else if ¬ isMetadataKey key ∧ ¬ isList value ∧ ¬ isDict value then none
      else pending I s (.setJson key value)
  | op => pending I s op

theorem isIdle_of_failed {e : StoreError ε} (h : ∀ e', e ≠ .backing e') : (Reply.failed e).IsIdle where
  not_done heq := by cases heq
  not_failed e' heq := h e' (by cases heq; rfl)

/-- A write of bytes persists nothing, or is the change of the document that it persists. -/
theorem setBytes_step (I : Interpreter) (B : Backing β ε) (s : Store β) (key : PyString) (value : Bytes) :
    (pendingSet I s key value = none ∧ (s.setBytes I B key value).1 = s ∧
        (Reply.ofUnit (s.setBytes I B key value).2).IsIdle) ∨
      ∃ w, encodeValue I key value = .ok w ∧
        pendingSet I s key value = some (s.document.set key w) ∧
        (s.setBytes I B key value).1 = (s.commitSet B key w).1 ∧
        Reply.ofUnit (s.setBytes I B key value).2 = .ofCommit (s.commitSet B key w).2 := by
  rw [Store.setBytes, pendingSet]
  cases hro : s.readOnly with
  | true => exact Or.inl ⟨rfl, rfl, isIdle_of_failed fun _ h => by cases h⟩
  | false =>
      cases hkey : checkKey key with
      | some issue => exact Or.inl ⟨rfl, rfl, isIdle_of_failed fun _ h => by cases h⟩
      | none =>
          cases hencode : encodeValue I key value with
          | error e => exact Or.inl ⟨rfl, rfl, isIdle_of_failed fun _ h => by cases h⟩
          | ok w =>
              refine Or.inr ⟨w, rfl, rfl, ?_⟩
              simp only [Bool.false_eq_true, if_false]
              split <;> next hcommit => rw [hcommit]; exact ⟨rfl, rfl⟩

/-- A read changes nothing. -/
theorem get_step (I : Interpreter) (B : Backing β ε) (s : Store β) (key : PyString) :
    ((storeMachine I B).step s (.get key)).1 = s ∧ ((storeMachine I B).step s (.get key)).2.IsIdle := by
  have hcodec : ∀ e : StoreError ε, s.get I key = .error e → ∀ e', e ≠ .backing e' := by
    intro e he e' heq
    rw [heq, Store.get] at he
    split at he
    · split at he
      · split at he <;> cases he
      · cases he
    · cases he
  simp only [storeMachine]
  split
  · exact ⟨rfl, ⟨(fun h => by cases h), fun e h => by cases h⟩⟩
  · next e he => exact ⟨rfl, isIdle_of_failed (hcodec e he)⟩

/-- What an operation does, and its reply: it persists nothing, or is the change that it
persists. -/
theorem step_cases (I : Interpreter) (B : Backing β ε) (s : Store β) (op : Op) :
    (persisted I s op = none ∧ ((storeMachine I B).step s op).1 = s ∧
        ((storeMachine I B).step s op).2.IsIdle) ∨
      (∃ key w data, encodeValue I key data = .ok w ∧
        persisted I s op = some (s.document.set key w) ∧
        ((storeMachine I B).step s op).1 = (s.commitSet B key w).1 ∧
        ((storeMachine I B).step s op).2 = .ofCommit (s.commitSet B key w).2) ∨
      ∃ key, persisted I s op = some (s.document.erase key) ∧
        ((storeMachine I B).step s op).1 = (s.commitErase B key).1 ∧
        ((storeMachine I B).step s op).2 = .ofCommit (s.commitErase B key).2 := by
  cases op with
  | get key => exact Or.inl ⟨rfl, get_step I B s key⟩
  | «exists» key => exact Or.inl ⟨rfl, rfl, ⟨(fun h => by cases h), fun e h => by cases h⟩⟩
  | list => exact Or.inl ⟨rfl, rfl, ⟨(fun h => by cases h), fun e h => by cases h⟩⟩
  | set key value =>
      refine (setBytes_step I B s key value).imp id ?_
      rintro ⟨w, hw, hpending, hstep, hreply⟩
      exact Or.inl ⟨key, w, value, hw, hpending, hstep, hreply⟩
  | setJson key value =>
      simp only [storeMachine, persisted, pending, Store.setJson]
      split
      · exact Or.inl ⟨rfl, rfl, isIdle_of_failed fun _ h => by cases h⟩
      · split
        · exact Or.inl ⟨rfl, rfl, isIdle_of_failed fun _ h => by cases h⟩
        · cases hdata : (do utf8Encode (← canonicalDumps I value (I.frames + 3))) with
          | error e => exact Or.inl ⟨rfl, rfl, isIdle_of_failed fun _ h => by cases h⟩
          | ok data =>
              refine (setBytes_step I B s key data).imp id ?_
              rintro ⟨w, hw, hpending, hstep, hreply⟩
              exact Or.inl ⟨key, w, data, hw, hpending, hstep, hreply⟩
  | delete key =>
      simp only [storeMachine, persisted, pending, Store.delete]
      cases hro : s.readOnly with
      | true => exact Or.inl ⟨rfl, rfl, isIdle_of_failed fun _ h => by cases h⟩
      | false =>
          refine Or.inr (Or.inr ⟨key, if_neg Bool.false_ne_true, ?_⟩)
          simp only [Bool.false_eq_true, if_false]
          split <;> next hcommit => rw [hcommit]; exact ⟨rfl, rfl⟩

end Step

/-! ## Runs -/

section Run

variable {s : Store PyString} {key : PyString}

/-- The text loads to the document in memory, nesting permitting. -/
structure Says (I : Interpreter) (depth : ℕ) (s : Store PyString) : Prop where
  entries : HasEntries s.document
  synced : nesting s.document ≤ I.scanDepth → s.Synced (stringBacking I depth)

/-- A document that a change persists is in the text, or the change is taken back. -/
structure Commits (depth : ℕ) (s : Store PyString) (document : Document)
    (r : Store PyString × Except FileError Unit) : Prop where
  written : nesting document ≤ depth → r.2 = .ok () ∧ r.1.document = document ∧
    r.1.backing = (dumpsTree (.obj document.entries)).spaced
  refused : depth < nesting document → (∃ e, r.2 = .error e) ∧ r.1.backing = s.backing ∧
    ∀ l, r.1.document.get l = s.document.get l

theorem commits_commitSet (h : HasEntries s.document) {data : Bytes} {w : PyValue}
    (hw : encodeValue I key data = .ok w) :
    Commits depth s (s.document.set key w) (s.commitSet (stringBacking I depth) key w) := by
  rw [Backed.Store.commitSet]
  rcases persistText_eq depth (h.set hw) s.backing with ⟨hle, hpersist⟩ | ⟨hlt, e, hpersist⟩
  · have hstep : (stringBacking I depth).persist s.backing (s.document.set key w) = _ := hpersist
    rw [hstep]
    exact ⟨fun _ => ⟨rfl, rfl, rfl⟩, fun hlt => absurd hlt hle.not_gt⟩
  · have hstep : (stringBacking I depth).persist s.backing (s.document.set key w) = _ := hpersist
    rw [hstep]
    refine ⟨fun hle => absurd hlt hle.not_gt, fun _ => ⟨⟨e, rfl⟩, rfl, fun l => ?_⟩⟩
    exact congrArg (fun d : Document => d.get l) (Json.Members.undoSet_eq _ _ _)

theorem commits_commitErase (h : HasEntries s.document) :
    Commits depth s (s.document.erase key) (s.commitErase (stringBacking I depth) key) := by
  rw [Backed.Store.commitErase]
  rcases persistText_eq depth (h.erase key) s.backing with ⟨hle, hpersist⟩ | ⟨hlt, e, hpersist⟩
  · have hstep : (stringBacking I depth).persist s.backing (s.document.erase key) = _ := hpersist
    rw [hstep]
    exact ⟨fun _ => ⟨rfl, rfl, rfl⟩, fun hlt => absurd hlt hle.not_gt⟩
  · have hstep : (stringBacking I depth).persist s.backing (s.document.erase key) = _ := hpersist
    rw [hstep]
    exact ⟨fun hle => absurd hlt hle.not_gt, fun _ => ⟨⟨e, rfl⟩, rfl, fun l => Json.Members.get_undoErase⟩⟩

/-- An operation persists nothing and is idle, or commits the document that it persists. -/
theorem step_commits (I : Interpreter) (depth : ℕ) (h : HasEntries s.document) (op : Op) :
    (persisted I s op = none ∧ ((storeMachine I (stringBacking I depth)).step s op).1 = s ∧
        ((storeMachine I (stringBacking I depth)).step s op).2.IsIdle) ∨
      ∃ document r, persisted I s op = some document ∧ HasEntries document ∧
        Commits depth s document r ∧
        (storeMachine I (stringBacking I depth)).step s op = (r.1, .ofCommit r.2) := by
  rcases step_cases I (stringBacking I depth) s op with
    hidle | ⟨key, w, data, hw, hpersisted, hstep, hreply⟩ | ⟨key, hpersisted, hstep, hreply⟩
  · exact Or.inl hidle
  · exact Or.inr ⟨_, _, hpersisted, h.set hw, commits_commitSet h hw, Prod.ext hstep hreply⟩
  · exact Or.inr ⟨_, _, hpersisted, h.erase key, commits_commitErase h, Prod.ext hstep hreply⟩

/-- Every step keeps the text in step. -/
theorem Says.step (h : Says I depth s) (op : Op) :
    Says I depth ((storeMachine I (stringBacking I depth)).step s op).1 := by
  rcases step_commits I depth h.entries op with
    ⟨-, hsame, -⟩ | ⟨document, r, -, hentries, hcommits, hstep⟩
  · rw [hsame]
    exact h
  · rw [hstep]
    rcases le_or_gt (nesting document) depth with hle | hlt
    · obtain ⟨-, hdocument, hbacking⟩ := hcommits.written hle
      refine ⟨hdocument ▸ hentries, fun hscan => ⟨document, ?_, fun l => by rw [hdocument]⟩⟩
      rw [hbacking]
      exact loadText_spaced hentries (hdocument ▸ hscan)
    · obtain ⟨-, hbacking, hget⟩ := hcommits.refused hlt
      refine ⟨fun l value hvalue => h.entries l value (by rw [← hget]; exact hvalue), fun hscan => ?_⟩
      have hnesting : nesting r.1.document = nesting s.document := nesting_eq_of_get hget
      refine (h.synced (hnesting ▸ hscan)).unchanged ?_ hget
      rw [hbacking]

/-- A lenient store over a text that loads. -/
theorem exists_construct (depth : ℕ) {d : Document} (hload : loadText I text = .ok d) :
    ∃ fresh, construct (stringBacking I depth) text false false = .ok fresh ∧ fresh.document = d ∧
      ∀ key, key ∈ fresh.skipped ↔ ∃ value, d.get key = some value ∧ Faulty key value := by
  refine ⟨⟨text, d, false, ((validate d).map Rules.ValidationIssue.key).toFinset⟩, ?_, rfl, fun key => ?_⟩
  · have hconstruct : (stringBacking I depth).load text = .ok d := hload
    rw [construct, hconstruct]
    rfl
  · rw [List.mem_toFinset]
    exact mem_issueKeys d key

/-- A store whose text loads is built anew from the text. -/
theorem Says.exists_fresh {initial : PyString → Option PyValue} (h : Says I depth s)
    (hskips : s.Skips Faulty initial) (hscan : nesting s.document ≤ I.scanDepth) :
    ∃ fresh, construct (stringBacking I depth) s.backing false false = .ok fresh ∧
      (∀ key, fresh.document.get key = s.document.get key) ∧ fresh.skipped = s.skipped := by
  obtain ⟨d, hload, hget⟩ := h.synced hscan
  obtain ⟨fresh, hfresh, rfl, hskipped⟩ := exists_construct depth hload
  refine ⟨fresh, hfresh, hget, ?_⟩
  ext key
  rw [hskipped, hskips.mem_iff, hget]

/-- What a call leaves: a text from which the store can be built anew, that is the document on one
line if the call made a change; the backing refuses exactly the changes that nest too deep; and
a call that makes no change leaves the text and every member. -/
structure KeepsText (I : Interpreter) (depth : ℕ)
    (e : Transition.Event (Store PyString) Op (Reply FileError)) : Prop where
  reloads : nesting e.after.document ≤ I.scanDepth →
    ∃ fresh, construct (stringBacking I depth) e.after.backing false false = .ok fresh ∧
      (∀ key, fresh.document.get key = e.after.document.get key) ∧ fresh.skipped = e.after.skipped
  written : e.reply = .done → dumpsLine depth false (.obj e.after.document.entries) = .ok e.after.backing
  refused : (∃ error, e.reply = .failed (.backing error)) ↔
    ∃ document, persisted I e.before e.op = some document ∧ depth < nesting document
  unchanged : e.reply ≠ .done → e.after.backing = e.before.backing ∧
    ∀ key, e.after.document.get key = e.before.document.get key

/-- Every step from a store whose text says its document. -/
theorem Says.keepsText {initial : PyString → Option PyValue} (h : Says I depth s)
    (hskips : s.Skips Faulty initial) (op : Op) :
    KeepsText I depth ⟨s, op, ((storeMachine I (stringBacking I depth)).step s op).1,
      ((storeMachine I (stringBacking I depth)).step s op).2⟩ := by
  have hreloads := (h.step op).exists_fresh (step_shrinks op hskips).1
  rcases step_commits I depth h.entries op with
    ⟨hnone, hsame, hidle⟩ | ⟨document, r, hpersisted, hentries, hcommits, hstep⟩
  · refine ⟨hreloads, fun hdone => absurd hdone hidle.not_done, ⟨?_, ?_⟩, fun _ => ?_⟩
    · rintro ⟨error, herror⟩
      exact absurd herror (hidle.not_failed error)
    · rintro ⟨document, hdocument, -⟩
      have hdocument' : persisted I s op = some document := hdocument
      rw [hnone] at hdocument'
      cases hdocument'
    · show ((storeMachine I (stringBacking I depth)).step s op).1.backing = s.backing ∧ _
      rw [hsame]
      exact ⟨rfl, fun _ => rfl⟩
  · rw [hstep] at hreloads ⊢
    have honly : ∀ d, persisted I s op = some d → d = document := by
      intro d hd
      rw [hpersisted] at hd
      exact (Option.some.inj hd).symm
    rcases le_or_gt (nesting document) depth with hle | hlt
    · obtain ⟨hok, hdocument, hbacking⟩ := hcommits.written hle
      rw [hok] at hreloads ⊢
      refine ⟨hreloads, fun _ => ?_, ⟨?_, ?_⟩, fun hnot => absurd rfl hnot⟩
      · show dumpsLine depth false (.obj r.1.document.entries) = .ok r.1.backing
        rw [hdocument, hbacking]
        exact dumpsLine_of_isPlain hentries.isPlain hle
      · rintro ⟨error, herror⟩
        cases herror
      · rintro ⟨d, hd, hdeep⟩
        rw [honly d hd] at hdeep
        exact absurd hdeep hle.not_gt
    · obtain ⟨⟨e, he⟩, hbacking, hget⟩ := hcommits.refused hlt
      rw [he] at hreloads ⊢
      refine ⟨hreloads, fun hdone => ?_, ⟨fun _ => ⟨document, hpersisted, hlt⟩, fun _ => ⟨e, rfl⟩⟩,
        fun _ => ⟨hbacking, hget⟩⟩
      cases hdone

theorem says_of_construct {readOnly strict : Bool}
    (h : construct (stringBacking I depth) text readOnly strict = .ok s) : Says I depth s := by
  have hload : (stringBacking I depth).load s.backing = .ok s.document := by
    rw [construct] at h
    split at h
    · cases h
    · next document hdocument =>
        split at h
        · split at h
          · cases h
          · cases h
            exact hdocument
        · cases h
          exact hdocument
  exact ⟨hasEntries_of_loadText hload, fun _ => ⟨s.document, hload, fun _ => rfl⟩⟩

end Run

/-- In every run of every store over a string, every call leaves a text that says the document in
memory. -/
theorem stringBacking_keeps (I : Interpreter) (depth : ℕ) (text : PyString) (readOnly strict : Bool)
    (s : Store PyString) (hs : construct (stringBacking I depth) text readOnly strict = .ok s)
    (ops : List Op) : ∀ e ∈ (storeMachine I (stringBacking I depth)).events s ops, KeepsText I depth e := by
  refine Transition.Machine.forall_events
    (P := fun t => Says I depth t ∧ t.Skips Faulty s.document.get)
    (fun t op ht => ⟨ht.1.step op, (step_shrinks op ht.2).1⟩) (fun t op ht => ht.1.keepsText ht.2 op)
    ⟨says_of_construct hs, (construct_skips hs).1⟩

/-- A store over `{}`. -/
def emptyStringStore : Store PyString := ⟨py "\x7b\x7d", .empty, false, ∅⟩

theorem stringBacking_keeps_emptyStringStore :
    construct (stringBacking cpython 990) (py "\x7b\x7d") false true = .ok emptyStringStore ∧
      ∀ e ∈ (storeMachine cpython (stringBacking cpython 990)).events emptyStringStore
        [.set (py "a") [91, 49, 93], .delete (py "a")], KeepsText cpython 990 e := by
  have hconstruct : construct (stringBacking cpython 990) (py "\x7b\x7d") false true
      = .ok emptyStringStore := rfl
  exact ⟨hconstruct, stringBacking_keeps cpython 990 _ false true emptyStringStore hconstruct _⟩

end Python
