import ZarrInline.TypeScript.Isolation
import ZarrInline.TypeScript.Skipping

/-!
# Durability of a text

A store over a text rewrites the whole text on every change.  The text holds less than
the document: a double in integer digits comes back as a big integer, and negative zero
as zero.  What a member reads as is kept (`reading`), so a store built anew from the text
gives the same replies as the one that wrote it.

The invariant is `Durable`: the text loads, and its document reads as the one in memory.
A change that fails leaves the text, and its undoing leaves every member.
-/

namespace TypeScript

/-! ## What a member reads as -/

/-- The issue of a member, and what it decodes to. -/
def reading (key : JsString) (value : JsValue) :
    Option ValidationIssue × Except JsError Bytes :=
  (memberIssue key value, decodeValue key value)

/-- Two documents with members that read alike at the same keys. -/
def Mirrors (d d' : Document) : Prop :=
  ∀ key, (d.get key).map (reading key) = (d'.get key).map (reading key)

variable {d d' : Document} {key : JsString}

theorem Mirrors.get_isSome (h : Mirrors d d') (key : JsString) :
    (d.get key).isSome = (d'.get key).isSome := by
  have hkey := congrArg Option.isSome (h key)
  rw [Option.isSome_map, Option.isSome_map] at hkey
  exact hkey

/-- Documents that read alike have the same faulty keys. -/
theorem Mirrors.faulty_iff (h : Mirrors d d') (key : JsString) :
    (∃ value, d.get key = some value ∧ Faulty key value) ↔
      ∃ value, d'.get key = some value ∧ Faulty key value := by
  have hissue : ∀ d : Document, (∃ value, d.get key = some value ∧ Faulty key value) ↔
      ∃ r, (d.get key).map (reading key) = some r ∧ r.1.isSome := by
    intro d
    constructor
    · rintro ⟨value, hvalue, hfaulty⟩
      exact ⟨reading key value, by rw [hvalue]; rfl, hfaulty⟩
    · rintro ⟨r, hr, hsome⟩
      obtain ⟨value, hvalue, rfl⟩ := Option.map_eq_some_iff.1 hr
      exact ⟨value, hvalue, hsome⟩
  rw [hissue, hissue, h key]

/-- Stores that skip the same keys and whose documents read alike have the same `get`. -/
theorem get_congr {s s' : Store JsString} (h : Mirrors s.document s'.document)
    (hskip : s.skipped = s'.skipped) (key : JsString) :
    Store.get (ε := DocumentError) s key = s'.get key := by
  have hpresent : s.present (docKey key) = s'.present (docKey key) := by
    rw [Backed.Store.present, Backed.Store.present, h.get_isSome, hskip]
  have hread := h (docKey key)
  rw [Store.get, Store.get, hpresent]
  cases hvalue : s.document.get (docKey key) with
  | none =>
      rw [hvalue, Option.map_none, eq_comm, Option.map_eq_none_iff] at hread
      rw [hread]
  | some value =>
      rw [hvalue, Option.map_some, eq_comm, Option.map_eq_some_iff] at hread
      obtain ⟨value', hvalue', heq⟩ := hread
      have hdecode : decodeValue (docKey key) value' = decodeValue (docKey key) value :=
        congrArg Prod.snd heq
      simp only [hvalue', hdecode]

/-! ## Reading a text back -/

/-- Reading an atom back gives no object. -/
theorem isPlainObject_reparse {a : JsAtom} (h : a.IsCanonical) :
    isObject (.num (reparse a)) = false ∧ isPlainObject (.num (reparse a)) = false := by
  cases a with
  | number x =>
      simp only [reparse]
      split_ifs <;> exact ⟨rfl, rfl⟩
  | bigint i =>
      simp only [reparse]
      split_ifs <;> exact ⟨rfl, rfl⟩
  | _ => exact h.elim

theorem isPlainObject_of_isCanonical {a : JsAtom} (h : a.IsCanonical) :
    isObject (.num a) = false ∧ isPlainObject (.num a) = false := by
  cases a with
  | number x => exact ⟨rfl, rfl⟩
  | bigint i => exact ⟨rfl, rfl⟩
  | _ => exact h.elim

/-- An atom that is no object reads as `null` does. -/
theorem reading_atom {a : JsAtom} (hobj : isObject (.num a) = false)
    (hplain : isPlainObject (.num a) = false) (key : JsString) :
    reading key (.num a) = reading key .null := by
  have hissue : memberIssue key (.num a) = memberIssue key .null := by
    simp only [memberIssue, Rules.memberIssue, Rules.checkValueType, Rules.valueMessage?, kinds, hobj]
    rfl
  have hdec : decodeValue key (.num a) = decodeValue key .null := by
    simp only [decodeValue, hplain]
    rfl
  rw [reading, reading, hissue, hdec]

/-- Reading a value back does not change what a member reads as. -/
theorem reading_map_reparse {v : JsValue}
    (h : v.Every (fun _ => True) JsAtom.IsCanonical (fun _ => True)) (key : JsString) :
    reading key (v.map id reparse) = reading key v := by
  cases v with
  | null => rfl
  | bool b => rfl
  | str s => rfl
  | num a =>
      have ha : a.IsCanonical := (Json.every_num a).1 h
      have hreparse := isPlainObject_reparse ha
      have hatom := isPlainObject_of_isCanonical ha
      show reading key (.num (reparse a)) = reading key (.num a)
      rw [reading_atom hreparse.1 hreparse.2, reading_atom hatom.1 hatom.2]
  | arr xs =>
      have htext := @canonicalStringify_map_reparse (.arr xs) trivial
      rw [Json.map_arr] at htext ⊢
      have hdec : ∀ ys : List JsValue, decodeValue key (.arr ys)
          = if isMetadataKey key then .error (.metadataMustMap key)
            else (canonicalStringify (.arr ys)).map utf8Encode := fun ys => by
        simp only [decodeValue, isArray, isPlainObject]
        rfl
      rw [reading, reading, hdec, hdec, htext]
      rfl
  | obj ms =>
      have htext := @canonicalStringify_map_reparse (.obj ms) trivial
      rw [Json.map_obj] at htext ⊢
      have hdec : ∀ ns : List (JsString × JsValue), decodeValue key (.obj ns)
          = (canonicalStringify (.obj ns)).map utf8Encode := fun ns => by
        simp only [decodeValue, isArray, isPlainObject]
        cases isMetadataKey key <;> rfl
      rw [reading, reading, hdec, hdec, htext]
      rfl

/-- Every member is a value that parsing can give, up to lone surrogates. -/
def Parsed (document : Document) : Prop :=
  ∀ key value, document.get key = some value →
    value.Every (fun _ => True) JsAtom.IsCanonical (Json.Ordered arrayIndex?)

/-- The text of a document loads, to a document that reads alike. -/
theorem load_documentText {document : Document} {text : JsString} (hvalues : Parsed document)
    (h : documentText document = .ok text) :
    ∃ d, stringBacking.load text = .ok d ∧ Mirrors d document := by
  have hevery : ∀ m ∈ document.entries,
      m.2.Every (fun _ => True) JsAtom.IsCanonical (Json.Ordered arrayIndex?) :=
    fun m hm => hvalues m.1 m.2 (Json.Members.get_of_mem hm)
  have hjson : IsJson (.obj document.entries) := by
    have hwf := (canonicalStringify_eq_ok_iff.1 h).1
    have hord : (Json.obj document.entries : JsValue).Every (fun _ => True) JsAtom.IsCanonical
        (Json.Ordered arrayIndex?) :=
      (Json.every_obj _).2 ⟨document.ordered, fun m hm => ⟨trivial, hevery m hm⟩⟩
    exact (hwf.and hord).imp (fun _ h => h.1) (fun _ h => h.1) fun _ h => h.2
  have hparse := strictParse_canonicalStringify hjson h
  rw [Json.map_obj] at hparse
  refine ⟨.ofList (document.entries.map fun m => (m.1, m.2.map id reparse)), ?_, fun key => ?_⟩
  · simp only [stringBacking, hparse, requireDocumentObject]
    rfl
  · have hord : Json.Ordered arrayIndex?
        ((document.entries.map fun m => (m.1, m.2.map id reparse)).map Prod.fst) := by
      rw [List.map_map]
      exact document.ordered
    have hget : (Json.Members.ofList
        (document.entries.map fun m => (m.1, m.2.map id reparse)) : Document).get key
          = (document.get key).map (Json.map id reparse) := by
      show Json.lookup key (Json.collapse arrayIndex? _) = _
      rw [Json.collapse_of_ordered hord, Json.lookup_map]
      rfl
    rw [hget, Option.map_map]
    refine Option.map_congr fun value hvalue => ?_
    exact reading_map_reparse ((hvalues key value hvalue).imp (fun _ => id) (fun _ => id)
      fun _ _ => trivial) key

/-! ## The invariant -/

/-- The text of a store loads, to a document that reads as the one in memory. -/
structure Durable (s : Store JsString) : Prop where
  parsed : Parsed s.document
  mirrors : ∃ d, stringBacking.load s.backing = .ok d ∧ Mirrors d s.document

variable {s s' : Store JsString} {value : JsValue}

/-- What neither rewrites the text nor changes a member. -/
theorem Durable.unchanged (h : Durable s) (hbacking : s'.backing = s.backing)
    (hget : ∀ key, s'.document.get key = s.document.get key) : Durable s' where
  parsed := by
    intro key value hvalue
    rw [hget] at hvalue
    exact h.parsed key value hvalue
  mirrors := by
    obtain ⟨d, hload, hmirrors⟩ := h.mirrors
    refine ⟨d, by rw [hbacking, hload], fun key => ?_⟩
    rw [hget, hmirrors]

/-- What rewrites the text. -/
theorem Durable.written (hparsed : Parsed s.document) (htext : documentText s.document = .ok s.backing) :
    Durable s :=
  ⟨hparsed, load_documentText hparsed htext⟩

theorem Durable.commitSet (h : Durable s)
    (hvalue : value.Every (fun _ => True) JsAtom.IsCanonical (Json.Ordered arrayIndex?)) :
    Durable (s.commitSet stringBacking key value).1 := by
  simp only [Backed.Store.commitSet, stringBacking]
  cases htext : documentText (s.document.set key value) with
  | ok text =>
      refine Durable.written (fun l v hv => ?_) htext
      rw [Json.Members.get_set] at hv
      split_ifs at hv
      · cases hv
        exact hvalue
      · exact h.parsed l v hv
  | error e =>
      refine h.unchanged rfl fun l => ?_
      show (s.document.undoSet key value).get l = s.document.get l
      rw [Json.Members.undoSet_eq]

theorem Durable.commitErase (h : Durable s) :
    Durable (s.commitErase stringBacking key).1 := by
  simp only [Backed.Store.commitErase, stringBacking]
  cases htext : documentText (s.document.erase key) with
  | ok text =>
      refine Durable.written (fun l v hv => ?_) htext
      rw [Json.Members.get_erase] at hv
      split_ifs at hv
      exact h.parsed l v hv
  | error e => exact h.unchanged rfl fun l => Json.Members.get_undoErase

theorem Durable.setBytes (h : Durable s) (key : JsString) (data : Bytes) :
    Durable (s.setBytes stringBacking key data).1 := by
  rw [Store.setBytes]
  split
  · exact h
  · split
    · exact h
    · split
      · exact h
      · next encoded hencoded =>
          have hcommit : Durable (s.commitSet stringBacking (docKey key) encoded).1 :=
            h.commitSet (every_encodeValue hencoded)
          split <;> next heq => rw [heq] at hcommit; exact hcommit

/-- Every step keeps the invariant. -/
theorem Durable.step (h : Durable s) (op : Op) :
    Durable ((storeMachine stringBacking).step s op).1 := by
  cases op with
  | get key =>
      simp only [storeMachine]
      split <;> exact h
  | has key => exact h
  | list => exact h
  | set key value => exact h.setBytes key value
  | setJson key value =>
      simp only [storeMachine]
      rcases setJson_cases stringBacking s key value with ⟨text, -, hset⟩ | ⟨e, hset, -⟩
      · rw [hset]
        exact h.setBytes key _
      · rw [hset]
        exact h
  | delete key =>
      simp only [storeMachine, Store.delete]
      split
      · exact h
      · have hcommit : Durable (s.commitErase stringBacking (docKey key)).1 := h.commitErase
        split <;> next heq => rw [heq] at hcommit; exact hcommit

/-- A lenient store over a text that loads. -/
theorem exists_construct {text : JsString} (hload : stringBacking.load text = .ok d) :
    ∃ fresh, construct stringBacking text {} = .ok fresh ∧ fresh.document = d ∧
      ∀ key, key ∈ fresh.skipped ↔ ∃ value, d.get key = some value ∧ Faulty key value := by
  refine ⟨⟨text, d, false, ((validate d).map Rules.ValidationIssue.key).toFinset⟩, ?_, rfl,
    fun key => ?_⟩
  · rw [construct, hload]
    rfl
  · rw [List.mem_toFinset, mem_issueKeys]

/-- A new store keeps the backing it is given. -/
theorem backing_construct {β ε : Type} {B : Backing β ε} {b : β} {options : StoreOptions}
    {s : Store β} (h : construct B b options = .ok s) : s.backing = b := by
  rw [construct] at h
  split at h
  · cases h
  · split at h
    · split at h
      · cases h
      · cases h
        rfl
    · cases h
      rfl

/-- After every run from every store over a text that loads, a lenient store built anew
from the text has the same keys, skips the same keys and gives the same replies to
`get`. -/
theorem text_durable (text : JsString) (options : StoreOptions) (s : Store JsString)
    (hs : construct stringBacking text options = .ok s) (ops : List Op) :
    ∃ fresh, construct stringBacking ((storeMachine stringBacking).exec s ops).backing {}
        = .ok fresh ∧
      (∀ key, key ∈ fresh.document.keys ↔
        key ∈ ((storeMachine stringBacking).exec s ops).document.keys) ∧
      fresh.skipped = ((storeMachine stringBacking).exec s ops).skipped ∧
      ∀ key, Store.get (ε := DocumentError) fresh key
        = ((storeMachine stringBacking).exec s ops).get key := by
  have hload : stringBacking.load s.backing = .ok s.document := by
    rw [backing_construct hs]
    exact (construct_eq_ok hs).1
  have hinitial : Durable s ∧ s.Skips Faulty s.document.get :=
    ⟨⟨fun _ _ hvalue => every_of_load hload hvalue, s.document, hload, fun _ => rfl⟩,
      (construct_skips hs).1⟩
  have hrun : Durable ((storeMachine stringBacking).exec s ops) ∧
      ((storeMachine stringBacking).exec s ops).Skips Faulty s.document.get :=
    Transition.Machine.exec_induct (A := fun _ => True)
      (P := fun t => Durable t ∧ t.Skips Faulty s.document.get)
      (fun t op _ ht => ⟨ht.1.step op, (step_shrinks op ht.2).1⟩) (fun _ _ => trivial) hinitial
  generalize (storeMachine stringBacking).exec s ops = live at hrun
  obtain ⟨⟨-, d, hlive, hmirrors⟩, hskips⟩ := hrun
  obtain ⟨fresh, hfresh, rfl, hskipped⟩ := exists_construct hlive
  have hskip : fresh.skipped = live.skipped := by
    ext key
    rw [hskipped, hskips.mem_iff]
    exact hmirrors.faulty_iff key
  refine ⟨fresh, hfresh, fun key => ?_, hskip, get_congr hmirrors hskip⟩
  rw [← Json.Members.get_isSome_iff, ← Json.Members.get_isSome_iff, hmirrors.get_isSome]

theorem text_durable_emptyText :
    ∃ fresh, construct stringBacking ((storeMachine stringBacking).exec
        ⟨emptyText, documentWith [], false, ∅⟩ [.set (js "a") [45, 48], .delete (js "k")]).backing {}
        = .ok fresh ∧
      (∀ key, key ∈ fresh.document.keys ↔ key ∈ ((storeMachine stringBacking).exec
        ⟨emptyText, documentWith [], false, ∅⟩ [.set (js "a") [45, 48], .delete (js "k")]).document.keys) ∧
      fresh.skipped = ((storeMachine stringBacking).exec
        ⟨emptyText, documentWith [], false, ∅⟩ [.set (js "a") [45, 48], .delete (js "k")]).skipped ∧
      ∀ key, Store.get (ε := DocumentError) fresh key = ((storeMachine stringBacking).exec
        ⟨emptyText, documentWith [], false, ∅⟩ [.set (js "a") [45, 48], .delete (js "k")]).get key :=
  text_durable emptyText {} _ construct_emptyText _

end TypeScript
