import ZarrInline.TypeScript.Store

/-!
# Isolation of keys

A store over a text writes the whole document on every change, so a change fails when any
member cannot be written.  Which members can is `CanWrite`: a name and strings without
lone surrogates.

Two documents that differ at one key only give the same replies, as long as the key is
not named, in three cases (`Alike`): nothing is ever written, the two values are both
writable or both not, or two other members cannot be written, so that no single change
ever goes through.  In every other case some removal tells them apart.
-/

namespace TypeScript

open Json.Members (AgreeOff)

/-! ## What can be written -/

/-- A member that can be written. -/
def CanWrite (key : JsString) (value : JsValue) : Prop :=
  Unicode.IsWellFormed key ∧ value.Every Unicode.IsWellFormed JsAtom.IsCanonical (fun _ => True)

/-- Every member can be written. -/
def Writable (document : Document) : Prop :=
  ∀ key value, document.get key = some value → CanWrite key value

/-- Every atom is a finite number or a big integer. -/
def AtomsCanonical (document : Document) : Prop :=
  ∀ key value, document.get key = some value →
    value.Every (fun _ => True) JsAtom.IsCanonical (fun _ => True)

theorem isOk_documentText (document : Document) :
    Json.IsOk (documentText document) ↔ Writable document := by
  have hwrite : documentText document = writeCanonical (.obj document.entries) := rfl
  rw [hwrite, isOk_writeCanonical, Json.every_obj]
  constructor
  · rintro ⟨-, h⟩ key value hvalue
    exact h (key, value) (Json.mem_of_lookup hvalue)
  · intro h
    exact ⟨trivial, fun m hm => h m.1 m.2 (Json.Members.get_of_mem hm)⟩

/-- The only error is a lone surrogate. -/
theorem documentText_error {document : Document} (hatoms : AtomsCanonical document) {e : JsError}
    (h : documentText document = .error e) : e = .loneSurrogate := by
  have hwrite : writeCanonical (.obj document.entries) = .error e := h
  refine Json.write_error (w := canonicalScript) (q := JsAtom.IsCanonical)
    (P := fun e => e = .loneSurrogate) ?_ ?_ ?_ hwrite
  · intro k e hk
    simp only [canonicalScript, writeCanonicalString] at hk
    split_ifs at hk
    cases hk
    rfl
  · intro a e ha hae
    cases a with
    | number x =>
        have hx : x.IsFinite := ha
        simp only [canonicalScript, writeCanonicalAtom, writeCanonicalNumber, if_pos hx] at hae
        cases hae
    | bigint i => cases hae
    | _ => exact ha.elim
  · exact (Json.every_obj _).2 ⟨trivial, fun m hm =>
      ⟨trivial, hatoms m.1 m.2 (Json.Members.get_of_mem hm)⟩⟩

/-- Persisting succeeds or finds a lone surrogate. -/
theorem persist_cases {document : Document} (hatoms : AtomsCanonical document) (text : JsString) :
    (Writable document ∧ ∃ b, stringBacking.persist text document = (b, .ok ())) ∨
      ¬ Writable document ∧
        ∃ b, stringBacking.persist text document = (b, .error (.codec .loneSurrogate)) := by
  have hok := isOk_documentText document
  unfold stringBacking
  cases h : documentText document with
  | ok t => exact Or.inl ⟨hok.1 (by rw [h]; trivial), t, by simp only [h]⟩
  | error e =>
      obtain rfl := documentText_error hatoms h
      exact Or.inr ⟨fun hw => by simpa [h] using hok.2 hw, text, by simp only [h]⟩

theorem commitSet_cases {s : Store JsString} {key : JsString} {value : JsValue}
    (hatoms : AtomsCanonical (s.document.set key value)) :
    (Writable (s.document.set key value) ∧ ∃ b, s.commitSet stringBacking key value
        = (⟨b, s.document.set key value, s.readOnly, s.skipped.erase key⟩, .ok ())) ∨
      ¬ Writable (s.document.set key value) ∧ ∃ b, s.commitSet stringBacking key value
        = (⟨b, s.document, s.readOnly, s.skipped⟩, .error (.codec .loneSurrogate)) := by
  unfold Backed.Store.commitSet
  rcases persist_cases hatoms s.backing with ⟨hw, b, hb⟩ | ⟨hw, b, hb⟩
  · exact Or.inl ⟨hw, b, by simp only [hb]⟩
  · exact Or.inr ⟨hw, b, by simp only [hb, Json.Members.undoSet_eq]⟩

theorem commitErase_cases {s : Store JsString} {key : JsString}
    (hatoms : AtomsCanonical (s.document.erase key)) :
    (Writable (s.document.erase key) ∧ ∃ b, s.commitErase stringBacking key
        = (⟨b, s.document.erase key, s.readOnly, s.skipped.erase key⟩, .ok ())) ∨
      ¬ Writable (s.document.erase key) ∧ ∃ b, s.commitErase stringBacking key
        = (⟨b, s.document.undoErase key, s.readOnly, s.skipped⟩, .error (.codec .loneSurrogate)) := by
  unfold Backed.Store.commitErase
  rcases persist_cases hatoms s.backing with ⟨hw, b, hb⟩ | ⟨hw, b, hb⟩
  · exact Or.inl ⟨hw, b, by simp only [hb]⟩
  · exact Or.inr ⟨hw, b, by simp only [hb]⟩

theorem AtomsCanonical.set {document : Document} (h : AtomsCanonical document) {key : JsString}
    {value : JsValue} (hvalue : value.Every (fun _ => True) JsAtom.IsCanonical (fun _ => True)) :
    AtomsCanonical (document.set key value) := by
  intro l v hv
  rw [Json.Members.get_set] at hv
  split_ifs at hv
  · cases hv; exact hvalue
  · exact h l v hv

theorem AtomsCanonical.erase {document : Document} (h : AtomsCanonical document) (key : JsString) :
    AtomsCanonical (document.erase key) := by
  intro l v hv
  rw [Json.Members.get_erase] at hv
  split_ifs at hv
  exact h l v hv

theorem AtomsCanonical.undoErase {document : Document} (h : AtomsCanonical document)
    (key : JsString) : AtomsCanonical (document.undoErase key) := by
  intro l v hv
  rw [Json.Members.get_undoErase] at hv
  exact h l v hv

/-- What `encodeValue` stores has canonical atoms, and its objects enumerate their members
in order. -/
theorem every_encodeValue {key : JsString} {data : Bytes} {value : JsValue}
    (h : encodeValue key data = .ok value) :
    value.Every (fun _ => True) JsAtom.IsCanonical (Json.Ordered arrayIndex?) := by
  cases hkey : isMetadataKey key with
  | true =>
      simp only [encodeValue, hkey, if_true] at h
      cases htext : utf8Decode data with
      | error e => rw [htext] at h; cases h
      | ok text =>
          cases hp : strictParse text with
          | error e => rw [htext] at h; simp only [bind, Except.bind, hp] at h; cases h
          | ok parsed =>
              rw [htext] at h
              simp only [bind, Except.bind, hp] at h
              split_ifs at h
              cases h
              exact every_strictParse hp
  | false =>
      cases hinl : tryInlineJson data with
      | none =>
          rw [(encodeValue_of_none hkey hinl).1] at h
          cases h
          exact (Json.every_str _).2 trivial
      | some v =>
          rw [(encodeValue_of_some hkey hinl).1] at h
          cases h
          exact (tryInlineJson_sound hinl).2.1.imp (fun _ _ => trivial) (fun _ => id) fun _ => id

/-- What `encodeValue` stores has canonical atoms. -/
theorem atoms_encodeValue {key : JsString} {data : Bytes} {value : JsValue}
    (h : encodeValue key data = .ok value) :
    value.Every (fun _ => True) JsAtom.IsCanonical (fun _ => True) :=
  (every_encodeValue h).imp (fun _ => id) (fun _ => id) fun _ _ => trivial

/-! ## Two documents -/

/-- The member at a key, if there is one, can be written. -/
def Good (key : JsString) (document : Document) : Prop :=
  ∀ value, document.get key = some value → CanWrite key value

/-- Another member than the one at `key` that cannot be written. -/
def Bad (key other : JsString) (document : Document) : Prop :=
  other ≠ key ∧ ∃ value, document.get other = some value ∧ ¬ CanWrite other value

/-- Two documents that differ at `key` only are written alike: nothing is written, or the
members at `key` can be written or not alike, or two others cannot. -/
def Alike (key : JsString) (readOnly : Bool) (d d' : Document) : Prop :=
  readOnly = true ∨ (Good key d ↔ Good key d') ∨ ∃ a b, a ≠ b ∧ Bad key a d ∧ Bad key b d

variable {k l : JsString} {d d' e e' : Document}

theorem writable_iff : Writable d ↔ (∀ a, ¬ Bad k a d) ∧ Good k d := by
  constructor
  · intro h
    refine ⟨?_, fun value hvalue => h k value hvalue⟩
    rintro a ⟨-, value, hvalue, hnot⟩
    exact hnot (h a value hvalue)
  · rintro ⟨hbad, hgood⟩ key value hvalue
    by_cases hk : key = k
    · subst hk
      exact hgood value hvalue
    · by_contra hnot
      exact hbad key ⟨hk, value, hvalue, hnot⟩

theorem good_congr (h : e.get k = d.get k) : Good k e ↔ Good k d := by
  unfold Good
  rw [h]

theorem bad_congr {a : JsString} (h : e.get a = d.get a) : Bad k a e ↔ Bad k a d := by
  unfold Bad
  rw [h]

theorem bad_congr_of_agreeOff (h : AgreeOff k d d') (a : JsString) : Bad k a d ↔ Bad k a d' := by
  by_cases ha : a = k
  · exact iff_of_false (fun hbad => hbad.1 ha) fun hbad => hbad.1 ha
  · exact bad_congr (h.get a ha)

/-- A change at another key is written to both documents or to neither. -/
theorem writable_change (halike : Alike k false d d') (hl : l ≠ k) (hagree : AgreeOff k e e')
    (he : ∀ m, m ≠ l → e.get m = d.get m) (he' : ∀ m, m ≠ l → e'.get m = d'.get m) :
    (Writable e ↔ Writable e') ∧ (Writable e → Alike k false e e') := by
  have hbad : (∀ a, ¬ Bad k a e) ↔ ∀ a, ¬ Bad k a e' :=
    forall_congr' fun a => (bad_congr_of_agreeOff hagree a).not
  rcases halike with h | hgood | ⟨a, b, hab, ha, hb⟩
  · cases h
  · have hgood' : Good k e ↔ Good k e' := by
      rw [good_congr (he k hl.symm), good_congr (he' k hl.symm), hgood]
    refine ⟨?_, fun _ => Or.inr (Or.inl hgood')⟩
    rw [writable_iff (k := k), writable_iff (k := k), hbad, hgood']
  · -- one of the two members that cannot be written is still there
    have hstill : ∃ c, Bad k c e := by
      by_cases hal : a = l
      · exact ⟨b, (bad_congr (he b fun hbl => hab (hal.trans hbl.symm))).2 hb⟩
      · exact ⟨a, (bad_congr (he a hal)).2 ha⟩
    obtain ⟨c, hc⟩ := hstill
    have hw : ¬ Writable e := fun h => (writable_iff.1 h).1 c hc
    have hw' : ¬ Writable e' := fun h =>
      (writable_iff.1 h).1 c ((bad_congr_of_agreeOff hagree c).1 hc)
    exact ⟨iff_of_false hw hw', fun h => absurd h hw⟩

/-- Two stores that differ at `key` only and are written alike. -/
structure Related (key : JsString) (s s' : Store JsString) : Prop where
  agree : AgreeOff key s.document s'.document
  skipped : s.skipped = s'.skipped
  readOnly : s.readOnly = s'.readOnly
  atoms : AtomsCanonical s.document
  atoms' : AtomsCanonical s'.document
  alike : Alike key s.readOnly s.document s'.document

section Step

variable {s s' : Store JsString} {key : JsString}

theorem Related.present (h : Related k s s') (hkey : key ≠ k) : s.present key = s'.present key := by
  unfold Backed.Store.present
  rw [h.agree.get key hkey, h.skipped]

theorem Related.get (h : Related k s s') (hkey : docKey key ≠ k) :
    Store.get (ε := DocumentError) s key = s'.get key := by
  unfold Store.get
  rw [h.present hkey, h.agree.get _ hkey]

theorem Related.keys (h : Related k s s') : s.keys = s'.keys := by
  unfold Backed.Store.keys
  rw [h.agree.keys, h.skipped]

/-- A write at another key. -/
theorem Related.setBytes (h : Related k s s') (hkey : docKey key ≠ k) (value : Bytes) :
    (s.setBytes stringBacking key value).2 = (s'.setBytes stringBacking key value).2 ∧
      Related k (s.setBytes stringBacking key value).1 (s'.setBytes stringBacking key value).1 := by
  unfold Store.setBytes
  rw [← h.readOnly]
  cases hro : s.readOnly with
  | true => exact ⟨rfl, h⟩
  | false =>
      cases hcheck : checkKey (docKey key) with
      | some issue => exact ⟨rfl, h⟩
      | none =>
          cases hencoded : encodeValue (docKey key) value with
          | error e => exact ⟨rfl, h⟩
          | ok encoded =>
              have hatoms := @AtomsCanonical.set _ h.atoms (docKey key) _ (atoms_encodeValue hencoded)
              have hatoms' := @AtomsCanonical.set _ h.atoms' (docKey key) _ (atoms_encodeValue hencoded)
              have hagree := h.agree.set (docKey key) encoded
              obtain ⟨hiff, halike⟩ := writable_change (hro ▸ h.alike) hkey hagree
                (fun m hm => Json.Members.get_set_of_ne hm.symm)
                fun m hm => Json.Members.get_set_of_ne hm.symm
              rcases commitSet_cases hatoms with ⟨hw, b, hb⟩ | ⟨hw, b, hb⟩
              · rcases commitSet_cases hatoms' with ⟨hw', b', hb'⟩ | ⟨hw', -⟩
                · simp only [Bool.false_eq_true, if_false, hb, hb']
                  exact ⟨trivial, hagree, by rw [h.skipped], h.readOnly, hatoms, hatoms',
                    hro ▸ halike hw⟩
                · exact absurd (hiff.1 hw) hw'
              · rcases commitSet_cases hatoms' with ⟨hw', -⟩ | ⟨hw', b', hb'⟩
                · exact absurd (hiff.2 hw') hw
                · simp only [Bool.false_eq_true, if_false, hb, hb']
                  exact ⟨trivial, h.agree, h.skipped, h.readOnly, h.atoms, h.atoms', h.alike⟩

/-- A removal of another key. -/
theorem Related.delete (h : Related k s s') (hkey : docKey key ≠ k) :
    (Store.delete stringBacking s key).2 = (s'.delete stringBacking key).2 ∧
      Related k (s.delete stringBacking key).1 (s'.delete stringBacking key).1 := by
  unfold Store.delete
  rw [← h.readOnly]
  cases hro : s.readOnly with
  | true => exact ⟨rfl, h⟩
  | false =>
      have hagree := h.agree.erase (docKey key)
      obtain ⟨hiff, halike⟩ := writable_change (hro ▸ h.alike) hkey hagree
        (fun m hm => by rw [Json.Members.get_erase, if_neg hm.symm])
        fun m hm => by rw [Json.Members.get_erase, if_neg hm.symm]
      rcases commitErase_cases (h.atoms.erase (docKey key)) with ⟨hw, b, hb⟩ | ⟨hw, b, hb⟩
      · rcases commitErase_cases (h.atoms'.erase (docKey key)) with ⟨hw', b', hb'⟩ | ⟨hw', -⟩
        · simp only [Bool.false_eq_true, if_false, hb, hb']
          exact ⟨trivial, hagree, by rw [h.skipped], h.readOnly, h.atoms.erase _, h.atoms'.erase _,
            hro ▸ halike hw⟩
        · exact absurd (hiff.1 hw) hw'
      · rcases commitErase_cases (h.atoms'.erase (docKey key)) with ⟨hw', -⟩ | ⟨hw', b', hb'⟩
        · exact absurd (hiff.2 hw') hw
        · simp only [Bool.false_eq_true, if_false, hb, hb']
          refine ⟨trivial, h.agree.undoErase hkey, h.skipped, h.readOnly, h.atoms.undoErase _,
            h.atoms'.undoErase _, ?_⟩
          have hgood : ∀ d : Document, Good k (d.undoErase (docKey key)) ↔ Good k d := fun d =>
            good_congr Json.Members.get_undoErase
          have hbad : ∀ a, Bad k a (s.document.undoErase (docKey key)) ↔ Bad k a s.document :=
            fun a => bad_congr Json.Members.get_undoErase
          unfold Alike
          simp only [hgood, hbad]
          exact h.alike

/-- An operation that is one of `get`, `has`, `list`, `set` and `delete` and does not name
the key. -/
def Avoids (key : JsString) : Op → Prop
  | .get l => docKey l ≠ key
  | .has l => docKey l ≠ key
  | .list => True
  | .set l _ => docKey l ≠ key
  | .setJson _ _ => False
  | .delete l => docKey l ≠ key

/-- Related stores reply alike and stay related. -/
theorem Related.step (h : Related k s s') {op : Op} (hop : Avoids k op) :
    ((storeMachine stringBacking).step s op).2 = ((storeMachine stringBacking).step s' op).2 ∧
      Related k ((storeMachine stringBacking).step s op).1
        ((storeMachine stringBacking).step s' op).1 := by
  cases op with
  | get key =>
      have hkey : docKey key ≠ k := hop
      simp only [storeMachine, h.get hkey]
      cases Store.get (ε := DocumentError) s' key with
      | ok data => exact ⟨rfl, h⟩
      | error e => exact ⟨rfl, h⟩
  | has key => exact ⟨congrArg Reply.present (@Related.present _ _ _ (docKey key) h hop), h⟩
  | list => exact ⟨congrArg Reply.keys h.keys, h⟩
  | set key value =>
      obtain ⟨hreply, hrel⟩ := @Related.setBytes _ _ _ key h hop value
      exact ⟨congrArg Reply.ofUnit hreply, hrel⟩
  | setJson key value => exact hop.elim
  | delete key =>
      obtain ⟨hreply, hrel⟩ := @Related.delete _ _ _ key h hop
      exact ⟨congrArg Reply.ofUnit hreply, hrel⟩

end Step

/-! ## Stores over texts -/

/-- The members of the document of a text: canonical atoms, and objects in order. -/
theorem every_of_load {text : JsString} {document : Document}
    (h : stringBacking.load text = .ok document) {key : JsString} {value : JsValue}
    (hvalue : document.get key = some value) :
    value.Every (fun _ => True) JsAtom.IsCanonical (Json.Ordered arrayIndex?) := by
  simp only [stringBacking] at h
  cases hp : strictParse text with
  | error e => rw [hp] at h; cases h
  | ok parsed =>
      rw [hp] at h
      have hatoms := every_strictParse hp
      cases parsed with
      | obj ms =>
          cases h
          have hmem : (key, value) ∈ ms := Json.mem_of_mem_collapse (Json.mem_of_lookup hvalue)
          exact (((Json.every_obj ms).1 hatoms).2 _ hmem).2
      | num a =>
          have ha : a.IsCanonical := by simpa using hatoms
          cases a with
          | exotic plain => exact ha.elim
          | _ => cases h
      | _ => cases h

/-- A store over a text holds its document, whose atoms are canonical. -/
theorem atomsCanonical_of_load {text : JsString} {document : Document}
    (h : stringBacking.load text = .ok document) : AtomsCanonical document := fun _ _ hvalue =>
  (every_of_load h hvalue).imp (fun _ => id) (fun _ => id) fun _ _ => trivial

/-- What a new store is. -/
theorem construct_eq_ok {β ε : Type} {B : Backing β ε} {b : β} {options : StoreOptions}
    {s : Store β} (h : construct B b options = .ok s) :
    B.load b = .ok s.document ∧ s.readOnly = options.readOnly ∧
      ∀ key, key ∈ s.skipped ↔ options.strict = false ∧
        ∃ value, s.document.get key = some value ∧ (memberIssue key value).isSome := by
  unfold construct at h
  split at h
  · cases h
  · next document hload =>
      split_ifs at h with hstrict
      · split at h
        · cases h
        · cases h
          exact ⟨hload, rfl, fun key => by simp [hstrict]⟩
      · cases h
        refine ⟨hload, rfl, fun key => ?_⟩
        rw [List.mem_toFinset, mem_keys_validate]
        simp [hstrict]

/-- A key that no document holds. -/
theorem exists_fresh (k : JsString) (ks : List JsString) : ∃ l, l ≠ k ∧ l ∉ ks := by
  obtain ⟨l, hl⟩ := Infinite.exists_notMem_finset (k :: ks).toFinset
  rw [List.mem_toFinset, List.mem_cons, not_or] at hl
  exact ⟨l, hl⟩

/-- A removal by a writable store goes through if and only if the rest can be written. -/
theorem delete_done_iff {s : Store JsString} (hro : s.readOnly = false)
    (hatoms : AtomsCanonical s.document) (key : JsString) :
    ((storeMachine stringBacking).step s (.delete key)).2 = .done ↔
      Writable (s.document.erase (docKey key)) := by
  simp only [storeMachine, Store.delete, hro, Bool.false_eq_true, if_false]
  rcases commitErase_cases (hatoms.erase (docKey key)) with ⟨hw, b, hb⟩ | ⟨hw, b, hb⟩
  · simp only [hb, Reply.ofUnit, hw]
  · simp only [hb, Reply.ofUnit, hw, reduceCtorEq]

/-- Two stores over texts whose documents differ in the value at one key, of a type the
rules permit there, give the same replies to every run that does not name the key if
and only if their documents are written alike. -/
theorem isolation_iff (text text' : JsString) (options : StoreOptions) (s s' : Store JsString)
    (hs : construct stringBacking text options = .ok s)
    (hs' : construct stringBacking text' options = .ok s') (k : JsString)
    (hagree : AgreeOff k s.document s'.document)
    (hR2 : ∀ value, s.document.get k = some value ∨ s'.document.get k = some value →
      Rules.checkValueType unit kinds k value = none) :
    (∀ ops, (∀ op ∈ ops, Avoids k op) →
        (storeMachine stringBacking).replies s ops = (storeMachine stringBacking).replies s' ops) ↔
      Alike k options.readOnly s.document s'.document := by
  obtain ⟨hload, hro, hskip⟩ := construct_eq_ok hs
  obtain ⟨hload', hro', hskip'⟩ := construct_eq_ok hs'
  have hatoms := atomsCanonical_of_load hload
  have hatoms' := atomsCanonical_of_load hload'
  have hskipped : s.skipped = s'.skipped := by
    ext key
    rw [hskip, hskip']
    refine and_congr_right fun _ => ?_
    by_cases hkey : key = k
    · -- the value at `k` is of a permitted type, so only the key can be at fault
      subst hkey
      have hissue : ∀ value, s.document.get key = some value ∨ s'.document.get key = some value →
          ((memberIssue key value).isSome ↔ (checkKey key).isSome) := by
        intro value hvalue
        have hvalid := hR2 value hvalue
        unfold memberIssue Rules.memberIssue checkKey
        cases hcheck : Rules.checkKey unit key with
        | some issue => simp
        | none => simp [hvalid]
      have hmem : (s.document.get key).isSome ↔ (s'.document.get key).isSome := by
        rw [Json.Members.get_isSome_iff, Json.Members.get_isSome_iff, hagree.keys]
      rw [Option.isSome_iff_exists, Option.isSome_iff_exists] at hmem
      constructor
      · rintro ⟨value, hvalue, hsome⟩
        obtain ⟨value', hvalue'⟩ := hmem.1 ⟨value, hvalue⟩
        exact ⟨value', hvalue', (hissue value' (Or.inr hvalue')).2
          ((hissue value (Or.inl hvalue)).1 hsome)⟩
      · rintro ⟨value', hvalue', hsome⟩
        obtain ⟨value, hvalue⟩ := hmem.2 ⟨value', hvalue'⟩
        exact ⟨value, hvalue, (hissue value (Or.inl hvalue)).2
          ((hissue value' (Or.inr hvalue')).1 hsome)⟩
    · rw [hagree.get key hkey]
  constructor
  · intro hreplies
    by_contra hnot
    simp only [Alike, not_or, Bool.not_eq_true] at hnot
    obtain ⟨hwritable, hgood, htwo⟩ := hnot
    -- remove the other member that cannot be written, if there is one, else a fresh key
    have hop : ∃ l, l ≠ k ∧ ∀ a, ¬ Bad k a (s.document.erase l) := by
      by_cases hbad : ∃ a, Bad k a s.document
      · obtain ⟨a, ha⟩ := hbad
        refine ⟨a, ha.1, fun b hb => ?_⟩
        obtain ⟨hbk, value, hvalue, hcan⟩ := hb
        rw [Json.Members.get_erase] at hvalue
        split_ifs at hvalue with hab
        exact htwo ⟨a, b, hab, ha, hbk, value, hvalue, hcan⟩
      · obtain ⟨l, hlk, hl⟩ := exists_fresh k s.document.keys
        refine ⟨l, hlk, fun a ha => hbad ⟨a, ?_⟩⟩
        rwa [Json.Members.erase_of_get_eq_none (Json.Members.get_eq_none_iff.2 hl)] at ha
    obtain ⟨l, hlk, hbad⟩ := hop
    have hbad' : ∀ a, ¬ Bad k a (s'.document.erase l) := fun a ha =>
      hbad a ((bad_congr_of_agreeOff (hagree.erase l) a).2 ha)
    have hkeep : ∀ d : Document, (d.erase l).get k = d.get k := fun d => by
      rw [Json.Members.get_erase, if_neg hlk]
    have hreply := hreplies [.delete (47 :: l)] (by simpa [Avoids, docKey] using hlk)
    have hstep : ((storeMachine stringBacking).step s (.delete (47 :: l))).2
        = ((storeMachine stringBacking).step s' (.delete (47 :: l))).2 :=
      (List.cons.inj hreply).1
    have hdone := delete_done_iff (hro.trans hwritable) hatoms (47 :: l)
    have hdone' := delete_done_iff (hro'.trans hwritable) hatoms' (47 :: l)
    rw [hstep, hdone'] at hdone
    refine hgood ?_
    have hiff : Good k (s'.document.erase l) ↔ Good k (s.document.erase l) := by
      have h := hdone
      simp only [docKey] at h
      rw [writable_iff (k := k), writable_iff (k := k), and_iff_right hbad, and_iff_right hbad'] at h
      exact h
    rw [good_congr (hkeep _), good_congr (hkeep _)] at hiff
    exact hiff.symm
  · intro halike ops hops
    have hrelated : Related k s s' :=
      ⟨hagree, hskipped, hro.trans hro'.symm, hatoms, hatoms', by rw [hro]; exact halike⟩
    exact Transition.Machine.replies_eq (R := Related k) (fun s t o ho h => h.step ho) hops hrelated

/-! ## Two texts -/

/-- A text with an empty array at `k`. -/
def emptyText : JsString := js "\x7b\"a\":[],\"k\":[]\x7d"

/-- A text with a lone surrogate in the array at `k`. -/
def surrogateText : JsString := js "\x7b\"a\":[],\"k\":[\"\\ud800\"]\x7d"

/-- The document of the texts. -/
def documentWith (xs : List JsValue) : Document := .ofList [(js "a", .arr []), (js "k", .arr xs)]

theorem load_of_text {text : JsString} {raw : Json.Raw} {ms : List (JsString × JsValue)}
    (htext : Unicode.codePoints text = raw.text) (hw : raw.Writable)
    (hvalue : (raw.load stringValue arrayIndex?).traverse (revive {}) = .ok (.obj ms)) :
    stringBacking.load text = .ok (.ofList ms) := by
  have hparse : strictParse text = .ok (.obj ms) :=
    strictParse_eq_ok.2 ⟨raw, htext ▸ Json.parse_none_text hw, hvalue⟩
  simp only [stringBacking, hparse, requireDocumentObject]

theorem construct_of_load {β ε : Type} {B : Backing β ε} {b : β} {document : Document}
    (hload : B.load b = .ok document) (hvalid : validate document = []) :
    construct B b {} = .ok ⟨b, document, false, ∅⟩ := by
  simp [construct, hload, hvalid]

theorem construct_emptyText :
    construct stringBacking emptyText {} = .ok ⟨emptyText, documentWith [], false, ∅⟩ :=
  construct_of_load
    (@load_of_text _ (.obj [([.raw 97], .arr []), ([.raw 107], .arr [])]) _
      (by decide +kernel) (by decide) rfl)
    (by decide +kernel)

theorem construct_surrogateText :
    construct stringBacking surrogateText {}
      = .ok ⟨surrogateText, documentWith [.str [0xD800]], false, ∅⟩ :=
  construct_of_load
    (@load_of_text _
      (.obj [([.raw 97], .arr []), ([.raw 107], .arr [.str [.unit 0xD800]])]) _
      (by decide +kernel) (by decide) rfl)
    (by decide +kernel)

theorem agreeOff_documentWith (xs ys : List JsValue) :
    AgreeOff (js "k") (documentWith xs) (documentWith ys) where
  keys := rfl
  get := by
    intro l hl
    have hget : ∀ zs, (documentWith zs).get l = if js "a" = l then some (.arr []) else none := by
      intro zs
      have hentries : (documentWith zs).entries = [(js "a", .arr []), (js "k", .arr zs)] := rfl
      rw [Json.Members.get, hentries, Json.lookup_cons, Json.lookup_cons, if_neg hl.symm]
      rfl
    rw [hget, hget]

theorem valueMessage_documentWith (xs : List JsValue) (value : JsValue)
    (h : (documentWith xs).get (js "k") = some value) :
    Rules.checkValueType unit kinds (js "k") value = none := by
  have hget : (documentWith xs).get (js "k") = some (.arr xs) := rfl
  rw [hget] at h
  cases h
  rfl

theorem isolation_iff_texts :
    (∀ ops, (∀ op ∈ ops, Avoids (js "k") op) →
        (storeMachine stringBacking).replies ⟨emptyText, documentWith [], false, ∅⟩ ops
          = (storeMachine stringBacking).replies
              ⟨surrogateText, documentWith [.str [0xD800]], false, ∅⟩ ops) ↔
      Alike (js "k") false (documentWith []) (documentWith [.str [0xD800]]) :=
  isolation_iff emptyText surrogateText {} _ _ construct_emptyText construct_surrogateText (js "k")
    (agreeOff_documentWith _ _) fun value h =>
      h.elim (valueMessage_documentWith _ value) (valueMessage_documentWith _ value)

/-- A lone surrogate at `k` makes the removal of an absent key fail. -/
theorem delete_fails_elsewhere :
    construct stringBacking emptyText {} = .ok ⟨emptyText, documentWith [], false, ∅⟩ ∧
      construct stringBacking surrogateText {}
        = .ok ⟨surrogateText, documentWith [.str [0xD800]], false, ∅⟩ ∧
      AgreeOff (js "k") (documentWith []) (documentWith [.str [0xD800]]) ∧
      Avoids (js "k") (.delete (js "x")) ∧
      ((storeMachine stringBacking).step ⟨emptyText, documentWith [], false, ∅⟩
        (.delete (js "x"))).2 = .done ∧
      ((storeMachine stringBacking).step ⟨surrogateText, documentWith [.str [0xD800]], false, ∅⟩
        (.delete (js "x"))).2 ≠ .done := by
  have hatoms := atomsCanonical_of_load (construct_eq_ok construct_emptyText).1
  have hatoms' := atomsCanonical_of_load (construct_eq_ok construct_surrogateText).1
  have hx : docKey (js "x") ≠ js "k" := by decide
  refine ⟨construct_emptyText, construct_surrogateText, agreeOff_documentWith _ _, hx, ?_, ?_⟩
  · rw [delete_done_iff rfl hatoms, ← isOk_documentText]
    decide +kernel
  · rw [Ne, delete_done_iff rfl hatoms', ← isOk_documentText]
    decide +kernel

end TypeScript
