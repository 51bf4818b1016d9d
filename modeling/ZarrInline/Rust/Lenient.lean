import ZarrInline.Rust.Listing

/-!
# Lenient construction in Rust

A store that was built leniently over a document answers as the store over the document
without the members that have an issue.  The two documents agree at the keys that are not
skipped (`Hides`), and no call looks at another key: every call consults the skipped keys
under the same lock as the document.
-/

namespace Rust

variable {C : Crates} {Z : Zarrs} {s t : Store} {key : RustString}

/-- The keys with an issue. -/
def issueKeys (document : Document) : List RustString :=
  (validate document).map Rules.ValidationIssue.key

/-- The document without the members that have an issue. -/
def withoutIssues (document : Document) : Document :=
  document.retain fun key => decide (key ∉ issueKeys document)

/-- The members of `t` are those of `s` that are not skipped, and `t` skips nothing. -/
structure Hides (s t : Store) : Prop where
  skipped : t.skipped = ∅
  get : ∀ key, t.document.get key = if key ∈ s.skipped then none else s.document.get key

/-! ## Reading -/

theorem Hides.getBytes (h : Hides s t) (key : RustString) : s.getBytes C key = t.getBytes C key := by
  rw [Store.getBytes, Store.getBytes, h.skipped, h.get, if_neg (Finset.notMem_empty key)]
  split <;> rfl

theorem Hides.getPartialMany (h : Hides s t) (key : RustString) (ranges : List ByteRange) :
    s.getPartialMany C key ranges = t.getPartialMany C key ranges := by
  rw [Store.getPartialMany, Store.getPartialMany, h.getBytes]

theorem Hides.sizeKey (h : Hides s t) (key : RustString) : s.sizeKey C key = t.sizeKey C key := by
  rw [Store.sizeKey, Store.sizeKey, h.getBytes]

/-! ## Listing -/

theorem mem_keys : key ∈ s.keys ↔ (s.document.get key).isSome ∧ key ∉ s.skipped := by
  rw [Store.keys, List.mem_filter, Json.Members.get_isSome_iff, decide_eq_true_eq]

theorem nodup_keys (s : Store) : s.keys.Nodup := s.document.nodup_keys.filter _

theorem Hides.sortedKeys (h : Hides s t) : s.sortedKeys = t.sortedKeys := by
  refine Text.sortStrings_congr ((List.perm_ext_iff_of_nodup (nodup_keys s) (nodup_keys t)).2 ?_)
  intro key
  rw [mem_keys, mem_keys, h.get, h.skipped]
  split
  · next hmem => simp [hmem]
  · next hmem => simp [hmem]

theorem Hides.listPrefix (h : Hides s t) (dir : RustString) :
    s.listPrefix Z dir = t.listPrefix Z dir := by
  rw [Store.listPrefix, Store.listPrefix, h.sortedKeys]

theorem Hides.sizePrefix (h : Hides s t) (dir : RustString) :
    s.sizePrefix C Z dir = t.sizePrefix C Z dir := by
  rw [Store.sizePrefix, Store.sizePrefix, h.listPrefix]
  simp only [h.sizeKey]

/-! ## Writing -/

theorem Hides.insertEncoded (h : Hides s t) (key : RustString) (encoded : Except RustError Value) :
    Hides (s.insertEncoded key encoded).1 (t.insertEncoded key encoded).1 ∧
      (s.insertEncoded key encoded).2 = (t.insertEncoded key encoded).2 := by
  cases encoded with
  | error e => exact ⟨h, rfl⟩
  | ok value =>
      refine ⟨⟨?_, fun l => ?_⟩, rfl⟩
      · show t.skipped.erase key = ∅
        rw [h.skipped]
        rfl
      · show (t.document.set key value).get l
          = if l ∈ s.skipped.erase key then none else (s.document.set key value).get l
        rw [Json.Members.get_set, Json.Members.get_set, h.get]
        simp only [Finset.mem_erase]
        rcases eq_or_ne key l with rfl | hne
        · simp
        · simp [hne, hne.symm]

theorem Hides.set (h : Hides s t) (key : RustString) (value : Bytes) :
    Hides (s.set C key value).1 (t.set C key value).1 ∧
      (s.set C key value).2 = (t.set C key value).2 := by
  rw [Store.set, Store.set]
  split
  · exact ⟨h, rfl⟩
  · exact h.insertEncoded key _

theorem Hides.setJson (h : Hides s t) (key : RustString) (value : Value) :
    Hides (s.setJson C key value).1 (t.setJson C key value).1 ∧
      (s.setJson C key value).2 = (t.setJson C key value).2 := by
  rw [Store.setJson, Store.setJson]
  split
  · exact ⟨h, rfl⟩
  · split
    · exact ⟨h, rfl⟩
    · split
      · exact ⟨h, rfl⟩
      · exact h.set key _

theorem Hides.setPartialMany (h : Hides s t) (key : RustString)
    (offsetValues : List (UInt64 × Bytes)) :
    Hides (s.setPartialMany C key offsetValues).1 (t.setPartialMany C key offsetValues).1 ∧
      (s.setPartialMany C key offsetValues).2 = (t.setPartialMany C key offsetValues).2 := by
  rw [Store.setPartialMany, Store.setPartialMany, h.getBytes]
  split
  · exact ⟨h, rfl⟩
  · exact h.insertEncoded key _

theorem Hides.erase (h : Hides s t) (key : RustString) : Hides (s.erase key) (t.erase key) where
  skipped := by
    show t.skipped.erase key = ∅
    rw [h.skipped]
    rfl
  get := by
    intro l
    show (removeKey t.document key).get l
      = if l ∈ s.skipped.erase key then none else (removeKey s.document key).get l
    rw [get_removeKey, get_removeKey, Json.Members.get_erase, Json.Members.get_erase, h.get]
    simp only [Finset.mem_erase]
    rcases eq_or_ne key l with rfl | hne
    · simp
    · simp [hne, hne.symm]

theorem Hides.erasePrefix (h : Hides s t) (dir : RustString) :
    Hides (s.erasePrefix dir) (t.erasePrefix dir) where
  skipped := by
    show t.skipped.filter _ = ∅
    rw [h.skipped]
    rfl
  get := by
    intro l
    show (t.document.retain _).get l
      = if l ∈ s.skipped.filter _ then none else (s.document.retain _).get l
    rw [Json.Members.get_retain, Json.Members.get_retain, h.get]
    simp only [Finset.mem_filter]
    cases dir.isPrefixOf l <;> simp

/-- Stores of which one hides what the other skips answer alike, and stay so. -/
theorem Hides.step (h : Hides s t) (call : Call) :
    ((callMachine C Z).step s call).2 = ((callMachine C Z).step t call).2 ∧
      Hides ((callMachine C Z).step s call).1 ((callMachine C Z).step t call).1 := by
  cases call with
  | op op =>
      simp only [callMachine, Answer.reply.injEq]
      cases op with
      | get key =>
          simp only [storeMachine, h.getBytes key]
          split <;> exact ⟨rfl, h⟩
      | set key value =>
          obtain ⟨hnext, hreply⟩ := h.set (C := C) key value
          exact ⟨congrArg Reply.ofUnit hreply, hnext⟩
      | setJson key value =>
          obtain ⟨hnext, hreply⟩ := h.setJson (C := C) key value
          exact ⟨congrArg Reply.ofUnit hreply, hnext⟩
      | setPartialMany key offsetValues =>
          obtain ⟨hnext, hreply⟩ := h.setPartialMany (C := C) key offsetValues
          exact ⟨congrArg Reply.ofUnit hreply, hnext⟩
      | erase key => exact ⟨rfl, h.erase key⟩
      | erasePrefix dir => exact ⟨rfl, h.erasePrefix dir⟩
  | getPartialMany key ranges => exact ⟨congrArg Answer.parts (h.getPartialMany key ranges), h⟩
  | sizeKey key => exact ⟨congrArg Answer.size (h.sizeKey key), h⟩
  | list =>
      refine ⟨congrArg Answer.keys ?_, h⟩
      rw [Store.list, Store.list, h.sortedKeys]
  | listPrefix dir => exact ⟨congrArg Answer.keys (h.listPrefix dir), h⟩
  | listDir dir =>
      refine ⟨congrArg Answer.keysPrefixes ?_, h⟩
      rw [Store.listDir, Store.listDir, h.sortedKeys]
  | sizePrefix dir => exact ⟨congrArg Answer.total (h.sizePrefix dir), h⟩

/-! ## Values that are hidden -/

/-- The call writes the key or removes it. -/
def Call.Touches (key : RustString) : Call → Prop
  | .op (.set k _) => k = key
  | .op (.setJson k _) => k = key
  | .op (.setPartialMany k _) => k = key
  | .op (.erase k) => k = key
  | .op (.erasePrefix dir) => dir.isPrefixOf key
  | _ => False

/-- The call returns an error of its own. -/
def Answer.Fails : Answer → Prop
  | .reply (.failed _) => True
  | _ => False

theorem get_insertEncoded (encoded : Except RustError Value) {k : RustString}
    (h : k = key → ¬ (s.insertEncoded k encoded).2 = .ok ()) :
    (s.insertEncoded k encoded).1.document.get key = s.document.get key := by
  cases encoded with
  | error e => rfl
  | ok value => exact Json.Members.get_set_of_ne fun hk => h hk rfl

theorem get_set {k : RustString} {value : Bytes} (h : k = key → ¬ (s.set C k value).2 = .ok ()) :
    (s.set C k value).1.document.get key = s.document.get key := by
  rw [Store.set] at h ⊢
  split
  · rfl
  · next hkey =>
      rw [hkey] at h
      exact get_insertEncoded _ h

theorem reply_ofUnit {r : Except StorageError Unit} (h : (Answer.reply (Reply.ofUnit r)).Fails) :
    ¬ r = .ok () := by
  rintro rfl
  exact h

/-- A call that does not touch a key, or that fails, leaves what the document holds
there. -/
theorem get_step (call : Call)
    (h : call.Touches key → ((callMachine C Z).step s call).2.Fails) :
    ((callMachine C Z).step s call).1.document.get key = s.document.get key := by
  cases call with
  | op op =>
      cases op with
      | get k =>
          simp only [callMachine, storeMachine]
          split <;> rfl
      | set k value => exact get_set fun hk => reply_ofUnit (h hk)
      | setJson k value =>
          have h' : k = key → ¬ (s.setJson C k value).2 = .ok () := fun hk => reply_ofUnit (h hk)
          show (s.setJson C k value).1.document.get key = s.document.get key
          rw [Store.setJson] at h' ⊢
          split
          · rfl
          · next hmeta =>
              rw [if_neg hmeta] at h'
              split
              · rfl
              · next hbyte =>
                  rw [if_neg hbyte] at h'
                  split
                  · rfl
                  · next text htext =>
                      rw [htext] at h'
                      exact get_set h'
      | setPartialMany k offsetValues =>
          have h' : k = key → ¬ (s.setPartialMany C k offsetValues).2 = .ok () :=
            fun hk => reply_ofUnit (h hk)
          show (s.setPartialMany C k offsetValues).1.document.get key = s.document.get key
          rw [Store.setPartialMany] at h' ⊢
          split
          · rfl
          · next bytes hbytes =>
              rw [hbytes] at h'
              exact get_insertEncoded _ h'
      | erase k =>
          show (removeKey s.document k).get key = s.document.get key
          rw [get_removeKey, Json.Members.get_erase]
          exact if_neg (show ¬ k = key from fun hk => h hk)
      | erasePrefix dir =>
          show (s.document.retain _).get key = s.document.get key
          rw [Json.Members.get_retain, if_pos]
          exact decide_eq_true fun hdir => h hdir
  | getPartialMany k ranges => rfl
  | sizeKey k => rfl
  | list => rfl
  | listPrefix dir => rfl
  | listDir dir => rfl
  | sizePrefix dir => rfl

/-- A run leaves what the document holds at a key that no call touches with success. -/
theorem get_exec {calls : List Call}
    (h : ∀ e ∈ (callMachine C Z).events s calls, e.op.Touches key → e.reply.Fails) :
    ((callMachine C Z).exec s calls).document.get key = s.document.get key := by
  induction calls generalizing s with
  | nil => rfl
  | cons call calls ih =>
      have hstep := get_step call (h _ (List.mem_cons_self ..))
      exact (ih fun e he => h e (List.mem_cons_of_mem _ he)).trans hstep

/-! ## Construction -/

/-- The document without its faulty members is valid. -/
theorem fromDocument_withoutIssues (document : Document) :
    Store.fromDocument (withoutIssues document) = .ok ⟨withoutIssues document, ∅⟩ := by
  have hvalid : validate (withoutIssues document) = [] := by
    refine Rules.validate_eq_nil_iff.2 fun key value hvalue => ?_
    rw [withoutIssues, Json.Members.get_retain] at hvalue
    split at hvalue
    · next hkey =>
        rw [decide_eq_true_eq, issueKeys, validate, Rules.mem_keys_validate] at hkey
        by_contra hissue
        exact hkey ⟨value, hvalue, Option.isSome_iff_ne_none.2 hissue⟩
    · cases hvalue
  rw [Store.fromDocument, validateStrict, if_pos hvalid]
  rfl

theorem hides_fromDocumentLenient (document : Document) :
    Hides (Store.fromDocumentLenient document).1 ⟨withoutIssues document, ∅⟩ where
  skipped := rfl
  get := by
    intro key
    show (document.retain _).get key = if key ∈ (issueKeys document).toFinset then none else document.get key
    rw [Json.Members.get_retain]
    simp only [List.mem_toFinset, decide_not, Bool.not_eq_true', decide_eq_false_iff_not, ite_not]

/-- A store built leniently over a document is, to every sequence of calls, the store built
strictly over the document without its faulty members.  What the document holds at a key
with an issue stays until a call writes or removes the key. -/
theorem lenient_eq_absent (C : Crates) (Z : Zarrs) (document : Document) :
    ∃ t, Store.fromDocument (withoutIssues document) = .ok t ∧ ∀ calls,
      (callMachine C Z).replies (Store.fromDocumentLenient document).1 calls
          = (callMachine C Z).replies t calls ∧
        ∀ key ∈ issueKeys document,
          (∀ e ∈ (callMachine C Z).events (Store.fromDocumentLenient document).1 calls,
            e.op.Touches key → e.reply.Fails) →
          ((callMachine C Z).exec (Store.fromDocumentLenient document).1 calls).document.get key
            = document.get key := by
  refine ⟨_, fromDocument_withoutIssues document, fun calls => ⟨?_, fun key _ hquiet => ?_⟩⟩
  · exact Transition.Machine.replies_eq (A := fun _ => True) (fun _ _ call _ h => h.step call)
      (fun _ _ => trivial) (hides_fromDocumentLenient document)
  · exact get_exec hquiet

end Rust
