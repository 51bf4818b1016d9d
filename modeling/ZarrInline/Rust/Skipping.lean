import ZarrInline.Backed.Skipping
import ZarrInline.Rust.Inlining
import ZarrInline.Rust.Lenient

/-!
# Skipped keys in Rust

The store has no backing that fails, but it has more ways to write: partial writes, and the
removal of all that is under a prefix.  In every state that calls lead to, the skipped keys are
those at which the document has an issue.
-/

namespace Rust

variable {C : Crates} {Z : Zarrs} {s : Store} {initial : RustString → Option Value}

/-- The member breaks a rule. -/
def Faulty (key : RustString) (value : Value) : Prop := (Rules.memberIssue id kinds key value).isSome

theorem mem_issueKeys (document : Document) (key : RustString) :
    key ∈ issueKeys document ↔ ∃ value, document.get key = some value ∧ Faulty key value :=
  Rules.mem_keys_validate

/-- The invariant: the skipped keys are those of the faulty members, and hold what they held. -/
def Store.Skips (initial : RustString → Option Value) (s : Store) : Prop :=
  Backed.Skipping Faulty initial s.document.get s.skipped

/-! ## Steps -/

/-- What `encode_value` gives at a key that R1 allows is no fault. -/
theorem not_faulty_encodeValue {key : RustString} {data : Bytes} {value : Value}
    (hkey : checkKey key = none) (h : encodeValue C key data = .ok value) : ¬ Faulty key value := by
  have hnone : Rules.memberIssue id kinds key value = none := by
    have hkey' : Rules.checkKey id key = none := hkey
    rw [Rules.memberIssue, hkey']
    exact (encodeValue_spec h).1
  rw [Faulty, hnone]
  exact Bool.false_ne_true

theorem Store.Skips.insertEncoded (hs : s.Skips initial) {key : RustString} (hkey : checkKey key = none)
    (data : Bytes) : (s.insertEncoded key (encodeValue C key data)).1.Skips initial := by
  cases hencode : encodeValue C key data with
  | error e => exact hs
  | ok value =>
      show Backed.Skipping Faulty initial (s.document.set key value).get (s.skipped.erase key)
      rw [Json.Members.get_set_eq_update]
      refine Backed.Skipping.update hs fun v hv => ?_
      cases hv
      exact not_faulty_encodeValue hkey hencode

theorem Store.Skips.set (hs : s.Skips initial) (key : RustString) (data : Bytes) :
    (s.set C key data).1.Skips initial := by
  rw [Store.set]
  split
  · exact hs
  · next hkey => exact hs.insertEncoded (checkKey_of_checkWriteKey hkey) data

theorem Store.Skips.setJson (hs : s.Skips initial) (key : RustString) (value : Value) :
    (s.setJson C key value).1.Skips initial := by
  rw [Store.setJson]
  split
  · exact hs
  · split
    · exact hs
    · split
      · exact hs
      · exact hs.set key _

theorem Store.Skips.setPartialMany (hs : s.Skips initial) (key : RustString)
    (ws : List (UInt64 × Bytes)) : (s.setPartialMany C key ws).1.Skips initial := by
  rw [Store.setPartialMany]
  split
  · exact hs
  · next bytes hbytes =>
      cases hkey : Store.checkWriteKey key with
      | error e =>
          rw [hkey] at hbytes
          cases hbytes
      | ok u => exact hs.insertEncoded (checkKey_of_checkWriteKey hkey) bytes

theorem get_removeKey_eq_update (d : Document) (key : RustString) :
    (removeKey d key).get = Function.update d.get key none :=
  (funext (get_removeKey d key)).trans (Json.Members.get_erase_eq_update d key)

theorem Store.Skips.erase (hs : s.Skips initial) (key : RustString) : (s.erase key).Skips initial := by
  show Backed.Skipping Faulty initial (removeKey s.document key).get (s.skipped.erase key)
  rw [get_removeKey_eq_update]
  exact Backed.Skipping.update hs fun v hv => (by cases hv)

theorem Store.Skips.erasePrefix (hs : s.Skips initial) (dir : RustString) :
    (s.erasePrefix dir).Skips initial := by
  have hfilter : (s.erasePrefix dir).skipped
      = s.skipped.filter fun key => decide (¬ dir.isPrefixOf key = true) = true :=
    Finset.filter_congr fun key _ => decide_eq_true_iff.symm
  rw [Store.Skips, hfilter]
  exact Backed.Skipping.restrict hs fun key => Json.Members.get_retain

theorem Store.Skips.step (hs : s.Skips initial) (call : Call) :
    ((callMachine C Z).step s call).1.Skips initial := by
  cases call with
  | op op =>
      cases op with
      | get key =>
          simp only [callMachine, storeMachine]
          split <;> exact hs
      | set key data => exact hs.set key data
      | setJson key value => exact hs.setJson key value
      | setPartialMany key ws => exact hs.setPartialMany key ws
      | erase key => exact hs.erase key
      | erasePrefix dir => exact hs.erasePrefix dir
  | _ => exact hs

/-! ## What a call does to a skip -/

section Steps

variable {key k : RustString}

theorem skipped_insertEncoded {encoded : Except RustError Value}
    (h : key ∈ (s.insertEncoded k encoded).1.skipped) :
    key ∈ s.skipped ∧ (k = key → ¬ (s.insertEncoded k encoded).2 = .ok ()) := by
  cases encoded with
  | error e => exact ⟨h, fun _ hok => by cases hok⟩
  | ok value =>
      obtain ⟨hne, hmem⟩ := Finset.mem_erase.1 h
      exact ⟨hmem, fun hk => absurd hk.symm hne⟩

theorem skipped_set {data : Bytes} (h : key ∈ (s.set C k data).1.skipped) :
    key ∈ s.skipped ∧ (k = key → ¬ (s.set C k data).2 = .ok ()) := by
  rw [Store.set] at h ⊢
  split
  · next e he =>
      rw [he] at h
      exact ⟨h, fun _ hok => by cases hok⟩
  · next hkey =>
      rw [hkey] at h
      exact skipped_insertEncoded h

theorem fails_ofUnit {r : Except StorageError Unit} (h : ¬ r = .ok ()) :
    (Answer.reply (Reply.ofUnit r)).Fails := by
  cases r with
  | error e => trivial
  | ok u => exact h rfl

/-- No call skips a key, and one that writes or removes a key clears its skip. -/
theorem skipped_step (call : Call) (h : key ∈ ((callMachine C Z).step s call).1.skipped) :
    key ∈ s.skipped ∧ (call.Touches key → ((callMachine C Z).step s call).2.Fails) := by
  cases call with
  | op op =>
      cases op with
      | get k =>
          simp only [callMachine, storeMachine] at h
          refine ⟨?_, False.elim⟩
          split at h <;> exact h
      | set k data =>
          obtain ⟨hmem, hfail⟩ := skipped_set h
          exact ⟨hmem, fun hk => fails_ofUnit (hfail hk)⟩
      | setJson k value =>
          have hskip : key ∈ s.skipped ∧ (k = key → ¬ (s.setJson C k value).2 = .ok ()) := by
            have h' : key ∈ (s.setJson C k value).1.skipped := h
            by_cases hkind : TakesJson k value
            · rw [setJson_eq s hkind] at h' ⊢
              cases htext : canonicalToString C value with
              | error e => 
                  simp only [htext] at h' ⊢
                  exact ⟨h', fun _ hok => by cases hok⟩
              | ok text =>
                  simp only [htext] at h' ⊢
                  exact skipped_set h'
            · rw [setJson_of_not_takesJson s hkind] at h' ⊢
              exact ⟨h', fun _ hok => by cases hok⟩
          exact ⟨hskip.1, fun hk => fails_ofUnit (hskip.2 hk)⟩
      | setPartialMany k ws =>
          have hskip : key ∈ s.skipped ∧ (k = key → ¬ (s.setPartialMany C k ws).2 = .ok ()) := by
            have h' : key ∈ (s.setPartialMany C k ws).1.skipped := h
            rw [Store.setPartialMany] at h' ⊢
            split
            · next e he =>
                rw [he] at h'
                exact ⟨h', fun _ hok => by cases hok⟩
            · next bytes hbytes =>
                rw [hbytes] at h'
                exact skipped_insertEncoded h'
          exact ⟨hskip.1, fun hk => fails_ofUnit (hskip.2 hk)⟩
      | erase k =>
          obtain ⟨hne, hmem⟩ := Finset.mem_erase.1 h
          exact ⟨hmem, fun hk => absurd (Eq.symm hk) hne⟩
      | erasePrefix dir =>
          obtain ⟨hmem, hdir⟩ := Finset.mem_filter.1 h
          exact ⟨hmem, fun hpre => absurd hpre hdir⟩
  | _ => exact ⟨h, False.elim⟩

end Steps

/-! ## Runs -/

/-- What calls make of a store: the skipped keys are those with an issue, each holds what it held
in `document`, and they only become fewer. -/
structure SkipsIssues (C : Crates) (Z : Zarrs) (document : Document) (s : Store) : Prop where
  mem_iff : ∀ calls key, key ∈ ((callMachine C Z).exec s calls).skipped ↔
    key ∈ issueKeys ((callMachine C Z).exec s calls).document
  kept : ∀ calls, ∀ key ∈ ((callMachine C Z).exec s calls).skipped,
    ((callMachine C Z).exec s calls).document.get key = document.get key
  shrinks : ∀ calls later, ((callMachine C Z).exec s (calls ++ later)).skipped
    ⊆ ((callMachine C Z).exec s calls).skipped

theorem Store.Skips.exec (hs : s.Skips initial) (calls : List Call) :
    ((callMachine C Z).exec s calls).Skips initial :=
  Transition.Machine.exec_induct (A := fun _ => True) (fun _ call _ ht => ht.step call)
    (fun _ _ => trivial) hs

/-- No call skips a key. -/
theorem skipped_exec_subset (s : Store) (calls : List Call) :
    ((callMachine C Z).exec s calls).skipped ⊆ s.skipped := by
  induction calls generalizing s with
  | nil => exact Finset.Subset.refl _
  | cons call calls ih => exact (ih _).trans fun key hkey => (skipped_step call hkey).1

theorem Store.Skips.skipsIssues {document : Document} (hs : s.Skips document.get) :
    SkipsIssues C Z document s where
  mem_iff calls key := by rw [(hs.exec calls).mem_iff, mem_issueKeys]
  kept calls := (hs.exec calls).kept
  shrinks calls later := by
    rw [Transition.Machine.exec_append]
    exact skipped_exec_subset _ later

theorem skips_fromDocumentLenient (document : Document) :
    (Store.fromDocumentLenient document).1.Skips document.get where
  mem_iff key := by
    show key ∈ (issueKeys document).toFinset ↔ _
    rw [List.mem_toFinset, mem_issueKeys]
    rfl
  kept _ _ := rfl

theorem fromDocument_eq_ok_iff {document : Document} :
    Store.fromDocument document = .ok s ↔ validate document = [] ∧ s = ⟨document, ∅⟩ := by
  rw [Store.fromDocument, validateStrict]
  split
  · next hvalid => exact ⟨fun h => ⟨hvalid, (Except.ok.inj h).symm⟩, fun h => congrArg _ h.2.symm⟩
  · next hvalid => exact ⟨fun h => (by cases h), fun h => absurd h.1 hvalid⟩

/-- In every state that calls lead to from a store over a document, the skipped keys are exactly
those with an issue; each still holds what it held at construction; and they only become fewer.
From a store that was built strictly every document is valid. -/
theorem skipped_keys_iff_issue (C : Crates) (Z : Zarrs) (document : Document) :
    SkipsIssues C Z document (Store.fromDocumentLenient document).1 ∧
      ∀ s, Store.fromDocument document = .ok s →
        ∀ calls, validate ((callMachine C Z).exec s calls).document = [] := by
  refine ⟨(skips_fromDocumentLenient document).skipsIssues, fun s hs calls => ?_⟩
  obtain ⟨hvalid, rfl⟩ := fromDocument_eq_ok_iff.1 hs
  have hskips : Store.Skips document.get ⟨document, ∅⟩ := by
    refine ⟨fun key => ?_, fun key hkey => absurd hkey (Finset.notMem_empty key)⟩
    rw [← mem_issueKeys, issueKeys, hvalid]
    exact ⟨fun h => absurd h (Finset.notMem_empty key), fun h => absurd h List.not_mem_nil⟩
  have hempty : ((callMachine C Z).exec ⟨document, ∅⟩ calls).skipped = ∅ :=
    Finset.subset_empty.1 (skipped_exec_subset _ calls)
  have hkeys : issueKeys ((callMachine C Z).exec ⟨document, ∅⟩ calls).document = [] := by
    refine List.eq_nil_iff_forall_not_mem.2 fun key hkey => ?_
    have hmem := (hskips.skipsIssues.mem_iff calls key).2 hkey
    rw [hempty] at hmem
    exact absurd hmem (Finset.notMem_empty key)
  exact List.map_eq_nil_iff.1 hkeys

/-- A document with a malformed key. -/
def malformed : Document := .ofList [("/a".toList, .arr [])]

theorem skipped_keys_iff_issue_malformed :
    (Store.fromDocumentLenient malformed).1.skipped = {"/a".toList} ∧
      SkipsIssues crates ⟨fun _ => true, fun _ => true⟩ malformed (Store.fromDocumentLenient malformed).1 ∧
        validate ((callMachine crates ⟨fun _ => true, fun _ => true⟩).exec Store.new
          [.op (.setPartialMany "a/c/0".toList [(1, [7])]), .op (.erasePrefix "b/".toList)]).document = [] :=
  ⟨by decide, (skipped_keys_iff_issue crates _ malformed).1,
    (skipped_keys_iff_issue crates _ Json.Members.empty).2 Store.new rfl _⟩

end Rust
