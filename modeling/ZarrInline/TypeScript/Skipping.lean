import ZarrInline.Backed.Skipping
import ZarrInline.TypeScript.Store

/-!
# Skipped keys in TypeScript

A lenient store skips the keys at which its document has an issue.  `encodeValue` gives
only values that R2 allows at their key, and a call that fails takes its change back, so
every step keeps the invariant of `Backed.Skipping`.
-/

namespace TypeScript

open Backed.Store (Skips Shrinks)

variable {β ε : Type}

/-- The member at a key breaks a rule. -/
def Faulty (key : JsString) (value : JsValue) : Prop :=
  (memberIssue key value).isSome

/-- What `encodeValue` stores at a well-formed key breaks no rule. -/
theorem memberIssue_encodeValue {key : JsString} {data : Bytes}
    {value : JsValue} (hkey : checkKey key = none)
    (h : encodeValue key data = .ok value) : memberIssue key value = none := by
  have hobj : ∀ v : JsValue, isPlainObject v = true →
      isObject v = true := by
    intro v hv
    cases v with
    | obj ms => rfl
    | num a => cases a <;> simp_all [isPlainObject, isObject]
    | null => cases hv
    | bool b => cases hv
    | str s => cases hv
    | arr xs => cases hv
  refine Rules.memberIssue_eq_none_iff.2 ⟨hkey, ?_⟩
  cases hmeta : isMetadataKey key with
  | true =>
      rw [Rules.valueMessage?_metadata hmeta]
      simp only [encodeValue, hmeta, if_true] at h
      cases htext : utf8Decode data with
      | error e => rw [htext] at h; cases h
      | ok text =>
          rw [htext] at h
          cases hp : strictParse text with
          | error e => simp only [bind, Except.bind, hp] at h; cases h
          | ok parsed =>
              simp only [bind, Except.bind, hp] at h
              split_ifs at h with hplain
              cases h
              exact hobj _ hplain
  | false =>
      rw [Rules.valueMessage?_byteKey hmeta]
      cases hinl : tryInlineJson data with
      | none =>
          rw [(encodeValue_of_none hmeta hinl).1] at h
          cases h
          rfl
      | some v =>
          rw [(encodeValue_of_some hmeta hinl).1] at h
          cases h
          have hcont := (tryInlineJson_sound hinl).1
          cases value <;> first | rfl | exact hcont.elim

theorem setBytes_shrinks {B : Backing β ε} {s : Store β}
    {initial : JsString → Option JsValue} (hs : s.Skips Faulty initial)
    (key : JsString) (value : Bytes) :
    s.Shrinks Faulty initial (s.setBytes B key value).1 := by
  have hself : s.Shrinks Faulty initial s := hs.shrinks_of_eq (fun _ => rfl) rfl
  rw [Store.setBytes]
  split
  · exact hself
  · split
    · exact hself
    · next hkey =>
        split
        · exact hself
        · next encoded hencoded =>
            have hvalid : ¬ Faulty (docKey key) encoded := by
              rw [Faulty, memberIssue_encodeValue hkey hencoded]
              exact Bool.false_ne_true
            have hcommit := Skips.commitSet (B := B) hs hvalid
            split <;> next heq => rw [heq] at hcommit; exact hcommit

/-- Every step of the store keeps the invariant. -/
theorem step_shrinks {B : Backing β ε} {s : Store β}
    {initial : JsString → Option JsValue} (op : Op)
    (hs : s.Skips Faulty initial) :
    s.Shrinks Faulty initial ((storeMachine B).step s op).1 := by
  have hself : s.Shrinks Faulty initial s := hs.shrinks_of_eq (fun _ => rfl) rfl
  cases op with
  | get key =>
      simp only [storeMachine]
      split <;> exact hself
  | has key => exact hself
  | list => exact hself
  | set key value => exact setBytes_shrinks hs key value
  | setJson key value =>
      simp only [storeMachine]
      rcases setJson_cases B s key value with ⟨text, -, h⟩ | ⟨e, h, -⟩
      · rw [h]
        exact setBytes_shrinks hs key _
      · rw [h]
        exact hself
  | delete key =>
      simp only [storeMachine, Store.delete]
      split
      · exact hself
      · have hcommit : s.Shrinks Faulty initial (s.commitErase B (docKey key)).1 := Skips.commitErase hs
        split <;> next heq => rw [heq] at hcommit; exact hcommit

theorem mem_issueKeys (document : Document) (key : JsString) :
    key ∈ (validate document).map Rules.ValidationIssue.key ↔
      ∃ value, document.get key = some value ∧ Faulty key value :=
  mem_keys_validate

/-- A new store satisfies the invariant, and skips nothing if its document was validated. -/
theorem construct_skips {B : Backing β ε} {b : β}
    {options : StoreOptions} {s : Store β}
    (h : construct B b options = .ok s) :
    s.Skips Faulty s.document.get ∧ (options.strict = true → s.skipped = ∅) := by
  rw [construct] at h
  split at h
  · cases h
  · next document hload =>
      cases hstrict : options.strict with
      | true =>
          simp only [hstrict, if_true, validateStrict] at h
          split_ifs at h with hvalid
          cases h
          refine ⟨⟨fun key => ?_, fun _ _ => rfl⟩, fun _ => rfl⟩
          rw [← mem_issueKeys, hvalid]
          rfl
      | false =>
          simp only [hstrict, Bool.false_eq_true, if_false] at h
          cases h
          refine ⟨⟨fun key => ?_, fun _ _ => rfl⟩, fun hfalse => by cases hfalse⟩
          rw [List.mem_toFinset]
          exact mem_issueKeys document key

end TypeScript
