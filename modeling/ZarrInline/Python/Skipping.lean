import ZarrInline.Backed.Skipping
import ZarrInline.Python.Store

/-!
# Skipped keys in Python

As in TypeScript: `encode_value` gives only values that R2 allows at their key, and a call
that fails takes its change back.
-/

namespace Python

open Backed.Store (Skips Shrinks)

variable {β ε : Type}

/-- The member at a key breaks a rule. -/
def Faulty (key : PyString) (value : PyValue) : Prop :=
  (Rules.memberIssue Char.toNat kinds key value).isSome

/-- What `encode_value` stores at a well-formed key breaks no rule. -/
theorem memberIssue_encodeValue {I : Interpreter} {key : PyString}
    {data : Bytes} {value : PyValue} (hkey : checkKey key = none)
    (h : encodeValue I key data = .ok value) :
    Rules.memberIssue Char.toNat kinds key value = none := by
  refine Rules.memberIssue_eq_none_iff.2 ⟨hkey, ?_⟩
  cases hmeta : isMetadataKey key with
  | true =>
      rw [Rules.valueMessage?_metadata hmeta]
      simp only [encodeValue, hmeta, if_true] at h
      cases hp : strictLoadsBytes I data with
      | error e => simp only [bind, Except.bind, hp] at h; cases h
      | ok parsed =>
          simp only [bind, Except.bind, hp] at h
          split_ifs at h with hdict
          cases h
          exact hdict
  | false =>
      rw [Rules.valueMessage?_byteKey hmeta]
      simp only [encodeValue, hmeta, Bool.false_eq_true, if_false, tryInlineJson] at h
      cases hbody : inlineBody I data with
      | error e =>
          rw [hbody] at h
          cases e with
          | value e => cases h; rfl
          | recursion => cases h
      | ok inlined =>
          rw [hbody] at h
          cases inlined with
          | none => cases h; rfl
          | some v =>
              cases h
              show (isStr value || isList value || isDict value) = true
              rcases (inlineBody_eq_some hbody).1 with hlist | hdict
              · rw [hlist, Bool.or_true, Bool.true_or]
              · rw [hdict, Bool.or_true]

theorem setBytes_shrinks {I : Interpreter} {B : Backing β ε}
    {s : Store β} {initial : PyString → Option PyValue}
    (hs : s.Skips Faulty initial) (key : PyString) (value : Bytes) :
    s.Shrinks Faulty initial (Store.setBytes I B s key value).1 := by
  have hself : s.Shrinks Faulty initial s := hs.shrinks_of_eq (fun _ => rfl) rfl
  rw [Store.setBytes]
  split
  · exact hself
  · split
    · exact hself
    · next hkey =>
        split
        · exact hself
        · next encoded hencoded =>
            have hvalid : ¬ Faulty key encoded := by
              rw [Faulty, memberIssue_encodeValue hkey hencoded]
              exact Bool.false_ne_true
            have hcommit := Skips.commitSet (B := B) hs hvalid
            split <;> next heq => rw [heq] at hcommit; exact hcommit

/-- Every step of the store keeps the invariant. -/
theorem step_shrinks {I : Interpreter} {B : Backing β ε} {s : Store β}
    {initial : PyString → Option PyValue} (op : Op)
    (hs : s.Skips Faulty initial) :
    s.Shrinks Faulty initial ((storeMachine I B).step s op).1 := by
  have hself : s.Shrinks Faulty initial s := hs.shrinks_of_eq (fun _ => rfl) rfl
  cases op with
  | get key =>
      simp only [storeMachine]
      split <;> exact hself
  | «exists» key => exact hself
  | list => exact hself
  | set key value => exact setBytes_shrinks hs key value
  | setJson key value =>
      simp only [storeMachine]
      rcases setJson_cases I B s key value with ⟨data, h⟩ | ⟨e, h⟩
      · rw [h]
        exact setBytes_shrinks hs key _
      · rw [h]
        exact hself
  | delete key =>
      simp only [storeMachine, Store.delete]
      split
      · exact hself
      · have hcommit : s.Shrinks Faulty initial (s.commitErase B key).1 := Skips.commitErase hs
        split <;> next heq => rw [heq] at hcommit; exact hcommit

theorem mem_issueKeys (document : Document) (key : PyString) :
    key ∈ (validate document).map Rules.ValidationIssue.key ↔
      ∃ value, document.get key = some value ∧ Faulty key value :=
  Rules.mem_keys_validate

/-- A new store satisfies the invariant, and skips nothing if its document was validated. -/
theorem construct_skips {B : Backing β ε} {b : β} {readOnly strict : Bool}
    {s : Store β} (h : construct B b readOnly strict = .ok s) :
    s.Skips Faulty s.document.get ∧ (strict = true → s.skipped = ∅) := by
  rw [construct] at h
  split at h
  · cases h
  · next document hload =>
      cases strict with
      | true =>
          simp only [if_true, validateStrict] at h
          split_ifs at h with hvalid
          cases h
          refine ⟨⟨fun key => ?_, fun _ _ => rfl⟩, fun _ => rfl⟩
          rw [← mem_issueKeys, hvalid]
          rfl
      | false =>
          simp only [Bool.false_eq_true, if_false] at h
          cases h
          refine ⟨⟨fun key => ?_, fun _ _ => rfl⟩, fun hfalse => by cases hfalse⟩
          rw [List.mem_toFinset]
          exact mem_issueKeys document key

end Python
