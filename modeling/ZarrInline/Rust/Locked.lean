import ZarrInline.Locking.Program
import ZarrInline.Rust.Panics

/-!
# The Rust store under its locks

`store.rs` again, with its two locks.  Each call is a program: it takes the lock of the
document, and that of the skipped keys inside it.  What does not need the store, such as
encoding a value for `set`, is done before.

A call that panics while it holds the lock of the document for writing poisons it, and whoever
takes the lock after that panics.  Run alone, a program does what the store does in one step
(`alone_program`).

`size_prefix` takes the locks again for each key, and is no single program.
-/

namespace Rust

open Locking (Access)

variable {C : Crates} {Z : Zarrs}

/-! ## The source -/

/-- What the lock of the document guards. -/
structure Guarded where
  document : Document
  poisoned : Bool

/-- How a call ends: with an answer, or with a panic at a poisoned lock. -/
inductive Outcome where
  | answer (a : Answer)
  | poisoned

/-- A call under the locks of the document and of the skipped keys. -/
abbrev LockProgram := Locking.Program Guarded (Finset RustString) Outcome

/-- The answer of a call that failed. -/
def failure (e : StorageError) : Outcome := .answer (.reply (.failed e))

/-- What a document holds at a key that is not skipped. -/
def readValue (C : Crates) (document : Document) (key : RustString) :
    Except StorageError (Option Bytes) :=
  match document.get key with
  | none => .ok none
  | some value =>
      match decodeValue C key value with
      | .ok data => .ok (some data)
      | .error e => .error (.codec e)

/-- The value that a partial write starts from, if its key is not skipped. -/
def readUnskipped (C : Crates) (document : Document) (key : RustString) (skipped : Bool) :
    Except StorageError (Option Bytes) :=
  if skipped then .ok none else readValue C document key

/-- What `set_partial_many` inserts. -/
def overwritten (C : Crates) (document : Document) (key : RustString) (skipped : Bool)
    (offsetValues : List (UInt64 × Bytes)) : Except StorageError Value := do
  let bytes := (← readUnskipped C document key skipped).getD []
  let bytes ← offsetValues.foldlM (fun bytes (w : UInt64 × Bytes) => Store.writeAt bytes w.1 w.2) bytes
  (encodeValue C key bytes).mapError .codec

/-- Insert what was overwritten. -/
def Store.insertOverwritten (s : Store) (key : RustString) (encoded : Except StorageError Value) :
    Store × Except StorageError Unit :=
  match encoded with
  | .error e => (s, .error e)
  | .ok value => s.insertEncoded key (.ok value)

instance RustError.decidableIsPanic : ∀ e : RustError, Decidable e.IsPanic
  | .panic => isTrue trivial
  | .metadataNotJson _ e => e.decidableIsPanic
  | .json | .overflow _ | .metadataMustMap _ | .base64 _ | .byteMustMap _ | .metadataRequires _ =>
      isFalse id

instance StorageError.decidableIsPanic : ∀ e : StorageError, Decidable e.IsPanic
  | .codec e => e.decidableIsPanic
  | .invalidKey _ _ | .setJsonMetadata _ | .setJsonByte _ | .offsetOverflow _ | .endOverflow =>
      isFalse id

namespace Locked

/-- `self.document.read().unwrap()` and `self.document.write().unwrap()`. -/
def lockDocument (access : Access) (body : LockProgram) : LockProgram :=
  .lockOuter access <| .readOuter fun guarded =>
    if guarded.poisoned then .unlockOuter (.done .poisoned) else body

/-- `self.skipped.read().unwrap().contains(..)`: the lock is given back at once. -/
def isSkipped (key : RustString) (next : Bool → LockProgram) : LockProgram :=
  .lockInner .read <| .readInner fun skipped => .unlockInner (next (decide (key ∈ skipped)))

/-- `self.skipped.write().unwrap()`, for one change. -/
def changeSkipped (f : Finset RustString → Finset RustString) (next : LockProgram) : LockProgram :=
  .lockInner .write <| .writeInner f <| .unlockInner next

/-- The document is given back when the call returns. -/
def release (outcome : Outcome) : LockProgram := .unlockOuter (.done outcome)

/-- Insert what was encoded, and clear the skip of its key. -/
def insert (key : RustString) (value : Value) : LockProgram :=
  .writeOuter (fun guarded => { guarded with document := guarded.document.set key value }) <|
    changeSkipped (fun skipped => skipped.erase key) <| release (.answer (.reply .done))

/-- Fail under the write lock: a panic poisons it. -/
def abort (e : StorageError) : LockProgram :=
  if e.IsPanic then
    .writeOuter (fun guarded => { guarded with poisoned := true }) <| release (failure e)
  else release (failure e)

/-- Insert what was encoded, or fail. -/
def finish (key : RustString) : Except StorageError Value → LockProgram
  | .error e => abort e
  | .ok encoded => insert key encoded

/-- `get_bytes`, and what the call makes of it. -/
def getBytes (C : Crates) (key : RustString) (answer : Except StorageError (Option Bytes) → Answer) :
    LockProgram :=
  lockDocument .read <| isSkipped key fun skipped =>
    if skipped then release (.answer (answer (.ok none)))
    else .readOuter fun guarded => release (.answer (answer (readValue C guarded.document key)))

/-- `sorted_keys`, and what the call makes of it. -/
def sortedKeys (answer : List RustString → Answer) : LockProgram :=
  lockDocument .read <| .lockInner .read <| .readOuter fun guarded => .readInner fun skipped =>
    .unlockInner (release (.answer (answer (Store.sortedKeys ⟨guarded.document, skipped⟩))))

/-- `set`. -/
def set (C : Crates) (key : RustString) (value : Bytes) : LockProgram :=
  match Store.checkWriteKey key with
  | .error e => .done (failure e)
  | .ok () =>
      match encodeValue C key value with
      | .error e => .done (failure (.codec e))
      | .ok encoded => lockDocument .write (insert key encoded)

/-- `set_json`. -/
def setJson (C : Crates) (key : RustString) (value : Value) : LockProgram :=
  if isMetadataKey key ∧ ¬ isObject value then .done (failure (.setJsonMetadata key))
  else if ¬ isMetadataKey key ∧ ¬ isArray value ∧ ¬ isObject value then
    .done (failure (.setJsonByte key))
  else
    match canonicalToString C value with
    | .error e => .done (failure (.codec e))
    | .ok text => set C key (Unicode.encodeUtf8 text)

/-- `set_partial_many`. -/
def setPartialMany (C : Crates) (key : RustString) (offsetValues : List (UInt64 × Bytes)) :
    LockProgram :=
  match Store.checkWriteKey key with
  | .error e => .done (failure e)
  | .ok () =>
      lockDocument .write <| isSkipped key fun skipped => .readOuter fun guarded =>
        finish key (overwritten C guarded.document key skipped offsetValues)

/-- `erase`. -/
def erase (key : RustString) : LockProgram :=
  lockDocument .write <|
    .writeOuter (fun guarded => { guarded with document := removeKey guarded.document key }) <|
      changeSkipped (fun skipped => skipped.erase key) <| release (.answer (.reply .done))

/-- `erase_prefix`. -/
def erasePrefix (dir : RustString) : LockProgram :=
  lockDocument .write <|
    .writeOuter (fun guarded =>
      { guarded with document := guarded.document.retain fun key => ¬ dir.isPrefixOf key }) <|
      changeSkipped (fun skipped => skipped.filter fun key => ¬ dir.isPrefixOf key) <|
        release (.answer (.reply .done))

end Locked

/-- The calls that take the lock of the document once at most. -/
def Call.IsSingle : Call → Prop
  | .sizePrefix _ => False
  | _ => True

/-- A call that is one program. -/
abbrev SingleCall := { call : Call // call.IsSingle }

/-- The program of a call. -/
def program (C : Crates) (Z : Zarrs) : SingleCall → LockProgram
  | ⟨.op (.get key), _⟩ => Locked.getBytes C key .ofGet
  | ⟨.op (.set key value), _⟩ => Locked.set C key value
  | ⟨.op (.setJson key value), _⟩ => Locked.setJson C key value
  | ⟨.op (.setPartialMany key offsetValues), _⟩ => Locked.setPartialMany C key offsetValues
  | ⟨.op (.erase key), _⟩ => Locked.erase key
  | ⟨.op (.erasePrefix dir), _⟩ => Locked.erasePrefix dir
  | ⟨.getPartialMany key ranges, _⟩ => Locked.getBytes C key (.ofParts ranges)
  | ⟨.sizeKey key, _⟩ => Locked.getBytes C key .ofSize
  | ⟨.list, _⟩ => Locked.sortedKeys fun keys => .keys (keys.filter Z.storeKey)
  | ⟨.listPrefix dir, _⟩ =>
      Locked.sortedKeys fun keys =>
        .keys ((keys.filter fun key => dir.isPrefixOf key).filter Z.storeKey)
  | ⟨.listDir dir, _⟩ =>
      Locked.sortedKeys fun keys => .keysPrefixes (keys.foldl (Store.listDirStep Z dir) ([], []))
  | ⟨.sizePrefix _, h⟩ => h.elim

/-! ## One call at a time -/

/-- The call fails before it takes a lock. -/
def Call.failsEarly (C : Crates) (s : Store) : Call → Bool
  | .op (.set key value) => !(s.set C key value).2.isOk
  | .op (.setJson key value) => !(s.setJson C key value).2.isOk
  | .op (.setPartialMany key _) => !(Store.checkWriteKey key).isOk
  | _ => false

/-- The call panics under the write lock. -/
def Call.poisons : Call → Answer → Bool
  | .op (.setPartialMany _ _), .reply (.failed e) => decide e.IsPanic
  | _, _ => false

/-- The store, and whether its lock is poisoned. -/
def lockedMachine (C : Crates) (Z : Zarrs) : Transition.Machine (Store × Bool) SingleCall Outcome where
  step := fun s call =>
    if s.2 && !call.1.failsEarly C s.1 then (s, .poisoned)
    else
      ((((callMachine C Z).step s.1 call.1).1, s.2 || call.1.poisons ((callMachine C Z).step s.1 call.1).2),
        .answer ((callMachine C Z).step s.1 call.1).2)

/-! ## The lock discipline -/

namespace Locked

variable {a : Access} {key : RustString} {next : LockProgram}

theorem follows_release (a : Access) (outcome : Outcome) :
    (release outcome).Follows (.inside a none) := trivial

theorem follows_lockDocument (h : next.Follows (.inside a none)) :
    (lockDocument a next).Follows .outside := by
  intro guarded
  show (if guarded.poisoned then _ else next : LockProgram).Follows _
  split
  · trivial
  · exact h

theorem follows_isSkipped {next : Bool → LockProgram} (h : ∀ b, (next b).Follows (.inside a none)) :
    (isSkipped key next).Follows (.inside a none) :=
  ⟨fun hwrite => (by cases hwrite), fun skipped => h _⟩

theorem follows_changeSkipped {f : Finset RustString → Finset RustString}
    (h : next.Follows (.inside .write none)) : (changeSkipped f next).Follows (.inside .write none) :=
  ⟨fun hwrite => hwrite, h⟩

theorem follows_insert (value : Value) : (insert key value).Follows (.inside .write none) :=
  follows_changeSkipped (follows_release _ _)

theorem follows_abort (e : StorageError) : (abort e).Follows (.inside .write none) := by
  rw [abort]
  split
  · trivial
  · trivial

theorem follows_finish (encoded : Except StorageError Value) :
    (finish key encoded).Follows (.inside .write none) := by
  cases encoded with
  | error e => exact follows_abort e
  | ok value => exact follows_insert value

theorem follows_getBytes (answer : Except StorageError (Option Bytes) → Answer) :
    (getBytes C key answer).Follows .outside := by
  refine follows_lockDocument (follows_isSkipped fun skipped => ?_)
  cases skipped with
  | false => exact fun guarded => follows_release _ _
  | true => exact follows_release _ _

theorem follows_sortedKeys (answer : List RustString → Answer) : (sortedKeys answer).Follows .outside :=
  follows_lockDocument ⟨fun hwrite => (by cases hwrite), fun _ _ => trivial⟩

theorem follows_set (value : Bytes) : (set C key value).Follows .outside := by
  rw [set]
  split
  · trivial
  · split
    · trivial
    · exact follows_lockDocument (follows_insert _)

theorem follows_setJson (value : Value) : (setJson C key value).Follows .outside := by
  rw [setJson]
  split
  · trivial
  · split
    · trivial
    · split
      · trivial
      · exact follows_set _

theorem follows_setPartialMany (offsetValues : List (UInt64 × Bytes)) :
    (setPartialMany C key offsetValues).Follows .outside := by
  rw [setPartialMany]
  split
  · trivial
  · exact follows_lockDocument (follows_isSkipped fun skipped guarded => follows_finish _)

end Locked

/-- Every call keeps to the order of the locks. -/
theorem follows_program (call : SingleCall) : (program C Z call).Follows .outside := by
  rcases call with ⟨call, hsingle⟩
  cases call with
  | op op =>
      cases op with
      | get key => exact Locked.follows_getBytes _
      | set key value => exact Locked.follows_set value
      | setJson key value => exact Locked.follows_setJson value
      | setPartialMany key offsetValues => exact Locked.follows_setPartialMany offsetValues
      | erase key => exact Locked.follows_lockDocument (Locked.follows_changeSkipped (Locked.follows_release _ _))
      | erasePrefix dir =>
          exact Locked.follows_lockDocument (Locked.follows_changeSkipped (Locked.follows_release _ _))
  | getPartialMany key ranges => exact Locked.follows_getBytes _
  | sizeKey key => rw [program]; exact Locked.follows_getBytes _
  | list => rw [program]; exact Locked.follows_sortedKeys _
  | listPrefix dir => rw [program]; exact Locked.follows_sortedKeys _
  | listDir dir => rw [program]; exact Locked.follows_sortedKeys _
  | sizePrefix dir => exact hsingle.elim

/-! ## A program run alone -/

/-- The store behind its locks. -/
def behindLocks (s : Store × Bool) : Guarded × Finset RustString := (⟨s.1.document, s.2⟩, s.1.skipped)

namespace Locked

variable {s : Store} {poisoned : Bool} {key : RustString}

theorem alone_lockDocument {a : Access} {next : LockProgram} :
    (lockDocument a next).alone (behindLocks (s, poisoned))
      = if poisoned then (behindLocks (s, poisoned), .poisoned)
        else next.alone (behindLocks (s, poisoned)) := by
  cases poisoned <;> rfl

theorem getBytes_eq (s : Store) :
    s.getBytes C key = if key ∈ s.skipped then .ok none else readValue C s.document key := rfl

theorem alone_getBytes (answer : Except StorageError (Option Bytes) → Answer) :
    (getBytes C key answer).alone (behindLocks (s, poisoned))
      = if poisoned then (behindLocks (s, poisoned), .poisoned)
        else (behindLocks (s, poisoned), .answer (answer (s.getBytes C key))) := by
  rw [getBytes, alone_lockDocument, getBytes_eq]
  refine if_congr Iff.rfl rfl ?_
  show (if decide (key ∈ s.skipped) = true then _ else _ : LockProgram).alone _ = _
  by_cases hskip : key ∈ s.skipped
  · rw [if_pos (decide_eq_true hskip), if_pos hskip]
    rfl
  · rw [if_neg (by simpa using hskip), if_neg hskip]
    rfl

theorem alone_sortedKeys (answer : List RustString → Answer) :
    (sortedKeys answer).alone (behindLocks (s, poisoned))
      = if poisoned then (behindLocks (s, poisoned), .poisoned)
        else (behindLocks (s, poisoned), .answer (answer s.sortedKeys)) := by
  rw [sortedKeys, alone_lockDocument]
  rfl

theorem alone_abort (e : StorageError) :
    (abort e).alone (behindLocks (s, poisoned))
      = (behindLocks (s, poisoned || decide e.IsPanic), failure e) := by
  rw [abort]
  by_cases hpanic : e.IsPanic
  · rw [if_pos hpanic, decide_eq_true hpanic, Bool.or_true]
    rfl
  · rw [if_neg hpanic, decide_eq_false hpanic, Bool.or_false]
    rfl

theorem alone_set {value : Bytes} :
    (set C key value).alone (behindLocks (s, poisoned))
      = if poisoned && (s.set C key value).2.isOk then (behindLocks (s, poisoned), .poisoned)
        else (behindLocks ((s.set C key value).1, poisoned),
          .answer (.reply (.ofUnit (s.set C key value).2))) := by
  rw [set, Store.set]
  cases Store.checkWriteKey key with
  | error e => cases poisoned <;> rfl
  | ok u =>
      cases encodeValue C key value with
      | error e => cases poisoned <;> rfl
      | ok encoded => cases poisoned <;> rfl

theorem alone_setJson {value : Value} :
    (setJson C key value).alone (behindLocks (s, poisoned))
      = if poisoned && (s.setJson C key value).2.isOk then (behindLocks (s, poisoned), .poisoned)
        else (behindLocks ((s.setJson C key value).1, poisoned),
          .answer (.reply (.ofUnit (s.setJson C key value).2))) := by
  rw [setJson, Store.setJson]
  split
  · cases poisoned <;> rfl
  · split
    · cases poisoned <;> rfl
    · cases canonicalToString C value with
      | error e => cases poisoned <;> rfl
      | ok text => exact alone_set

/-- What `set_partial_many` does under the lock. -/
theorem setPartialMany_eq {ws : List (UInt64 × Bytes)} (hkey : Store.checkWriteKey key = .ok ()) :
    s.setPartialMany C key ws = s.insertOverwritten key
      (overwritten C s.document key (decide (key ∈ s.skipped)) ws) := by
  have hread : readUnskipped C s.document key (decide (key ∈ s.skipped)) = s.getBytes C key := by
    rw [getBytes_eq]
    exact if_congr decide_eq_true_iff rfl rfl
  rw [Store.setPartialMany, hkey, overwritten, hread]
  cases s.getBytes C key with
  | error e => rfl
  | ok old =>
      simp only [bind, Except.bind]
      cases ws.foldlM (fun (bytes : Bytes) (w : UInt64 × Bytes) => Store.writeAt bytes w.1 w.2)
          (old.getD []) with
      | error e => rfl
      | ok bytes =>
          cases hencode : encodeValue C key bytes with
          | error e => simp only [hencode]; rfl
          | ok value => simp only [hencode]; rfl

theorem alone_finish {ws : List (UInt64 × Bytes)} {encoded : Except StorageError Value} :
    (finish key encoded).alone (behindLocks (s, poisoned))
      = (behindLocks ((s.insertOverwritten key encoded).1,
          poisoned || Call.poisons (.op (.setPartialMany key ws))
            (.reply (.ofUnit (s.insertOverwritten key encoded).2))),
        .answer (.reply (.ofUnit (s.insertOverwritten key encoded).2))) := by
  cases encoded with
  | error e => exact alone_abort e
  | ok value => cases poisoned <;> rfl

theorem alone_setPartialMany {ws : List (UInt64 × Bytes)} :
    (setPartialMany C key ws).alone (behindLocks (s, poisoned))
      = if poisoned && (Store.checkWriteKey key).isOk then (behindLocks (s, poisoned), .poisoned)
        else (behindLocks ((s.setPartialMany C key ws).1,
            poisoned || Call.poisons (.op (.setPartialMany key ws))
              (.reply (.ofUnit (s.setPartialMany C key ws).2))),
          .answer (.reply (.ofUnit (s.setPartialMany C key ws).2))) := by
  rw [setPartialMany]
  cases hkey : Store.checkWriteKey key with
  | error e =>
      have hcall : s.setPartialMany C key ws = (s, .error e) := by
        rw [Store.setPartialMany, hkey]
        rfl
      have hearly : decide e.IsPanic = false := by
        refine decide_eq_false fun hpanic => checkWriteKey_not_panicked key ?_
        rw [hkey]
        exact hpanic
      rw [hcall]
      simp only [Reply.ofUnit, Call.poisons, hearly]
      cases poisoned <;> rfl
  | ok u =>
      rw [setPartialMany_eq hkey]
      show (lockDocument .write _).alone _ = _
      rw [alone_lockDocument]
      cases poisoned with
      | true => rfl
      | false =>
          rw [if_neg Bool.false_ne_true, Bool.false_and, if_neg Bool.false_ne_true]
          exact alone_finish

end Locked

/-- A program run alone is a step of the store. -/
theorem alone_program (call : SingleCall) (s : Store × Bool) :
    (program C Z call).alone (behindLocks s)
      = (behindLocks ((lockedMachine C Z).step s call).1, ((lockedMachine C Z).step s call).2) := by
  rcases s with ⟨s, poisoned⟩
  rcases call with ⟨call, hsingle⟩
  cases call with
  | op op =>
      cases op with
      | get key =>
          refine (Locked.alone_getBytes _).trans ?_
          cases poisoned with
          | true => rfl
          | false =>
            simp only [lockedMachine, callMachine, storeMachine]
            cases s.getBytes C key <;> rfl
      | set key value =>
          refine Locked.alone_set.trans ?_
          simp only [lockedMachine, callMachine, storeMachine, Call.failsEarly, Call.poisons,
            Bool.not_not, Bool.or_false]
          split <;> rfl
      | setJson key value =>
          refine Locked.alone_setJson.trans ?_
          simp only [lockedMachine, callMachine, storeMachine, Call.failsEarly, Call.poisons,
            Bool.not_not, Bool.or_false]
          split <;> rfl
      | setPartialMany key ws =>
          refine Locked.alone_setPartialMany.trans ?_
          simp only [lockedMachine, callMachine, storeMachine, Call.failsEarly, Bool.not_not]
          split <;> rfl
      | erase key => cases poisoned <;> rfl
      | erasePrefix dir => cases poisoned <;> rfl
  | getPartialMany key ranges =>
      refine (Locked.alone_getBytes _).trans ?_
      cases poisoned with
      | true => rfl
      | false =>
        simp only [lockedMachine, callMachine, Store.getPartialMany]
        cases hget : s.getBytes C key with
        | error e => rfl
        | ok data => cases data <;> rfl
  | sizeKey key =>
      rw [program]
      refine (Locked.alone_getBytes _).trans ?_
      cases poisoned <;> rfl
  | list =>
      rw [program]
      refine (Locked.alone_sortedKeys _).trans ?_
      cases poisoned <;> rfl
  | listPrefix dir =>
      rw [program]
      refine (Locked.alone_sortedKeys _).trans ?_
      cases poisoned <;> rfl
  | listDir dir =>
      rw [program]
      refine (Locked.alone_sortedKeys _).trans ?_
      cases poisoned <;> rfl
  | sizePrefix dir => exact hsingle.elim

/-- The store alone, one call at a time. -/
theorem aloneMachine_exec (s : Store × Bool) (calls : List SingleCall) :
    (Locking.aloneMachine (program C Z)).exec (behindLocks s) calls
      = behindLocks ((lockedMachine C Z).exec s calls) := by
  refine Transition.Machine.exec_rel (R := fun t s => t = behindLocks s) ?_ calls rfl
  rintro t s call rfl
  exact congrArg Prod.fst (alone_program call s)

theorem aloneMachine_replies (s : Store × Bool) (calls : List SingleCall) :
    (Locking.aloneMachine (program C Z)).replies (behindLocks s) calls
      = (lockedMachine C Z).replies s calls := by
  refine Transition.Machine.replies_eq (R := fun t s => t = behindLocks s) (A := fun _ => True) ?_
    (fun _ _ => trivial) rfl
  rintro t s call - rfl
  have hstep := alone_program (C := C) (Z := Z) call s
  exact ⟨congrArg Prod.snd hstep, congrArg Prod.fst hstep⟩

end Rust
