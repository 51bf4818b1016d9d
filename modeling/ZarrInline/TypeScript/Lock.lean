import ZarrInline.Async.Wiring
import ZarrInline.Numeric.Arithmetic
import ZarrInline.TypeScript.Store

/-!
# The lock of the TypeScript store

The methods of a store are `async`.  A method first checks its arguments, then hands the
rest of its work to `#withLock`, which chains it to the promise of the lock; the work is a
critical section, which a single job runs.  `Runtime` is a store in a loop of jobs, and a
method is what it does to the loop when it is called.  Calls and jobs follow each other in
any order (`history`).
-/

namespace TypeScript

open Async (Loop)
open Numeric (Double)

variable {β ε : Type}

/-! ## Ranges -/

/-- `RangeQuery`. -/
inductive RangeQuery where
  | range (offset length : Double)
  | suffix (suffixLength : Double)

/-- The position an argument of `slice` means: truncated, counted from the end if negative. -/
def relativeIndex (length : ℕ) : Double → ℕ
  | .nan => 0
  | .infinity neg => if neg then 0 else length
  | .finite neg u _ =>
      if neg ∧ u / Numeric.scale ≠ 0 then length - u / Numeric.scale
      else min (u / Numeric.scale) length

/-- `slice`. -/
def slice (data : Bytes) (start : Double) (stop : Option Double) : Bytes :=
  let first := relativeIndex data.length start
  let last := (stop.map (relativeIndex data.length)).getD data.length
  (data.drop first).take (last - first)

/-- `Math.max` of zero and a number. -/
def maxZero (x : Double) : Double :=
  if x = .nan then .nan else if (Double.ofInt 0).lt x then x else .ofInt 0

/-- `applyRange`. -/
def applyRange (data : Bytes) : RangeQuery → Bytes
  | .suffix suffixLength =>
      slice data (maxZero ((Double.ofInt (data.length : ℤ)).sub suffixLength)) none
  | .range offset length => slice data offset (some (offset.add length))

/-- What `getRange` makes of the reply of `get`. -/
def Reply.ranged (range : RangeQuery) : Reply ε → Reply ε
  | .bytes (some data) => .bytes (some (applyRange data range))
  | r => r

/-! ## Calls one at a time -/

/-- The calls. -/
inductive Call where
  | get (key : JsString)
  | getRange (key : JsString) (range : RangeQuery)
  | set (key : JsString) (value : Bytes)
  | setJson (key : JsString) (value : JsValue)
  | delete (key : JsString)
  | has (key : JsString)
  | list

/-- The store, one call at a time. -/
def callMachine (B : Backing β ε) : Transition.Machine (Store β) Call (Reply ε) where
  step := fun s c =>
    match c with
    | .get key => (storeMachine B).step s (.get key)
    | .getRange key range =>
        (((storeMachine B).step s (.get key)).1, ((storeMachine B).step s (.get key)).2.ranged range)
    | .set key value => (storeMachine B).step s (.set key value)
    | .setJson key value => (storeMachine B).step s (.setJson key value)
    | .delete key => (storeMachine B).step s (.delete key)
    | .has key => (storeMachine B).step s (.has key)
    | .list => (storeMachine B).step s .list

/-! ## Critical sections -/

/-- The callbacks that the methods give to `#withLock`. -/
inductive Section where
  | get (key : JsString)
  | set (docKey : JsString) (value : Bytes)
  | delete (key : JsString)
  | has (key : JsString)
  | list

/-- Run a callback. -/
def Section.run (B : Backing β ε) (s : Store β) : Section → Store β × Reply ε
  | .get key =>
      match s.get key with
      | .ok data => (s, .bytes data)
      | .error e => (s, .failed e)
  | .set docKey value =>
      match encodeValue docKey value with
      | .error e => (s, .failed (.codec e))
      | .ok encoded =>
          match s.commitSet B docKey encoded with
          | (s, .ok ()) => (s, .done)
          | (s, .error e) => (s, .failed (.backing e))
  | .delete key =>
      match s.commitErase B (docKey key) with
      | (s, .ok ()) => (s, .done)
      | (s, .error e) => (s, .failed (.backing e))
  | .has key => (s, .present (s.has key))
  | .list => (s, .keys s.list)

/-- The store after callbacks in a row. -/
def runSections (B : Backing β ε) (s : Store β) (secs : List Section) : Store β :=
  secs.foldl (fun s sec => (sec.run B s).1) s

/-! ## The store in a loop -/

/-- The handlers of promises: the callback given to `then`, the one given to `catch`, and
the rest of `getRange` after its `await`. -/
inductive Handler where
  | locked (sec : Section)
  | release
  | ranged (range : RangeQuery)

/-- Run a handler.  A rejected promise runs no callback of `then`, and only such a promise
runs the one of `catch`, which returns `undefined`. -/
def Handler.run (B : Backing β ε) : Handler → Store β → Reply ε → Store β × Reply ε
  | .locked _, s, .failed e => (s, .failed e)
  | .locked sec, s, _ => sec.run B s
  | .release, s, .failed _ => (s, .done)
  | .release, s, v => (s, v)
  | .ranged range, s, v => (s, v.ranged range)

/-- A store in its loop, and `#lock`. -/
structure Runtime (β ε : Type) where
  loop : Loop (Store β) (Reply ε) Handler
  lock : ℕ

namespace Runtime

/-- A new store: its lock is `Promise.resolve()`. -/
def new (s : Store β) : Runtime β ε := ⟨⟨s, [.settled .done], []⟩, 0⟩

/-- `#withLock`: the new lock is the promise of the callback without its rejection. -/
def withLock (R : Runtime β ε) (sec : Section) : Runtime β ε × ℕ :=
  (⟨(R.loop.andThen R.lock (.locked sec)).andThen R.loop.cells.length .release,
    R.loop.cells.length + 1⟩, R.loop.cells.length)

/-- An `async` function returns a promise. -/
def async (x : Runtime β ε × ℕ) : Runtime β ε × ℕ :=
  (⟨x.1.loop.asyncReturn x.2, x.1.lock⟩, x.1.loop.cells.length)

/-- An `async` function throws. -/
def throws (R : Runtime β ε) (e : StoreError ε) : Runtime β ε × ℕ :=
  (⟨R.loop.alloc (.settled (.failed e)), R.lock⟩, R.loop.cells.length)

/-- `get`. -/
def get (R : Runtime β ε) (key : JsString) : Runtime β ε × ℕ := async (R.withLock (.get key))

/-- What follows the `await` of `getRange`. -/
def awaitRange (x : Runtime β ε × ℕ) (range : RangeQuery) : Runtime β ε × ℕ :=
  (⟨x.1.loop.andThen x.2 (.ranged range), x.1.lock⟩, x.1.loop.cells.length)

/-- `getRange`. -/
def getRange (R : Runtime β ε) (key : JsString) (range : RangeQuery) : Runtime β ε × ℕ :=
  awaitRange (R.get key) range

/-- `#setBytes`. -/
def setBytes (R : Runtime β ε) (key : JsString) (value : Bytes) : Runtime β ε × ℕ :=
  if R.loop.state.readOnly then R.throws .readOnly
  else
    match checkKey (docKey key) with
    | some issue => R.throws (.invalidKey (docKey key) issue)
    | none => async (R.withLock (.set (docKey key) value))

/-- `set`. -/
def set (R : Runtime β ε) (key : JsString) (value : Bytes) : Runtime β ε × ℕ :=
  async (R.setBytes key value)

/-- `setJson`. -/
def setJson (R : Runtime β ε) (key : JsString) (value : JsValue) : Runtime β ε × ℕ :=
  if isMetadataKey (docKey key) ∧ ¬ isObject value then R.throws (.setJsonMetadata (docKey key))
  else if ¬ isMetadataKey (docKey key) ∧ ¬ isArray value ∧ ¬ isObject value then
    R.throws (.setJsonByte (docKey key))
  else
    match canonicalStringify value with
    | .error e => R.throws (.codec e)
    | .ok text => async (R.setBytes key (utf8Encode text))

/-- `delete`. -/
def delete (R : Runtime β ε) (key : JsString) : Runtime β ε × ℕ :=
  if R.loop.state.readOnly then R.throws .readOnly else async (R.withLock (.delete key))

/-- `has`. -/
def has (R : Runtime β ε) (key : JsString) : Runtime β ε × ℕ := async (R.withLock (.has key))

/-- `list`. -/
def list (R : Runtime β ε) : Runtime β ε × ℕ := async (R.withLock .list)

/-- Call a method; the promise is what it returns. -/
def call (R : Runtime β ε) : Call → Runtime β ε × ℕ
  | .get key => R.get key
  | .getRange key range => R.getRange key range
  | .set key value => R.set key value
  | .setJson key value => R.setJson key value
  | .delete key => R.delete key
  | .has key => R.has key
  | .list => R.list

end Runtime

/-- What may happen next: a call, or any job of the queue. -/
inductive Happening where
  | call (c : Call)
  | job (i : ℕ)

/-- A runtime, and the calls made with their promises. -/
abbrev History (β ε : Type) := Runtime β ε × List (Call × ℕ)

/-- One thing happens. -/
def happen (B : Backing β ε) (h : History β ε) : Happening → History β ε
  | .call c => ((h.1.call c).1, h.2 ++ [(c, (h.1.call c).2)])
  | .job i => (⟨h.1.loop.step (Handler.run B) i, h.1.lock⟩, h.2)

/-- A run of the program from a new store. -/
def history (B : Backing β ε) (s : Store β) (hs : List Happening) : History β ε :=
  hs.foldl (happen B) (Runtime.new s, [])

end TypeScript
