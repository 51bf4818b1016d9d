import ZarrInline.Rust.Inlining
import ZarrInline.Rust.Listing

/-!
# Where the Rust store panics

Two calls below the store panic.  `canonical_to_string` does at a number that overflows
binary64, which a document or a value given to `set_json` may hold, since neither goes
through the strict parser; and `Vec::resize` does at a length over the greatest `isize`.

A document keeps its numbers in range when the values that come in have theirs
(`InRange.step`), and then nothing panics that is not a partial write too far.
-/

namespace Rust

variable {C : Crates} {Z : Zarrs} {s : Store} {key : RustString} {value : Value}

/-! ## Panics -/

/-- The panics among the errors. -/
def RustError.IsPanic : RustError → Prop
  | .panic => True
  | .metadataNotJson _ e => e.IsPanic
  | _ => False

/-- The panics among the errors of the store. -/
def StorageError.IsPanic : StorageError → Prop
  | .codec e => e.IsPanic
  | _ => False

/-- The result of a call that panicked. -/
def Panicked {α : Type} : Except StorageError α → Prop
  | .ok _ => False
  | .error e => e.IsPanic

/-- The answer of a call that panicked. -/
def Answer.IsPanic : Answer → Prop
  | .reply (.failed e) => e.IsPanic
  | .parts r => Panicked r
  | .size r => Panicked r
  | .total r => Panicked r
  | _ => False

theorem isPanic_ofUnit (r : Except StorageError Unit) :
    Answer.IsPanic (.reply (.ofUnit r)) ↔ Panicked r := by
  cases r <;> rfl

/-! ## The value codec -/

theorem strictFromSlice_not_panic {data : Bytes} {e : RustError}
    (h : strictFromSlice C data = .error e) : ¬ e.IsPanic := by
  rw [strictFromSlice, C.fromSlice_eq] at h
  cases hread : serdeRead data with
  | none =>
      rw [hread] at h
      cases h
      exact id
  | some parsed =>
      rw [hread] at h
      cases htraverse : parsed.traverse checkNumber with
      | ok v =>
          simp only [checkNumbers, htraverse] at h
          cases h
      | error e' =>
          simp only [checkNumbers, htraverse] at h
          cases h
          obtain ⟨n, hn⟩ := Json.exists_of_traverse_eq_error htraverse
          rw [checkNumber_eq] at hn
          split at hn
          · cases hn
          · cases hn
            exact id

theorem decodeValue_eq_panic (hkind : TakesJson key value) (hnumbers : ¬ Json.HasNumbers value) :
    decodeValue C key value = .error .panic := by
  rw [hkind.decodeValue_eq, canonicalToString_eq_panic hnumbers]
  rfl

/-- Decoding panics at nothing else. -/
theorem decodeValue_not_panic (hvalue : TakesJson key value → Json.HasNumbers value) {e : RustError}
    (h : decodeValue C key value = .error e) : ¬ e.IsPanic := by
  by_cases hkind : TakesJson key value
  · rw [hkind.decodeValue_eq, canonicalToString_eq (hvalue hkind)] at h
    cases h
  · rw [TakesJson] at hkind
    unfold decodeValue at h
    split at h
    · next hkey =>
        rw [if_pos hkey] at hkind
        rw [if_pos hkind] at h
        cases h
        exact id
    · next hkey =>
        rw [if_neg hkey] at hkind
        cases value with
        | arr xs => exact absurd (Or.inl rfl) hkind
        | obj ms => exact absurd (Or.inr rfl) hkind
        | str t =>
            cases hdecode : C.base64Decode t with
            | some data =>
                simp only [hdecode] at h
                cases h
            | none =>
                simp only [hdecode] at h
                cases h
                exact id
        | _ =>
            cases h
            exact id

theorem encodeValue_not_panic {data : Bytes} {e : RustError} (h : encodeValue C key data = .error e) :
    ¬ e.IsPanic := by
  rw [encodeValue] at h
  split at h
  · split at h
    · next e' he =>
        cases h
        show ¬ e'.IsPanic
        exact strictFromSlice_not_panic he
    · split at h
      · cases h
      · cases h
        exact id
  · obtain ⟨r, hr⟩ := exists_tryInlineJson (C := C) data
    rw [hr] at h
    cases r <;> cases h

/-! ## Calls -/

/-- The key is skipped or absent, or the value there has a canonical text if it is to be read
as one. -/
def Store.Readable (s : Store) (key : RustString) : Prop :=
  key ∉ s.skipped → ∀ value, s.document.get key = some value → TakesJson key value →
    Json.HasNumbers value

theorem getBytes_panicked_iff : Panicked (s.getBytes C key) ↔ ¬ s.Readable key := by
  rw [Store.Readable, Store.getBytes]
  split
  · next hskip => exact ⟨False.elim, fun h => h fun hkey => absurd hskip hkey⟩
  · next hskip =>
      cases hget : s.document.get key with
      | none =>
          refine ⟨False.elim, fun h => h fun _ value hvalue => ?_⟩
          cases hvalue
      | some value =>
          have hiff : (key ∉ s.skipped → ∀ v, some value = some v → TakesJson key v →
              Json.HasNumbers v) ↔ (TakesJson key value → Json.HasNumbers value) :=
            ⟨fun h => h hskip value rfl, fun h _ v hv => Option.some.inj hv ▸ h⟩
          rw [hiff]
          constructor
          · intro hpanic hvalue
            cases hdecode : decodeValue C key value with
            | ok data =>
                simp only [hdecode] at hpanic
                exact hpanic
            | error e =>
                simp only [hdecode] at hpanic
                exact decodeValue_not_panic hvalue hdecode hpanic
          · intro hvalue
            obtain ⟨hkind, hnumbers⟩ := Classical.not_imp.1 hvalue
            simp only [decodeValue_eq_panic hkind hnumbers]
            trivial

theorem insertEncoded_not_panicked {data : Bytes} :
    ¬ Panicked (s.insertEncoded key (encodeValue C key data)).2 := by
  cases hencode : encodeValue C key data with
  | ok value => exact id
  | error e => exact encodeValue_not_panic hencode

theorem checkWriteKey_not_panicked (key : RustString) : ¬ Panicked (Store.checkWriteKey key) := by
  rw [Store.checkWriteKey]
  split <;> exact id

theorem set_not_panicked {data : Bytes} : ¬ Panicked (s.set C key data).2 := by
  have hwrite := checkWriteKey_not_panicked key
  rw [Store.set]
  split
  · next e he =>
      rw [he] at hwrite
      exact hwrite
  · exact insertEncoded_not_panicked

theorem setJson_panicked_iff :
    Panicked (s.setJson C key value).2 ↔ TakesJson key value ∧ ¬ Json.HasNumbers value := by
  by_cases hkind : TakesJson key value
  · rw [setJson_eq s hkind]
    by_cases hnumbers : Json.HasNumbers value
    · rw [canonicalToString_eq hnumbers]
      exact ⟨fun h => absurd h set_not_panicked, fun h => absurd hnumbers h.2⟩
    · rw [canonicalToString_eq_panic hnumbers]
      exact ⟨fun _ => ⟨hkind, hnumbers⟩, fun _ => trivial⟩
  · rw [setJson_of_not_takesJson s hkind]
    refine ⟨fun h => ?_, fun h => absurd h.1 hkind⟩
    split at h <;> cases h

/-! ### Partial writes -/

open Store (writeAt usizeMax isizeMax)

/-- Where a write ends. -/
def writeEnd (w : UInt64 × Bytes) : ℕ := w.1.toNat + w.2.length

/-- The writes that come before one that ends over the greatest `usize` do not make `len` bytes
longer than a `Vec` may be. -/
def GrowsWithin : ℕ → List (UInt64 × Bytes) → Prop
  | _, [] => True
  | len, w :: ws =>
      usizeMax < writeEnd w ∨
        ((len < writeEnd w → writeEnd w ≤ isizeMax) ∧ GrowsWithin (max len (writeEnd w)) ws)

instance : ∀ len ws, Decidable (GrowsWithin len ws)
  | _, [] => isTrue trivial
  | len, w :: ws =>
      have := instDecidableGrowsWithin (max len (writeEnd w)) ws
      inferInstanceAs (Decidable (_ ∨ _))

/-- The bytes after one write, which ends where a `Vec` may. -/
theorem writeAt_eq (bytes : Bytes) (w : UInt64 × Bytes) :
    writeAt bytes w.1 w.2 =
      if usizeMax < writeEnd w then .error .endOverflow
      else if bytes.length < writeEnd w ∧ isizeMax < writeEnd w then .error (.codec .panic)
      else .ok ((bytes ++ List.replicate (writeEnd w - bytes.length) 0).take w.1.toNat ++ w.2 ++
        (bytes ++ List.replicate (writeEnd w - bytes.length) 0).drop (writeEnd w)) := by
  have hoffset : ¬ usizeMax < w.1.toNat := by
    have hlt := w.1.toNat_lt
    rw [usizeMax]
    omega
  rw [writeAt, if_neg hoffset]
  rfl

theorem length_writeAt {bytes out : Bytes} {w : UInt64 × Bytes} (h : writeAt bytes w.1 w.2 = .ok out) :
    out.length = max bytes.length (writeEnd w) := by
  rw [writeAt_eq] at h
  split at h
  · cases h
  · split at h
    · cases h
    · cases h
      simp only [List.length_append, List.length_take, List.length_drop, List.length_replicate,
        writeEnd]
      omega

theorem foldlM_writeAt_panicked_iff (ws : List (UInt64 × Bytes)) (bytes : Bytes) :
    Panicked (ws.foldlM (fun bytes w => writeAt bytes w.1 w.2) bytes) ↔
      ¬ GrowsWithin bytes.length ws := by
  induction ws generalizing bytes with
  | nil => exact ⟨False.elim, fun h => h trivial⟩
  | cons w ws ih =>
      rw [List.foldlM_cons, GrowsWithin]
      cases hwrite : writeAt bytes w.1 w.2 with
      | ok out =>
          have hlen := length_writeAt hwrite
          rw [writeAt_eq] at hwrite
          split at hwrite
          · cases hwrite
          · next husize =>
              split at hwrite
              · cases hwrite
              · next hisize =>
                  have hgrow : bytes.length < writeEnd w → writeEnd w ≤ isizeMax := fun hlt =>
                    not_lt.1 fun hmax => hisize ⟨hlt, hmax⟩
                  show Panicked (ws.foldlM _ out) ↔ _
                  rw [ih, hlen, not_iff_not]
                  exact ⟨fun h => .inr ⟨hgrow, h⟩, fun h => h.elim (absurd · husize) And.right⟩
      | error e =>
          show e.IsPanic ↔ _
          rw [writeAt_eq] at hwrite
          split at hwrite
          · next husize =>
              cases hwrite
              exact ⟨False.elim, fun h => h (.inl husize)⟩
          · next husize =>
              split at hwrite
              · next hisize =>
                  cases hwrite
                  refine ⟨fun _ h => ?_, fun _ => trivial⟩
                  exact h.elim husize fun hgrow => absurd (hgrow.1 hisize.1) (not_le.2 hisize.2)
              · cases hwrite

theorem setPartialMany_panicked_iff {ws : List (UInt64 × Bytes)} (hkey : checkKey key = none) :
    Panicked (s.setPartialMany C key ws).2 ↔
      ¬ s.Readable key ∨
        ∃ old, s.getBytes C key = .ok old ∧ ¬ GrowsWithin (old.getD []).length ws := by
  have hwrite : Store.checkWriteKey key = .ok () := by rw [Store.checkWriteKey, hkey]
  rw [Store.setPartialMany, hwrite, ← getBytes_panicked_iff (C := C)]
  cases hget : s.getBytes C key with
  | error e =>
      show e.IsPanic ↔ _
      constructor
      · exact Or.inl
      · rintro (h | ⟨old, hold, -⟩)
        · exact h
        · cases hold
  | ok old =>
      have hfold := foldlM_writeAt_panicked_iff ws (old.getD [])
      have hiff : (Panicked (Except.ok old : Except StorageError (Option Bytes)) ∨
          ∃ o, (Except.ok old : Except StorageError (Option Bytes)) = .ok o ∧
            ¬ GrowsWithin (o.getD []).length ws) ↔ ¬ GrowsWithin (old.getD []).length ws := by
        constructor
        · rintro (h | ⟨o, ho, h⟩)
          · exact h.elim
          · cases ho
            exact h
        · exact fun h => .inr ⟨old, rfl, h⟩
      rw [hiff, ← hfold]
      simp only [bind, Except.bind]
      cases ws.foldlM (fun (bytes : Bytes) (w : UInt64 × Bytes) => writeAt bytes w.1 w.2)
          (old.getD []) with
      | error e => rfl
      | ok bytes => exact ⟨fun h => absurd h insertEncoded_not_panicked, False.elim⟩

/-! ## Runs -/

/-- The numbers of the document are in range. -/
def Store.InRange (s : Store) : Prop := Json.HasNumbers (.obj s.document.entries : Value)

theorem inRange_iff :
    s.InRange ↔ ∀ key value, s.document.get key = some value → Json.HasNumbers value := by
  rw [Store.InRange, Json.HasNumbers, Json.every_obj]
  constructor
  · exact fun h key value hvalue => (h.2 (key, value) (Json.Members.get_eq_some_iff.1 hvalue)).2
  · exact fun h => ⟨trivial, fun m hm => ⟨trivial, h m.1 m.2 (Json.Members.get_of_mem hm)⟩⟩

theorem toJsonString_iff : (∃ text, s.toJsonString C = .ok text) ↔ s.InRange := by
  rw [Store.toJsonString, Store.InRange]
  constructor
  · rintro ⟨text, htext⟩
    by_contra hnumbers
    rw [canonicalToString_eq_panic hnumbers] at htext
    cases htext
  · intro hnumbers
    rw [canonicalToString_eq hnumbers]
    exact ⟨_, rfl⟩

/-- What comes in with a call: a value given to `set_json` has its numbers in range, and a
partial write makes no value longer than a `Vec` may be. -/
def Call.Fits (C : Crates) (s : Store) : Call → Prop
  | .op (.setJson key value) => TakesJson key value → Json.HasNumbers value
  | .op (.setPartialMany key ws) =>
      checkKey key = none → ∀ old, s.getBytes C key = .ok old → GrowsWithin (old.getD []).length ws
  | _ => True

section Run

variable (hs : s.InRange)
include hs

theorem Store.InRange.readable (key : RustString) : s.Readable key :=
  fun _ value hvalue _ => inRange_iff.1 hs key value hvalue

theorem Store.InRange.getBytes_not_panicked (key : RustString) : ¬ Panicked (s.getBytes C key) :=
  fun h => getBytes_panicked_iff.1 h (hs.readable key)

theorem Store.InRange.sizeKey_not_panicked (key : RustString) : ¬ Panicked (s.sizeKey C key) := by
  have hget := hs.getBytes_not_panicked (C := C) key
  rw [Store.sizeKey]
  cases hbytes : s.getBytes C key with
  | ok data => exact id
  | error e => rwa [hbytes] at hget

theorem Store.InRange.sizePrefix_not_panicked (dir : RustString) :
    ¬ Panicked (s.sizePrefix C Z dir) := by
  rw [Store.sizePrefix]
  generalize s.listPrefix Z dir = keys
  generalize (0 : ℕ) = size
  induction keys generalizing size with
  | nil => exact id
  | cons key keys ih =>
      have hkey := hs.sizeKey_not_panicked (C := C) key
      rw [List.foldlM_cons]
      cases hsize : s.sizeKey C key with
      | error e => rwa [hsize] at hkey
      | ok r =>
          cases r with
          | none => exact ih _
          | some n => exact ih _

/-- A call panics if and only if what comes in with it does not fit. -/
theorem Store.InRange.isPanic_iff (call : Call) :
    ((callMachine C Z).step s call).2.IsPanic ↔ ¬ call.Fits C s := by
  cases call with
  | op op =>
      cases op with
      | get key =>
          have hget := hs.getBytes_not_panicked (C := C) key
          refine iff_of_false (fun h => hget ?_) fun h => h trivial
          simp only [callMachine, storeMachine] at h
          cases hbytes : s.getBytes C key with
          | ok data =>
              rw [hbytes] at h
              exact h
          | error e =>
              rw [hbytes] at h
              exact h
      | set key data =>
          exact iff_of_false (fun h => set_not_panicked ((isPanic_ofUnit _).1 h)) fun h => h trivial
      | setJson key value =>
          show Answer.IsPanic (.reply (.ofUnit (s.setJson C key value).2)) ↔ _
          rw [isPanic_ofUnit, setJson_panicked_iff, Call.Fits, Classical.not_imp]
      | setPartialMany key ws =>
          show Answer.IsPanic (.reply (.ofUnit (s.setPartialMany C key ws).2)) ↔ _
          rw [isPanic_ofUnit, Call.Fits]
          cases hkey : checkKey key with
          | none =>
              rw [setPartialMany_panicked_iff hkey]
              simp only [hs.readable key, not_true_eq_false, false_or, forall_const, not_forall,
                exists_prop]
          | some issue =>
              have hfail : s.setPartialMany C key ws = (s, .error (.invalidKey key issue)) := by
                rw [Store.setPartialMany, Store.checkWriteKey, hkey]
                rfl
              rw [hfail]
              refine iff_of_false id fun h => h fun hnone => ?_
              cases hnone
      | erase key => exact iff_of_false id fun h => h trivial
      | erasePrefix dir => exact iff_of_false id fun h => h trivial
  | getPartialMany key ranges =>
      have hget := hs.getBytes_not_panicked (C := C) key
      refine iff_of_false (fun h => hget ?_) fun h => h trivial
      have h' : Panicked (s.getPartialMany C key ranges) := h
      rw [Store.getPartialMany] at h'
      cases hbytes : s.getBytes C key with
      | ok data =>
          rw [hbytes] at h'
          cases data <;> exact h'.elim
      | error e =>
          rw [hbytes] at h'
          exact h'
  | sizeKey key => exact iff_of_false (hs.sizeKey_not_panicked key) fun h => h trivial
  | list => exact iff_of_false id fun h => h trivial
  | listPrefix dir => exact iff_of_false id fun h => h trivial
  | listDir dir => exact iff_of_false id fun h => h trivial
  | sizePrefix dir => exact iff_of_false (hs.sizePrefix_not_panicked dir) fun h => h trivial

/-! ### What a call leaves -/

theorem Store.InRange.insertEncoded (data : Bytes) :
    (s.insertEncoded key (encodeValue C key data)).1.InRange := by
  cases hencode : encodeValue C key data with
  | error e => exact hs
  | ok value =>
      refine inRange_iff.2 fun l v hv => ?_
      have hv' : (s.document.set key value).get l = some v := hv
      rw [Json.Members.get_set] at hv'
      split at hv'
      · cases hv'
        exact (encodeValue_spec hencode).2.hasNumbers
      · exact inRange_iff.1 hs l v hv'

theorem Store.InRange.set (key : RustString) (data : Bytes) : (s.set C key data).1.InRange := by
  rw [Store.set]
  split
  · exact hs
  · exact hs.insertEncoded data

/-- Every call keeps the numbers of the document in range: what comes in is parsed strictly. -/
theorem Store.InRange.step (call : Call) : ((callMachine C Z).step s call).1.InRange := by
  cases call with
  | op op =>
      cases op with
      | get key =>
          simp only [callMachine, storeMachine]
          split <;> exact hs
      | set key data => exact hs.set key data
      | setJson key value =>
          show (s.setJson C key value).1.InRange
          rw [Store.setJson]
          split
          · exact hs
          · split
            · exact hs
            · split
              · exact hs
              · exact hs.set key _
      | setPartialMany key ws =>
          show (s.setPartialMany C key ws).1.InRange
          rw [Store.setPartialMany]
          split
          · exact hs
          · exact hs.insertEncoded _
      | erase key =>
          refine inRange_iff.2 fun l v hv => ?_
          have hv' : (removeKey s.document key).get l = some v := hv
          rw [get_removeKey, Json.Members.get_erase] at hv'
          split at hv'
          · cases hv'
          · exact inRange_iff.1 hs l v hv'
      | erasePrefix dir =>
          exact inRange_iff.2 fun l v hv => inRange_iff.1 hs l v (Json.Members.get_of_get_retain hv)
  | _ => exact hs

end Run

/-- Over a document that was admitted, strictly or leniently, no call of a run panics, and the
store has a text in every state of the run, if and only if the numbers of the document are in
range and what comes in with each call fits. -/
theorem never_panics_iff (C : Crates) (Z : Zarrs) (document : Document) (s : Store)
    (haccepted : Store.fromDocument document = .ok s ∨ s = (Store.fromDocumentLenient document).1)
    (calls : List Call) :
    ((∀ e ∈ (callMachine C Z).events s calls, ¬ e.reply.IsPanic) ∧
        ∀ n, ∃ text, ((callMachine C Z).exec s (calls.take n)).toJsonString C = .ok text) ↔
      Json.HasNumbers (.obj document.entries : Value) ∧
        ∀ e ∈ (callMachine C Z).events s calls, e.op.Fits C e.before := by
  have hdocument : s.document = document := by
    rcases haccepted with h | rfl
    · rw [Store.fromDocument, validateStrict] at h
      split at h
      · cases h
        rfl
      · cases h
    · rfl
  rw [← hdocument]
  have hevents : s.InRange → ∀ e ∈ (callMachine C Z).events s calls,
      (e.reply.IsPanic ↔ ¬ e.op.Fits C e.before) := fun hs =>
    Transition.Machine.forall_events (P := Store.InRange) (fun s call hs => hs.step call)
      (fun s call hs => hs.isPanic_iff call) hs
  constructor
  · rintro ⟨hpanic, htext⟩
    have hs : s.InRange := toJsonString_iff.1 (htext 0)
    exact ⟨hs, fun e he => not_not.1 (mt (hevents hs e he).2 (hpanic e he))⟩
  · rintro ⟨hs, hfits⟩
    refine ⟨fun e he h => (hevents hs e he).1 h (hfits e he), fun n => ?_⟩
    exact toJsonString_iff.2 (Transition.Machine.exec_induct (A := fun _ => True)
      (fun s call _ hs => hs.step call) (fun _ _ => trivial) hs)

/-- A `zarrs` that has a `StoreKey` and a `StorePrefix` for every string. -/
def anyZarrs : Zarrs := ⟨fun _ => true, fun _ => true⟩

theorem never_panics_iff_new :
    ((∀ e ∈ (callMachine crates anyZarrs).events Store.new [.sizeKey "a".toList], ¬ e.reply.IsPanic) ∧
        ∀ n, ∃ text, ((callMachine crates anyZarrs).exec Store.new
          (List.take n [.sizeKey "a".toList])).toJsonString crates = .ok text) ↔
      Json.HasNumbers (.obj Store.new.document.entries : Value) ∧
        ∀ e ∈ (callMachine crates anyZarrs).events Store.new [.sizeKey "a".toList],
          e.op.Fits crates e.before :=
  never_panics_iff crates anyZarrs Store.new.document Store.new (.inl rfl) [.sizeKey "a".toList]

/-! ## A number out of range -/

/-- `1e999`. -/
def hugeNumber : Numeric.NumberToken :=
  ⟨false, [1], [], some ⟨false, none, [9, 9, 9], by decide⟩, by decide, by decide⟩

/-- An array of a number that overflows. -/
def hugeArray : Value := .arr [.num hugeNumber]

theorem not_hasNumbers_hugeArray : ¬ Json.HasNumbers hugeArray := by
  rw [Json.HasNumbers, hugeArray, Json.every_arr]
  intro h
  have hrange : Json.InRange hugeNumber := by simpa using h _ (List.mem_singleton_self _)
  revert hrange
  decide +kernel

/-- A document that holds it at a byte key. -/
def hugeDocument : Document := Json.Members.empty.set "a/c/0".toList hugeArray

/-- Every call that reads the number panics, and so does the call that would write it. -/
theorem panics_hugeDocument :
    ∃ s, Store.fromDocument hugeDocument = .ok s ∧
      Panicked (s.getBytes crates "a/c/0".toList) ∧ Panicked (s.sizeKey crates "a/c/0".toList) ∧
      Panicked (s.setPartialMany crates "a/c/0".toList []).2 ∧
      s.toJsonString crates = .error .panic ∧
      Panicked (Store.new.setJson crates "a/c/0".toList hugeArray).2 := by
  have hkind : TakesJson "a/c/0".toList hugeArray := (TakesJson.of_byteKey (by decide)).2 rfl
  have hget : hugeDocument.get "a/c/0".toList = some hugeArray := Json.Members.get_set_self ..
  have hread : ¬ (Store.mk hugeDocument ∅).Readable "a/c/0".toList := fun h =>
    not_hasNumbers_hugeArray (h (Finset.notMem_empty _) hugeArray hget hkind)
  have hpanic : Panicked ((Store.mk hugeDocument ∅).getBytes crates "a/c/0".toList) :=
    getBytes_panicked_iff.2 hread
  refine ⟨⟨hugeDocument, ∅⟩, ?_, hpanic, ?_, ?_, ?_, ?_⟩
  · rw [Store.fromDocument, validateStrict, if_pos (by decide)]
    rfl
  · rw [Store.sizeKey]
    cases hbytes : (Store.mk hugeDocument ∅).getBytes crates "a/c/0".toList with
    | ok data => rw [hbytes] at hpanic; exact hpanic.elim
    | error e => rwa [hbytes] at hpanic
  · exact (setPartialMany_panicked_iff (by decide)).2 (.inl hread)
  · rw [Store.toJsonString, canonicalToString_eq_panic]
    · rfl
    · intro hnumbers
      exact not_hasNumbers_hugeArray
        (inRange_iff.1 (show (Store.mk hugeDocument ∅).InRange from hnumbers) _ hugeArray hget)
  · exact setJson_panicked_iff.2 ⟨hkind, not_hasNumbers_hugeArray⟩

end Rust
