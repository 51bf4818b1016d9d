import ZarrInline.Locking.Linearization
import ZarrInline.Rust.Hierarchy
import ZarrInline.Rust.Locked
import ZarrInline.Rust.Overlay
import ZarrInline.Rust.Skipping

/-!
# Concurrent calls to the Rust store

Any number of calls run at once, and the scheduler decides who takes the next step.  Every call
keeps to the order of the locks, so they could have run one at a time (`runsAsOne`).  The rest is
read off the calls in that order: no call skips a key, and one that writes a key clears its
skip; a byte that a partial write puts at a byte key stays until something touches it.

At a metadata key a partial write need not leave its bytes, since only the value is kept
(`not_bothSurvive_metadata`).
-/

namespace Rust

open Locking (Action Entry Label System Task)

variable {C : Crates} {Z : Zarrs}

/-! ## Skipped keys -/

/-- The call fails, or panics at a poisoned lock. -/
def Outcome.Fails : Outcome → Prop
  | .answer a => a.Fails
  | .poisoned => True

/-- A call at a poisoned lock does nothing; any other does what the store does. -/
theorem lockedMachine_step (s : Store × Bool) (call : SingleCall) :
    ((lockedMachine C Z).step s call).1.1 = s.1 ∧ ((lockedMachine C Z).step s call).2 = .poisoned ∨
      ((lockedMachine C Z).step s call).1.1 = ((callMachine C Z).step s.1 call.1).1 ∧
        ((lockedMachine C Z).step s call).2 = .answer ((callMachine C Z).step s.1 call.1).2 := by
  simp only [lockedMachine]
  split
  · exact Or.inl ⟨rfl, rfl⟩
  · exact Or.inr ⟨rfl, rfl⟩

section Steps

variable {key : RustString}

/-- A key that is skipped after a call under the locks was skipped before, and holds what it
held. -/
theorem skipped_locked {s : Store × Bool} (call : SingleCall)
    (h : key ∈ ((lockedMachine C Z).step s call).1.1.skipped) :
    key ∈ s.1.skipped ∧
      ((lockedMachine C Z).step s call).1.1.document.get key = s.1.document.get key ∧
        (call.1.Touches key → ((lockedMachine C Z).step s call).2.Fails) := by
  rcases lockedMachine_step s call with ⟨hstate, hreply⟩ | ⟨hstate, hreply⟩
  · rw [hstate] at h
    rw [hstate, hreply]
    exact ⟨h, rfl, fun _ => trivial⟩
  · rw [hstate] at h
    rw [hstate, hreply]
    obtain ⟨hmem, hfail⟩ := skipped_step call.1 h
    exact ⟨hmem, get_step call.1 hfail, hfail⟩

end Steps

/-- The replies of the entries are those of the store. -/
def Legal (C : Crates) (Z : Zarrs) (s : Store × Bool) (order : List (Entry SingleCall Outcome)) : Prop :=
  (lockedMachine C Z).replies s (order.map Entry.op) = order.map Entry.reply

theorem Legal.tail {s : Store × Bool} {e : Entry SingleCall Outcome}
    {order : List (Entry SingleCall Outcome)} (h : Legal C Z s (e :: order)) :
    ((lockedMachine C Z).step s e.op).2 = e.reply ∧
      Legal C Z ((lockedMachine C Z).step s e.op).1 order :=
  List.cons.inj h

/-- A key that is skipped after a run was skipped from the start and is what it was: no call
that succeeded wrote or removed it. -/
theorem skipped_exec {order : List (Entry SingleCall Outcome)} {s : Store × Bool} {key : RustString}
    (hlegal : Legal C Z s order)
    (h : key ∈ ((lockedMachine C Z).exec s (order.map Entry.op)).1.skipped) :
    key ∈ s.1.skipped ∧
      ((lockedMachine C Z).exec s (order.map Entry.op)).1.document.get key = s.1.document.get key ∧
        ∀ e ∈ order, e.op.1.Touches key → e.reply.Fails := by
  induction order generalizing s with
  | nil => exact ⟨h, rfl, List.forall_mem_nil _⟩
  | cons e order ih =>
      obtain ⟨hreply, hrest⟩ := hlegal.tail
      obtain ⟨hmem, hget, hfail⟩ := ih hrest h
      obtain ⟨hmem', hget', hfail'⟩ := skipped_locked e.op hmem
      exact ⟨hmem', hget.trans hget', List.forall_mem_cons.2 ⟨hreply ▸ hfail', hfail⟩⟩

/-! ## Bytes that are written -/

/-- The byte that writes put at a place, if any of them covers it: the last one counts. -/
def written (ws : List (UInt64 × Bytes)) (p : ℕ) : Option UInt8 :=
  ws.foldl (fun b w => if w.1.toNat ≤ p ∧ p < writeEnd w then w.2[p - w.1.toNat]? else b) none

/-- The writes leave a place alone. -/
def Spare (ws : List (UInt64 × Bytes)) (p : ℕ) : Prop :=
  ∀ w ∈ ws, ¬ (w.1.toNat ≤ p ∧ p < writeEnd w)

/-- The call leaves a byte of a key alone. -/
def Call.Spares (key : RustString) (p : ℕ) : Call → Prop
  | .op (.setPartialMany k ws) => k = key → Spare ws p
  | call => ¬ call.Touches key

theorem Call.spares_of_not_touches {key : RustString} {p : ℕ} {call : Call} (h : ¬ call.Touches key) :
    call.Spares key p := by
  cases call with
  | op op =>
      cases op with
      | setPartialMany k ws => exact fun hk => absurd hk h
      | _ => exact h
  | _ => exact h

/-- The byte that a key has at a place. -/
def Store.HasByte (C : Crates) (s : Store) (key : RustString) (p : ℕ) (b : UInt8) : Prop :=
  ∃ data, s.getBytes C key = .ok (some data) ∧ data[p]? = some b

section Bytes

variable {s t : Store} {key : RustString} {p : ℕ} {b : UInt8} {ws : List (UInt64 × Bytes)}

/-- One overlay puts its byte over what was there, and leaves the rest. -/
theorem getElem?_overlay_eq {bytes : Bytes} {w : UInt64 × Bytes} {c : Option UInt8}
    (hc : ∀ b, c = some b → bytes[p]? = some b)
    (h : (if w.1.toNat ≤ p ∧ p < writeEnd w then w.2[p - w.1.toNat]? else c) = some b) :
    (overlay bytes w)[p]? = some b := by
  rw [getElem?_overlay]
  split at h
  · next hin =>
      rw [if_pos (lt_max_of_lt_right hin.2), if_pos hin]
      rw [List.getD_eq_getElem?_getD, h]
      rfl
  · next hout =>
      obtain ⟨hlt, hval⟩ := List.getElem?_eq_some_iff.1 (hc b h)
      rw [if_pos (lt_max_of_lt_left hlt), if_neg hout, List.getD_eq_getElem _ _ hlt, hval]

theorem getElem?_foldl_overlay {bytes : Bytes} {c : Option UInt8}
    (hc : ∀ b, c = some b → bytes[p]? = some b)
    (h : ws.foldl (fun b w => if w.1.toNat ≤ p ∧ p < writeEnd w then w.2[p - w.1.toNat]? else b) c
      = some b) : (ws.foldl overlay bytes)[p]? = some b := by
  induction ws generalizing bytes c with
  | nil => exact hc b h
  | cons w ws ih => exact ih (fun b' hb' => getElem?_overlay_eq hc hb') h

theorem foldl_spare (h : Spare ws p) (c : Option UInt8) :
    ws.foldl (fun b w => if w.1.toNat ≤ p ∧ p < writeEnd w then w.2[p - w.1.toNat]? else b) c = c := by
  induction ws with
  | nil => rfl
  | cons w ws ih =>
      obtain ⟨hw, hws⟩ := List.forall_mem_cons.1 h
      rw [List.foldl_cons, if_neg hw]
      exact ih hws

/-- A byte is what it was if its key holds what it held and is not skipped. -/
theorem Store.HasByte.of_get (h : s.HasByte C key p b) (hget : t.document.get key = s.document.get key)
    (hskip : key ∈ t.skipped → key ∈ s.skipped) : t.HasByte C key p b := by
  obtain ⟨data, hdata, hb⟩ := h
  refine ⟨data, ?_, hb⟩
  rw [Locked.getBytes_eq] at hdata ⊢
  split at hdata
  · cases hdata
  · next hmem =>
      rw [if_neg (mt hskip hmem), readValue, hget]
      exact hdata

/-- A partial write that succeeds at a byte key. -/
theorem getBytes_setPartialMany (hkey : isMetadataKey key = false)
    (hdone : (s.setPartialMany C key ws).2 = .ok ()) :
    ∃ old, s.getBytes C key = .ok old ∧
      (s.setPartialMany C key ws).1.getBytes C key = .ok (some (ws.foldl overlay (old.getD []))) := by
  refine (overlaysExactly_of_not_panicked ?_).byteKey hdone hkey
  rw [hdone]
  exact id

/-- The bytes that a partial write wrote are there. -/
theorem hasByte_written (hkey : isMetadataKey key = false)
    (hdone : (s.setPartialMany C key ws).2 = .ok ()) (h : written ws p = some b) :
    (s.setPartialMany C key ws).1.HasByte C key p b := by
  obtain ⟨old, -, hnew⟩ := getBytes_setPartialMany hkey hdone
  exact ⟨_, hnew, getElem?_foldl_overlay (fun _ hnone => by cases hnone) h⟩

theorem eq_ok_of_not_fails {r : Except StorageError Unit}
    (h : ¬ (Answer.reply (Reply.ofUnit r)).Fails) : r = .ok () := by
  cases r with
  | error e => exact absurd trivial h
  | ok u => rfl

/-- A call that leaves a byte alone, or fails, leaves it. -/
theorem Store.HasByte.step (h : s.HasByte C key p b) (hkey : isMetadataKey key = false) (call : Call)
    (hspare : call.Spares key p ∨ ((callMachine C Z).step s call).2.Fails) :
    ((callMachine C Z).step s call).1.HasByte C key p b := by
  by_cases htouch : call.Touches key → ((callMachine C Z).step s call).2.Fails
  · exact h.of_get (get_step call htouch) fun hskip => (skipped_step call hskip).1
  · obtain ⟨htouch, hdone⟩ := Classical.not_imp.1 htouch
    have hspare := hspare.resolve_right hdone
    cases call with
    | op op =>
        cases op with
        | setPartialMany k ws =>
            obtain rfl : k = key := htouch
            obtain ⟨old, hold, hnew⟩ := getBytes_setPartialMany hkey (eq_ok_of_not_fails hdone)
            obtain ⟨data, hdata, hb⟩ := h
            rw [hold] at hdata
            cases hdata
            refine ⟨_, hnew, getElem?_foldl_overlay (c := some b) ?_ (foldl_spare (hspare rfl) _)⟩
            rintro _ ⟨⟩
            exact hb
        | _ => exact absurd htouch hspare
    | _ => exact absurd htouch hspare

/-- A byte stays through a run in which nothing that succeeds touches it. -/
theorem Store.HasByte.exec {order : List (Entry SingleCall Outcome)} {s : Store × Bool}
    (h : s.1.HasByte C key p b) (hkey : isMetadataKey key = false) (hlegal : Legal C Z s order)
    (hspare : ∀ e ∈ order, e.op.1.Spares key p ∨ e.reply.Fails) :
    ((lockedMachine C Z).exec s (order.map Entry.op)).1.HasByte C key p b := by
  induction order generalizing s with
  | nil => exact h
  | cons e order ih =>
      obtain ⟨hreply, hrest⟩ := hlegal.tail
      obtain ⟨he, hes⟩ := List.forall_mem_cons.1 hspare
      refine ih ?_ hrest hes
      rcases lockedMachine_step s e.op with ⟨hstate, hpoisoned⟩ | ⟨hstate, hanswer⟩
      · rw [hstate]
        exact h
      · rw [hstate]
        refine h.step hkey e.op.1 (he.imp_right fun hfail => ?_)
        rw [← hreply, hanswer] at hfail
        exact hfail

end Bytes

/-! ## Runs -/

section Runs

variable (C : Crates) (Z : Zarrs) (s : Store) (actions : List (Action SingleCall))

/-- The store and the calls under way after a run. -/
def systemAfter : System Guarded (Finset RustString) SingleCall Outcome :=
  (Locking.machine (program C Z)).exec (.initial (behindLocks (s, false))) actions

/-- What is seen of a run. -/
def historyOf : List (Label SingleCall Outcome) :=
  Locking.history (program C Z) (behindLocks (s, false)) actions

/-- The calls of a run in the order in which they took effect. -/
def effectOrder : List (Entry SingleCall Outcome) := Locking.effects (historyOf C Z s actions)

/-- The store after the calls, one at a time. -/
def settledStore : Store × Bool :=
  (lockedMachine C Z).exec (s, false) ((effectOrder C Z s actions).map Entry.op)

/-- If two partial writes of a key to different places succeed, and no other call of the run
touches the key, each of them leaves its bytes. -/
def BothSurvive (key : RustString) : Prop :=
  ∀ e ∈ effectOrder C Z s actions, ∀ e' ∈ effectOrder C Z s actions, ∀ ws ws',
    e.op.1 = .op (.setPartialMany key ws) → e'.op.1 = .op (.setPartialMany key ws') →
    e.reply = .answer (.reply .done) → e'.reply = .answer (.reply .done) → e.id ≠ e'.id →
    (∀ p, written ws p = none ∨ written ws' p = none) →
    (∀ other ∈ effectOrder C Z s actions, other.id ≠ e.id → other.id ≠ e'.id →
      ¬ other.op.1.Touches key) →
    ∀ p b, written ws p = some b → (settledStore C Z s actions).1.HasByte C key p b

/-- What holds of a run of concurrent calls: the calls could have run one at a time, and the
store ends as they would leave it; a reader sees no skipped key that was written; what a partial
write to a byte key wrote stays until something that succeeds later touches it; and the locks
let somebody go on. -/
structure RunsAsOne : Prop where
  linearizes : Locking.Linearizes (lockedMachine C Z) (s, false) (historyOf C Z s actions)
    (effectOrder C Z s actions)
  settled : (∀ t ∈ (systemAfter C Z s actions).tasks, t.holdsOuter ≠ some .write) →
    (systemAfter C Z s actions).shared = behindLocks (settledStore C Z s actions)
  unskipped : ∀ t ∈ (systemAfter C Z s actions).tasks, t.holdsOuter = some .read →
    ∀ key ∈ (systemAfter C Z s actions).shared.2, key ∈ s.skipped ∧
      (systemAfter C Z s actions).shared.1.document.get key = s.document.get key ∧
        ∀ e ∈ effectOrder C Z s actions, e.op.1.Touches key → e.reply.Fails
  survives : ∀ before e after key ws p b, effectOrder C Z s actions = before ++ e :: after →
    e.op.1 = .op (.setPartialMany key ws) → e.reply = .answer (.reply .done) →
    isMetadataKey key = false → written ws p = some b →
    (∀ later ∈ after, later.op.1.Spares key p ∨ later.reply.Fails) →
    (settledStore C Z s actions).1.HasByte C key p b
  bothSurvive : ∀ key, isMetadataKey key = false → BothSurvive C Z s actions key
  holderMoves : ∀ (id : ℕ) (t : Task Guarded (Finset RustString) SingleCall Outcome),
    (systemAfter C Z s actions).tasks[id]? = some t → t.holdsOuter ≠ none →
    ((systemAfter C Z s actions).move id t).isSome = true
  notStuck : (∃ t ∈ (systemAfter C Z s actions).tasks, t.phase ≠ .returned) →
    ∃ (id : ℕ) (t : Task Guarded (Finset RustString) SingleCall Outcome),
      (systemAfter C Z s actions).tasks[id]? = some t ∧
        ((systemAfter C Z s actions).move id t).isSome = true

end Runs

section Safety

variable {s : Store} {actions : List (Action SingleCall)} {key : RustString} {p : ℕ} {b : UInt8}
  {ws : List (UInt64 × Bytes)}

theorem invariant_systemAfter : Locking.Invariant (program C Z) (behindLocks (s, false))
    (systemAfter C Z s actions) (historyOf C Z s actions) :=
  Locking.invariant_run follows_program actions

theorem sequential_eq : Locking.sequential (program C Z) (behindLocks (s, false)) (historyOf C Z s actions)
    = behindLocks (settledStore C Z s actions) :=
  aloneMachine_exec (s, false) _

theorem legal_effectOrder : Legal C Z (s, false) (effectOrder C Z s actions) := by
  rw [Legal, ← aloneMachine_replies]
  exact invariant_systemAfter.legal

/-- The order up to an entry, and from it on. -/
theorem Legal.append {s : Store × Bool} {before after : List (Entry SingleCall Outcome)}
    (h : Legal C Z s (before ++ after)) :
    Legal C Z ((lockedMachine C Z).exec s (before.map Entry.op)) after := by
  induction before generalizing s with
  | nil => exact h
  | cons e before ih => exact ih (Legal.tail h).2

/-- What a partial write wrote stays until something that succeeds touches it. -/
theorem survives_of_order {before after : List (Entry SingleCall Outcome)}
    {e : Entry SingleCall Outcome} (horder : effectOrder C Z s actions = before ++ e :: after)
    (hop : e.op.1 = .op (.setPartialMany key ws)) (hreply : e.reply = .answer (.reply .done))
    (hkey : isMetadataKey key = false) (hwritten : written ws p = some b)
    (hspare : ∀ later ∈ after, later.op.1.Spares key p ∨ later.reply.Fails) :
    (settledStore C Z s actions).1.HasByte C key p b := by
  have hlegal : Legal C Z (s, false) (before ++ e :: after) := horder ▸ legal_effectOrder
  obtain ⟨hstep, hrest⟩ := hlegal.append.tail
  rw [settledStore, horder, List.map_append, Transition.Machine.exec_append]
  show ((lockedMachine C Z).exec ((lockedMachine C Z).step _ e.op).1 (after.map Entry.op)).1.HasByte C key p b
  refine Store.HasByte.exec ?_ hkey hrest hspare
  generalize (lockedMachine C Z).exec (s, false) (before.map Entry.op) = u at hstep
  rcases lockedMachine_step (C := C) (Z := Z) u e.op with ⟨-, hpoisoned⟩ | ⟨hstate, hanswer⟩
  · rw [hstep, hreply] at hpoisoned
    cases hpoisoned
  · rw [hstep, hreply, hop] at hanswer
    rw [hstate, hop]
    have hdone : (u.1.setPartialMany C key ws).2 = .ok () := by
      have hreply' : Reply.done = .ofUnit (u.1.setPartialMany C key ws).2 :=
        Answer.reply.inj (Outcome.answer.inj hanswer)
      refine eq_ok_of_not_fails ?_
      rw [← hreply']
      exact id
    exact hasByte_written hkey hdone hwritten

theorem spare_of_written_eq_none (h : written ws p = none) : Spare ws p := by
  induction ws using List.reverseRecOn with
  | nil => exact List.forall_mem_nil _
  | append_singleton ws w ih =>
      rw [written, List.foldl_append, List.foldl_cons, List.foldl_nil] at h
      split at h
      · next hin =>
          have hlt : p - w.1.toNat < w.2.length := by
            have hend := hin.2
            rw [writeEnd] at hend
            omega
          rw [List.getElem?_eq_getElem hlt] at h
          cases h
      · next hout =>
          intro v hv
          rcases List.mem_append.1 hv with hv | hv
          · exact ih h v hv
          · rw [List.mem_singleton.1 hv]
            exact hout

end Safety

/-- Whatever the scheduler does with any number of concurrent calls. -/
theorem runsAsOne (C : Crates) (Z : Zarrs) (s : Store) (actions : List (Action SingleCall)) :
    RunsAsOne C Z s actions where
  linearizes := invariant_systemAfter.orderly.linearizes legal_effectOrder
  settled := fun hnone => (invariant_systemAfter.quiet hnone).trans sequential_eq
  unskipped := by
    intro t ht hread key hkey
    obtain ⟨id, hid⟩ := List.mem_iff_getElem?.1 ht
    have hshared := (invariant_systemAfter.shared_of_reader hid hread).trans sequential_eq
    rw [hshared] at hkey ⊢
    exact skipped_exec legal_effectOrder hkey
  survives := fun before e after key ws p b horder hop hreply hkey hwritten hspare =>
    survives_of_order horder hop hreply hkey hwritten hspare
  bothSurvive := by
    intro key hkey e he e' he' ws ws' hop hop' hreply hreply' hne hdisjoint hothers p b hwritten
    obtain ⟨before, after, horder⟩ := List.append_of_mem he
    refine survives_of_order horder hop hreply hkey hwritten fun later hlater => Or.inl ?_
    have hnodup : ((before ++ e :: after).map Entry.id).Nodup :=
      horder ▸ invariant_systemAfter.orderly.nodup
    have hlater' : later ∈ effectOrder C Z s actions :=
      horder ▸ List.mem_append_right _ (List.mem_cons_of_mem _ hlater)
    have hlaterne : later.id ≠ e.id := by
      rw [List.map_append, List.nodup_append, List.map_cons, List.nodup_cons] at hnodup
      exact fun heq => hnodup.2.1.1 (heq ▸ List.mem_map_of_mem hlater)
    by_cases hother : later.id = e'.id
    · obtain rfl : later = e' :=
        List.inj_on_of_nodup_map invariant_systemAfter.orderly.nodup hlater' he' hother
      rw [hop']
      refine fun _ => spare_of_written_eq_none ((hdisjoint p).resolve_left fun hnone => ?_)
      rw [hnone] at hwritten
      cases hwritten
    · exact Call.spares_of_not_touches (hothers later hlater' hlaterne hother)
  holderMoves := fun id t ht hheld => invariant_systemAfter.holder_moves ht hheld
  notStuck := by
    rintro ⟨t, ht, hpending⟩
    by_cases hheld : ∃ u ∈ (systemAfter C Z s actions).tasks, u.holdsOuter ≠ none
    · obtain ⟨u, hu, hheld⟩ := hheld
      obtain ⟨id, hid⟩ := List.mem_iff_getElem?.1 hu
      exact ⟨id, u, hid, invariant_systemAfter.holder_moves hid hheld⟩
    · obtain ⟨id, hid⟩ := List.mem_iff_getElem?.1 ht
      refine ⟨id, t, hid, invariant_systemAfter.moves hid (fun u hu => ?_) hpending⟩
      by_contra hheld'
      exact hheld ⟨u, hu, hheld'⟩

/-! ### Metadata keys

A metadata key holds a JSON value, not bytes: what a partial write puts between its tokens is
not kept, and the next partial write finds the bytes elsewhere. -/

/-- The partial write of a key, if the call is one. -/
def Call.partialWrite (key : RustString) : Call → Option (List (UInt64 × Bytes))
  | .op (.setPartialMany k ws) => if k = key then some ws else none
  | _ => none

theorem Call.eq_of_partialWrite {key : RustString} {call : Call} {ws : List (UInt64 × Bytes)}
    (h : call.partialWrite key = some ws) : call = .op (.setPartialMany key ws) := by
  unfold Call.partialWrite at h
  split at h
  · next k ws' =>
      split_ifs at h with hk
      cases h
      rw [hk]
  · cases h

/-- The call succeeded, and returned nothing. -/
def Outcome.isDone : Outcome → Bool
  | .answer (.reply .done) => true
  | _ => false

theorem Outcome.eq_of_isDone {o : Outcome} (h : o.isDone = true) : o = .answer (.reply .done) := by
  unfold Outcome.isDone at h
  split at h
  · rfl
  · cases h

/-- A store with a member of metadata. -/
def metadataStore : Store :=
  (Store.new.set crates "zarr.json".toList (Unicode.encodeUtf8 ("\x7b\"a\":11\x7d".toList.map Char.toNat))).1

/-- Two partial writes: a blank into the number, and a new letter for the name. -/
def metadataActions : List (Action SingleCall) :=
  [.call ⟨.op (.setPartialMany "zarr.json".toList [(5, [32])]), trivial⟩,
    .call ⟨.op (.setPartialMany "zarr.json".toList [(2, [98])]), trivial⟩]
    ++ List.replicate 12 (.step 0) ++ List.replicate 12 (.step 1)

theorem not_bothSurvive_metadata :
    ¬ BothSurvive crates zarrs metadataStore metadataActions "zarr.json".toList := by
  have hids : (effectOrder crates zarrs metadataStore metadataActions).map Entry.id = [0, 1] := by
    decide +kernel
  have hwrites : (effectOrder crates zarrs metadataStore metadataActions).map
      (fun e => e.op.1.partialWrite "zarr.json".toList) = [some [(5, [32])], some [(2, [98])]] := by
    decide +kernel
  have hdone : (effectOrder crates zarrs metadataStore metadataActions).map (fun e => e.reply.isDone)
      = [true, true] := by decide +kernel
  have hbytes : ((settledStore crates zarrs metadataStore metadataActions).1.getBytes crates
      "zarr.json".toList).toOption.any (fun data => data.any fun bytes => bytes[5]? == some 49) = true := by
    decide +kernel
  intro hboth
  rw [BothSurvive] at hboth
  obtain ⟨first, rest, horder, hfirst, hrest⟩ := List.map_eq_cons_iff.1 hids
  obtain ⟨second, rest, rfl, hsecond, hrest⟩ := List.map_eq_cons_iff.1 hrest
  obtain rfl := List.map_eq_nil_iff.1 hrest
  rw [horder] at hwrites hdone hboth
  simp only [List.map_cons, List.map_nil, List.cons.injEq, and_true] at hwrites hdone
  have hdisjoint : ∀ p, written [(5, [32])] p = none ∨ written [(2, [98])] p = none := by
    intro p
    rcases Nat.lt_or_ge p 5 with hlt | hge
    · exact Or.inl (if_neg fun h => absurd h.1 (Nat.not_le.2 hlt))
    · refine Or.inr (if_neg fun h => ?_)
      have hend : p < 3 := h.2
      omega
  have hothers : ∀ other ∈ [first, second], other.id ≠ first.id → other.id ≠ second.id →
      ¬ other.op.1.Touches "zarr.json".toList := by
    intro other hother hne hne'
    rcases List.mem_cons.1 hother with rfl | hother
    · exact absurd rfl hne
    · exact absurd (congrArg Entry.id (List.mem_singleton.1 hother)) hne'
  have hsurvives := hboth first List.mem_cons_self second (List.mem_cons_of_mem _ List.mem_cons_self)
    _ _ (Call.eq_of_partialWrite hwrites.1) (Call.eq_of_partialWrite hwrites.2)
    (Outcome.eq_of_isDone hdone.1) (Outcome.eq_of_isDone hdone.2) (by rw [hfirst, hsecond]; decide)
    hdisjoint hothers 5 32 rfl
  obtain ⟨data, hdata, hfive⟩ := hsurvives
  obtain ⟨found, hfound, hbyte⟩ := Json.exists_of_any_toOption hbytes
  rw [hdata] at hfound
  cases hfound
  have hclash : (some 49 : Option UInt8) = some 32 := (eq_of_beq hbyte).symm.trans hfive
  cases hclash

end Rust
