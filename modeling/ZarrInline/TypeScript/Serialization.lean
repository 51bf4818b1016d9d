import ZarrInline.TypeScript.Callbacks

/-!
# The TypeScript store under its lock

Every method registers at most one critical section, and what is wanted of its promise is the
reply that the call has after the calls made before (`serves_call`).  Whatever the order of
calls and jobs, a call is answered as if the calls had run one after the other:
`lock_serializes`.
-/

namespace TypeScript

open Async (Loop Origin Upstream Wired)

variable {β ε : Type}

/-! ## Calls -/

/-- All callbacks come before the lock. -/
structure HoldsLock (os : List (Origin Handler)) (lock : ℕ) : Prop where
  isLock : IsLock os lock
  lt_length : lock < os.length
  upstream : ∀ t, IsSection os t → Upstream os t lock

/-- A method returns a promise of which `w` is wanted, and registers the callbacks `secs`. -/
def Answers (B : Backing β ε) (s₀ : Store β) (os : List (Origin Handler)) (want : List (Reply ε))
    (x : Runtime β ε × ℕ) (w : Reply ε) (secs : List Section) : Prop :=
  ∃ os' want', Serial B s₀ os' want' x.1.loop ∧ HoldsLock os' x.1.lock ∧ os <+: os' ∧
    want <+: want' ∧ want'[x.2]? = some w ∧ sections os' = sections os ++ secs

section Calls

variable {B : Backing β ε} {s₀ : Store β} {os : List (Origin Handler)} {want : List (Reply ε)}
  {R : Runtime β ε} {x : Runtime β ε × ℕ} {w : Reply ε} {secs : List Section}

theorem HoldsLock.append {lock : ℕ} (h : HoldsLock os lock) {o : Origin Handler}
    (ho : sectionOf o = none) : HoldsLock (os ++ [o]) lock := by
  refine ⟨h.isLock.append [o], ?_, ?_⟩
  · rw [List.length_append]
    exact Nat.lt_add_right _ h.lt_length
  · rintro t ⟨s, sec, ht⟩
    rcases getElem?_snoc_eq_some.1 ht with ht | ⟨rfl, rfl⟩
    · exact (h.upstream t ⟨s, sec, ht⟩).append [o]
    · cases ho

theorem sections_snoc {o : Origin Handler} (ho : sectionOf o = none) :
    sections (os ++ [o]) = sections os := by
  have hsections : sections [o] = [] := by
    rw [sections, List.filterMap_cons, ho]
    rfl
  rw [sections_append, hsections, List.append_nil]

/-- A method that throws. -/
theorem answers_throws (hs : Serial B s₀ os want R.loop) (hl : HoldsLock os R.lock) (e : StoreError ε) :
    Answers B s₀ os want (R.throws e) (.failed e) [] := by
  have hlength := hs.wired.length_eq
  refine ⟨os ++ [none], want ++ [.failed e], ?_, hl.append rfl, List.prefix_append _ _,
    List.prefix_append _ _, ?_, ?_⟩
  · refine hs.extend (hs.wired.alloc_settled _) rfl ?_ ?_ trivial fun s sec heq => by cases heq
    · exact fun t ht => Loop.outcome?_alloc _ t (hlength ▸ ht)
    · intro v hv
      have hnew := R.loop.outcome?_alloc_length_settled (.failed e)
      rw [← hlength] at hnew
      exact ⟨rfl, (Option.some_inj.1 (hnew.symm.trans hv)).symm⟩
  · show (want ++ [.failed e])[R.loop.cells.length]? = _
    rw [← hlength, ← hs.length_eq, List.getElem?_append_right le_rfl, Nat.sub_self]
    rfl
  · rw [sections_snoc rfl, List.append_nil]

/-- A pending promise more. -/
theorem Serial.extend_pending {ℓ ℓ' : Loop (Store β) (Reply ε) Handler} (hs : Serial B s₀ os want ℓ)
    {o : Origin Handler} (hw : Wired (Handler.run B) (os ++ [o]) [] ℓ') (hstate : ℓ'.state = ℓ.state)
    (hkeep : ∀ t, ℓ'.outcome? t = ℓ.outcome? t) (hwant : IsWanted B s₀ (sections os) want w o)
    (hlock : ∀ s sec, o = some (s, some (.locked sec)) →
      IsLock os s ∧ ∀ t, IsSection os t → Upstream os t s) :
    Serial B s₀ (os ++ [o]) (want ++ [w]) ℓ' := by
  refine hs.extend hw hstate (fun t _ => hkeep t) (fun v hv => ?_) hwant hlock
  rw [hkeep, Loop.outcome?_eq_none_of_le hs.wired.length_eq.ge] at hv
  cases hv

/-- An `async` function passes on what is wanted. -/
theorem Answers.async (h : Answers B s₀ os want x w secs) :
    Answers B s₀ os want (Runtime.async x) w secs := by
  obtain ⟨os', want', hs, hl, hos, hwant, hw, hsecs⟩ := h
  have hlength := hs.wired.length_eq
  have hlt : x.2 < os'.length := hs.length_eq ▸ (List.getElem?_eq_some_iff.1 hw).1
  refine ⟨os' ++ [some (x.2, none)], want' ++ [w], ?_, hl.append rfl,
    hos.trans (List.prefix_append _ _), hwant.trans (List.prefix_append _ _), ?_, ?_⟩
  · exact hs.extend_pending (hs.wired.asyncReturn hlt) rfl
      (fun t => Loop.outcome?_asyncReturn x.2 t) hw fun s sec heq => by cases heq
  · show (want' ++ [w])[x.1.loop.cells.length]? = _
    rw [← hlength, ← hs.length_eq, List.getElem?_append_right le_rfl, Nat.sub_self]
    rfl
  · rw [sections_snoc rfl, hsecs]

/-- What follows the `await` of `getRange`. -/
theorem Answers.awaitRange (h : Answers B s₀ os want x w secs) (range : RangeQuery) :
    Answers B s₀ os want (Runtime.awaitRange x range) (w.ranged range) secs := by
  obtain ⟨os', want', hs, hl, hos, hwant, hw, hsecs⟩ := h
  have hlength := hs.wired.length_eq
  have hlt : x.2 < os'.length := hs.length_eq ▸ (List.getElem?_eq_some_iff.1 hw).1
  refine ⟨os' ++ [some (x.2, some (.ranged range))], want' ++ [w.ranged range], ?_, hl.append rfl,
    hos.trans (List.prefix_append _ _), hwant.trans (List.prefix_append _ _), ?_, ?_⟩
  · exact hs.extend_pending (hs.wired.andThen hlt _) (Loop.state_andThen _ _)
      (fun t => Loop.outcome?_andThen x.2 _ t) ⟨w, hw, rfl⟩ fun s sec heq => by cases heq
  · show (want' ++ [w.ranged range])[x.1.loop.cells.length]? = _
    rw [← hlength, ← hs.length_eq, List.getElem?_append_right le_rfl, Nat.sub_self]
    rfl
  · rw [sections_snoc rfl, hsecs]

/-- A callback is to run after all that were registered before it. -/
theorem answers_withLock (hs : Serial B s₀ os want R.loop) (hl : HoldsLock os R.lock) (sec : Section) :
    Answers B s₀ os want (R.withLock sec) (sec.run B (runSections B s₀ (sections os))).2 [sec] := by
  have hlength := hs.wired.length_eq
  generalize hw : (sec.run B (runSections B s₀ (sections os))).2 = w
  have hrun : Serial B s₀ (os ++ [some (R.lock, some (.locked sec))]) (want ++ [w])
      (R.loop.andThen R.lock (.locked sec)) := by
    refine hs.extend_pending (hs.wired.andThen hl.lt_length _) (Loop.state_andThen _ _)
      (fun t => Loop.outcome?_andThen _ _ t) hw.symm fun s sec' heq => ?_
    cases heq
    exact ⟨hl.isLock, hl.upstream⟩
  have hget : (os ++ [some (R.lock, some (.locked sec))])[R.loop.cells.length]?
      = some (some (R.lock, some (.locked sec))) := by
    rw [← hlength, List.getElem?_append_right le_rfl, Nat.sub_self]
    rfl
  have hwant : (want ++ [w])[R.loop.cells.length]? = some w := by
    rw [← hlength, ← hs.length_eq, List.getElem?_append_right le_rfl, Nat.sub_self]
    rfl
  have hcatch := hrun.extend_pending (w := (Handler.run B .release s₀ w).2)
    (hrun.wired.andThen (Wired.lt_length hget) .release) (Loop.state_andThen _ _)
    (fun t => Loop.outcome?_andThen _ _ t) ⟨w, hwant, rfl⟩ fun s sec' heq => by cases heq
  have hlock : (os ++ [some (R.lock, some (.locked sec))] ++
      [some (R.loop.cells.length, some .release)])[R.loop.cells.length + 1]?
        = some (some (R.loop.cells.length, some .release)) := by
    refine getElem?_snoc_eq_some.2 (Or.inr ⟨?_, rfl⟩)
    rw [List.length_append, hlength]
    rfl
  refine ⟨_, _, hcatch, ⟨Or.inr ⟨_, hlock⟩, Wired.lt_length hlock, ?_⟩, ?_, ?_, ?_, ?_⟩
  · rintro t ⟨s, sec', ht⟩
    refine .step hlock ?_
    rcases getElem?_snoc_eq_some.1 ht with ht | ⟨-, heq⟩
    · rcases getElem?_snoc_eq_some.1 ht with ht | ⟨rfl, -⟩
      · exact (Upstream.step hget ((hl.upstream t ⟨s, sec', ht⟩).append _)).append _
      · rw [hlength]
        exact .refl
    · cases heq
  · rw [List.append_assoc]
    exact List.prefix_append _ _
  · rw [List.append_assoc]
    exact List.prefix_append _ _
  · exact (List.getElem?_append_left (List.getElem?_eq_some_iff.1 hwant).1).trans hwant
  · rw [sections_snoc rfl, sections_append]
    rfl

theorem runSections_readOnly (secs : List Section) (s : Store β) :
    (runSections B s secs).readOnly = s.readOnly := by
  induction secs generalizing s with
  | nil => rfl
  | cons sec secs ih => exact (ih _).trans (sec.run_readOnly B s)

/-- A method does now what it would do after the calls before it: it registers a callback
with the effect of the call, or none, and the reply of the call is wanted of its promise. -/
def Serves (B : Backing β ε) (s₀ : Store β) (os : List (Origin Handler)) (want : List (Reply ε))
    (x : Runtime β ε × ℕ) (step : Store β → Store β × Reply ε) : Prop :=
  ∃ secs, Answers B s₀ os want x (step (runSections B s₀ (sections os))).2 secs ∧ secs.length ≤ 1 ∧
    runSections B (runSections B s₀ (sections os)) secs = (step (runSections B s₀ (sections os))).1

theorem Serves.async {step : Store β → Store β × Reply ε} (h : Serves B s₀ os want x step) :
    Serves B s₀ os want (Runtime.async x) step := by
  obtain ⟨secs, hx, hone, hrun⟩ := h
  exact ⟨secs, hx.async, hone, hrun⟩

theorem serves_throws (hs : Serial B s₀ os want R.loop) (hl : HoldsLock os R.lock) {e : StoreError ε}
    {step : Store β → Store β × Reply ε}
    (h : ∀ s, s.readOnly = R.loop.state.readOnly → step s = (s, .failed e)) :
    Serves B s₀ os want (R.throws e) step := by
  have hstep := h (runSections B s₀ (sections os)) (by rw [runSections_readOnly, hs.readOnly])
  refine ⟨[], ?_, Nat.zero_le _, ?_⟩
  · rw [hstep]
    exact answers_throws hs hl e
  · rw [hstep]
    rfl

theorem serves_withLock (hs : Serial B s₀ os want R.loop) (hl : HoldsLock os R.lock) {sec : Section}
    {step : Store β → Store β × Reply ε}
    (h : ∀ s, s.readOnly = R.loop.state.readOnly → step s = sec.run B s) :
    Serves B s₀ os want (R.withLock sec) step := by
  have hstep := h (runSections B s₀ (sections os)) (by rw [runSections_readOnly, hs.readOnly])
  refine ⟨[sec], ?_, le_rfl, ?_⟩
  · rw [hstep]
    exact answers_withLock hs hl sec
  · rw [hstep]
    rfl

theorem serves_setBytes (hs : Serial B s₀ os want R.loop) (hl : HoldsLock os R.lock) (key : JsString)
    (value : Bytes) : Serves B s₀ os want (R.setBytes key value)
      fun s => ((s.setBytes B key value).1, .ofUnit (s.setBytes B key value).2) := by
  rw [Runtime.setBytes]
  split_ifs with hro
  · refine serves_throws hs hl fun s hs' => ?_
    rw [Store.setBytes, if_pos (hs'.trans hro)]
    rfl
  · cases hkey : checkKey (docKey key) with
    | some issue =>
        refine serves_throws hs hl fun s hs' => ?_
        rw [Store.setBytes, if_neg (hs' ▸ hro), hkey]
        rfl
    | none =>
        refine (serves_withLock hs hl fun s hs' => ?_).async
        rw [Store.setBytes, if_neg (hs' ▸ hro), hkey]
        simp only [Section.run]
        cases encodeValue (docKey key) value with
        | error e => rfl
        | ok encoded =>
            cases hcommit : s.commitSet B (docKey key) encoded with
            | mk s' r => cases r <;> simp [hcommit, Reply.ofUnit]

theorem serves_setJson (hs : Serial B s₀ os want R.loop) (hl : HoldsLock os R.lock) (key : JsString)
    (value : JsValue) : Serves B s₀ os want (R.setJson key value)
      fun s => ((s.setJson B key value).1, .ofUnit (s.setJson B key value).2) := by
  rw [Runtime.setJson]
  split_ifs with hmeta hbyte
  · refine serves_throws hs hl fun s _ => ?_
    rw [Store.setJson, if_pos hmeta]
    rfl
  · refine serves_throws hs hl fun s _ => ?_
    rw [Store.setJson, if_neg hmeta, if_pos hbyte]
    rfl
  · cases htext : canonicalStringify value with
    | error e =>
        refine serves_throws hs hl fun s _ => ?_
        rw [Store.setJson, if_neg hmeta, if_neg hbyte, htext]
        rfl
    | ok text =>
        have hset := (serves_setBytes (B := B) hs hl key (utf8Encode text)).async
        simp only [Store.setJson, if_neg hmeta, if_neg hbyte, htext]
        exact hset

theorem serves_delete (hs : Serial B s₀ os want R.loop) (hl : HoldsLock os R.lock) (key : JsString) :
    Serves B s₀ os want (R.delete key)
      fun s => ((s.delete B key).1, .ofUnit (s.delete B key).2) := by
  rw [Runtime.delete]
  split_ifs with hro
  · refine serves_throws hs hl fun s hs' => ?_
    rw [Store.delete, if_pos (hs'.trans hro)]
    rfl
  · refine (serves_withLock hs hl fun s hs' => ?_).async
    rw [Store.delete, if_neg (hs' ▸ hro)]
    simp only [Section.run]
    cases hcommit : s.commitErase B (docKey key) with
    | mk s' r => cases r <;> simp [Reply.ofUnit]

/-- Every method. -/
theorem serves_call (hs : Serial B s₀ os want R.loop) (hl : HoldsLock os R.lock) (c : Call) :
    Serves B s₀ os want (R.call c) fun s => (callMachine B).step s c := by
  cases c with
  | get key => exact (serves_withLock hs hl fun s _ => rfl).async
  | has key => exact (serves_withLock hs hl fun s _ => rfl).async
  | list => exact (serves_withLock hs hl fun s _ => rfl).async
  | set key value => exact (serves_setBytes hs hl key value).async
  | setJson key value => exact serves_setJson hs hl key value
  | delete key => exact serves_delete hs hl key
  | getRange key range =>
      have hget : Serves B s₀ os want (R.withLock (.get key)) (Section.run B · (.get key)) :=
        serves_withLock hs hl fun s _ => rfl
      obtain ⟨secs, hx, hone, hrun⟩ := hget.async
      exact ⟨secs, hx.awaitRange range, hone, hrun⟩

end Calls

/-! ## Runs -/

/-- The calls of a history are answered as if they ran one after the other. -/
structure Lawful (B : Backing β ε) (s₀ : Store β) (os : List (Origin Handler)) (want : List (Reply ε))
    (h : History β ε) : Prop where
  serial : Serial B s₀ os want h.1.loop
  holdsLock : HoldsLock os h.1.lock
  exec_eq : runSections B s₀ (sections os) = (callMachine B).exec s₀ (h.2.map Prod.fst)
  take_eq : ∀ d, ∃ k ≤ h.2.length, runSections B s₀ (sections (os.take d))
    = (callMachine B).exec s₀ ((h.2.take k).map Prod.fst)
  replies : h.2.map (fun e => want[e.2]?) = ((callMachine B).replies s₀ (h.2.map Prod.fst)).map some

section Runs

variable {B : Backing β ε} {s₀ : Store β} {os : List (Origin Handler)} {want : List (Reply ε)}
  {h : History β ε}

theorem lawful_new (B : Backing β ε) (s₀ : Store β) :
    Lawful B s₀ [none] [.done] (Runtime.new s₀, []) := by
  have hnosection : ∀ t, ¬ IsSection [none] t := by
    rintro t ⟨s, sec, ht⟩
    cases t <;> simp at ht
  have hwired := (Wired.empty (Handler.run B) s₀).alloc_settled Reply.done
  refine ⟨⟨hwired, rfl, ?_, rfl, ?_, rfl, ⟨0, Nat.zero_le _, rfl, ?_⟩, ?_⟩, ⟨Or.inl rfl, Nat.one_pos, ?_⟩,
    rfl, ?_, rfl⟩
  · intro n o w ho hw
    cases n with
    | zero => cases ho; trivial
    | succ n => simp at ho
  · intro t s sec ht
    exact absurd ⟨s, sec, ht⟩ (hnosection t)
  · exact fun t ht => absurd ht (hnosection t)
  · intro t w v hw _ hv
    cases t with
    | zero => cases hw; cases hv; rfl
    | succ t => simp at hw
  · exact fun t ht => absurd ht (hnosection t)
  · intro d
    refine ⟨0, le_rfl, ?_⟩
    have hnil : sections (([none] : List (Origin Handler)).take d) = [] := by
      cases d with
      | zero => rfl
      | succ d => rw [List.take_succ_cons, List.take_nil]; rfl
    rw [hnil]
    rfl

/-- A job changes nothing in what is wanted. -/
theorem Lawful.job (hl : Lawful B s₀ os want h) (i : ℕ) : Lawful B s₀ os want (happen B h (.job i)) :=
  ⟨hl.serial.step i, hl.holdsLock, hl.exec_eq, hl.take_eq, hl.replies⟩

/-- A call comes after those made before. -/
theorem Lawful.call (hl : Lawful B s₀ os want h) (c : Call) :
    ∃ os' want', Lawful B s₀ os' want' (happen B h (.call c)) := by
  obtain ⟨secs, ⟨os', want', hs, hlock, hos, hwant, hw, hsecs⟩, hone, hrun⟩ :=
    serves_call hl.serial hl.holdsLock c
  rw [hl.exec_eq] at hw hrun
  have hcalls : (happen B h (.call c)).2.map Prod.fst = h.2.map Prod.fst ++ [c] := by
    rw [happen, List.map_append]
    rfl
  have hexec : runSections B s₀ (sections os')
      = (callMachine B).exec s₀ ((happen B h (.call c)).2.map Prod.fst) := by
    rw [hsecs, runSections_append, hl.exec_eq, hrun, hcalls, Transition.Machine.exec_append]
    rfl
  refine ⟨os', want', hs, hlock, hexec, fun d => ?_, ?_⟩
  · obtain ⟨ps, rfl⟩ := hos
    rcases le_total d os.length with hle | hge
    · obtain ⟨k, hk, heq⟩ := hl.take_eq d
      refine ⟨k, hk.trans ?_, ?_⟩
      · rw [happen, List.length_append]
        exact Nat.le_add_right _ _
      · rw [List.take_append_of_le_length hle, heq, happen, List.take_append_of_le_length hk]
    · -- the new callback is the last one
      have hsplit : sections ((os ++ ps).take d) = sections os ++ sections (ps.take (d - os.length)) := by
        rw [List.take_append, List.take_of_length_le hge, sections_append]
      have hle : (sections (ps.take (d - os.length))).Sublist secs := by
        rw [sections_append] at hsecs
        rw [← List.append_cancel_left hsecs]
        exact (List.take_sublist _ _).filterMap _
      rcases Nat.lt_or_ge (sections (ps.take (d - os.length))).length secs.length with hlt | hge'
      · have hnil : sections (ps.take (d - os.length)) = [] := List.length_eq_zero_iff.1 (by omega)
        refine ⟨h.2.length, ?_, ?_⟩
        · rw [happen, List.length_append]
          exact Nat.le_add_right _ _
        · rw [hsplit, hnil, List.append_nil, hl.exec_eq, happen, List.take_left']
          rfl
      · have hall : sections (ps.take (d - os.length)) = secs := hle.eq_of_length_le hge'
        refine ⟨_, le_rfl, ?_⟩
        rw [hsplit, hall, ← hsecs, hexec, List.take_length]
  · rw [hcalls, Transition.Machine.replies_append_singleton, List.map_append, ← hl.replies]
    show (h.2 ++ [(c, (h.1.call c).2)]).map (fun e => want'[e.2]?) = _
    rw [List.map_append, List.map_singleton, hw]
    refine congrArg (· ++ _) (List.map_congr_left fun e he => ?_)
    have hmem : want[e.2]? ∈ h.2.map fun e => want[e.2]? := List.mem_map.2 ⟨e, he, rfl⟩
    rw [hl.replies] at hmem
    obtain ⟨w, -, hsome⟩ := List.mem_map.1 hmem
    obtain ⟨ws, rfl⟩ := hwant
    rw [List.getElem?_append_left (List.getElem?_eq_some_iff.1 hsome.symm).1]

theorem exists_lawful (B : Backing β ε) (s₀ : Store β) (hs : List Happening) :
    ∃ os want, Lawful B s₀ os want (history B s₀ hs) := by
  induction hs using List.reverseRecOn with
  | nil => exact ⟨_, _, lawful_new B s₀⟩
  | append_singleton hs e ih =>
      obtain ⟨os, want, hl⟩ := ih
      rw [history, List.foldl_append]
      cases e with
      | call c => exact hl.call c
      | job i => exact ⟨os, want, hl.job i⟩

theorem history_append (hs hs' : List Happening) :
    history B s₀ (hs ++ hs') = hs'.foldl (happen B) (history B s₀ hs) :=
  List.foldl_append

theorem foldl_replicate_job (n : ℕ) (h : History β ε) :
    (List.replicate n (Happening.job 0)).foldl (happen B) h
      = (⟨((fun ℓ => ℓ.step (Handler.run B) 0)^[n]) h.1.loop, h.1.lock⟩, h.2) := by
  induction n generalizing h with
  | zero => rfl
  | succ n ih => exact ih _

/-- The queue is run empty. -/
theorem exists_drained (B : Backing β ε) (s₀ : Store β) (hs : List Happening) :
    ∃ n, (history B s₀ (hs ++ List.replicate n (.job 0))).1.loop.jobs = [] := by
  obtain ⟨n, -, hn⟩ := Loop.exists_jobs_eq_nil (Handler.run B) (history B s₀ hs).1.loop
  refine ⟨n, ?_⟩
  rw [history_append, foldl_replicate_job]
  exact hn

/-- An outcome is the reply of the call. -/
theorem Lawful.outcome_eq (hl : Lawful B s₀ os want h) {k p : ℕ} {c : Call} {v : Reply ε}
    (hk : h.2[k]? = some (c, p)) (hv : h.1.loop.outcome? p = some v) :
    ((callMachine B).replies s₀ (h.2.map Prod.fst))[k]? = some v := by
  have hget := congrArg (·[k]?) hl.replies
  simp only [List.getElem?_map, hk, Option.map_some, hl.serial.outcome_eq hv] at hget
  obtain ⟨w, hw, heq⟩ := Option.map_eq_some_iff.1 hget.symm
  rw [hw, heq]

/-- When nothing waits, every call has its answer. -/
theorem Lawful.drained (hl : Lawful B s₀ os want h) (hjobs : h.1.loop.jobs = []) :
    h.1.loop.state = (callMachine B).exec s₀ (h.2.map Prod.fst) ∧
      ∀ e ∈ h.2, (h.1.loop.outcome? e.2).isSome := by
  have hall : ∀ t < os.length, (h.1.loop.outcome? t).isSome := fun t ht =>
    hl.serial.wired.isSome_outcome? hjobs ht
  constructor
  · obtain ⟨d, hd, hrun, hmark⟩ := hl.serial.mark
    rw [hrun, ← hl.exec_eq]
    -- no callback is left after the mark
    have htake := @sections_take_of_no_section os d os.length hd fun t hdt ht hsection =>
      absurd ((hmark t hsection).1 (hall t ht)) (not_lt.2 hdt)
    rw [← htake, List.take_length]
  · intro e he
    have hmem : want[e.2]? ∈ h.2.map fun e => want[e.2]? := List.mem_map.2 ⟨e, he, rfl⟩
    rw [hl.replies] at hmem
    obtain ⟨w, -, hsome⟩ := List.mem_map.1 hmem
    exact hall e.2 (hl.serial.length_eq ▸ (List.getElem?_eq_some_iff.1 hsome.symm).1)

/-- Whether a job runs a callback. -/
def isCritical : Async.Job Handler (Reply ε) → Bool
  | .react ⟨some (.locked _), _⟩ _ => true
  | _ => false

/-- At most one callback may run. -/
theorem Serial.countP_isCritical_le {ℓ : Loop (Store β) (Reply ε) Handler}
    (hs : Serial B s₀ os want ℓ) : ℓ.jobs.countP isCritical ≤ 1 := by
  have hinv : ∀ j ∈ ℓ.jobs, isCritical j = true →
      ∃ s sec, os[j.target]? = some (some (s, some (.locked sec))) ∧ (ℓ.outcome? s).isSome := by
    intro j hj hcrit
    unfold isCritical at hcrit
    split at hcrit
    · next sec t v =>
        obtain ⟨s, hsource, hv⟩ := hs.wired.react hj
        exact ⟨s, sec, hsource, by rw [hv]; rfl⟩
    · cases hcrit
  have hpending : ∀ j ∈ ℓ.jobs, ∀ {o}, os[j.target]? = some o → ℓ.outcome? j.target = none := by
    intro j hj o ho
    have hcount := hs.wired.count_eq j.target (Wired.lt_length ho)
    have hpos : 0 < ℓ.targets.count j.target :=
      List.count_pos_iff.2 (List.mem_append_left _ (List.mem_map_of_mem hj))
    cases hout : ℓ.outcome? j.target with
    | none => rfl
    | some v =>
        rw [hout, List.nil_append, Option.isSome_some, if_pos rfl] at hcount
        omega
  -- of two callbacks that may run, the second waits for the first
  have hle : ∀ j ∈ ℓ.jobs, ∀ j' ∈ ℓ.jobs, isCritical j = true → isCritical j' = true →
      ¬ j.target < j'.target := by
    intro j hj j' hj' hcrit hcrit' hlt
    obtain ⟨s, sec, hsource, -⟩ := hinv j hj hcrit
    obtain ⟨s', sec', hsource', hsettled⟩ := hinv j' hj' hcrit'
    have hup := (hs.source hsource').2 j.target hlt ⟨s, sec, hsource⟩
    have hsome := hs.wired.isSome_of_upstream hup hsettled
    rw [hpending j hj hsource] at hsome
    cases hsome
  by_cases hnone : ∃ j ∈ ℓ.jobs, isCritical j = true
  · obtain ⟨j, hj, hcrit⟩ := hnone
    obtain ⟨s, sec, hsource, -⟩ := hinv j hj hcrit
    have hcount := hs.wired.count_held_le (Wired.lt_length hsource)
    calc ℓ.jobs.countP isCritical
        ≤ ℓ.jobs.countP (fun j' => j'.target == j.target) := by
          refine List.countP_mono_left fun j' hj' hcrit' => ?_
          have h1 := hle j hj j' hj' hcrit hcrit'
          have h2 := hle j' hj' j hj hcrit' hcrit
          simp only [beq_iff_eq]
          omega
      _ = (ℓ.jobs.map Async.Job.target).count j.target := by
          rw [List.count, List.countP_map]
          rfl
      _ ≤ ℓ.targets.count j.target := List.Sublist.count_le _ (List.sublist_append_left _ _)
      _ ≤ 1 := hcount
  · have hzero : ℓ.jobs.countP isCritical = 0 := List.countP_eq_zero.2 fun j hj hcrit =>
      hnone ⟨j, hj, hcrit⟩
    omega

end Runs

/-! ## Rejections -/

section Rejections

variable {B : Backing β ε} {s s' : Store β} {key : JsString} {e : StoreError ε}

/-- The error is none of a backing. -/
def IsOwn (e : StoreError ε) : Prop := ∀ e', e ≠ .backing e'

theorem setBytes_own {value : Bytes} (h : s.setBytes B key value = (s', .error e)) (he : IsOwn e) :
    s' = s := by
  rw [Store.setBytes] at h
  split_ifs at h
  · cases h; rfl
  · cases hkey : checkKey (docKey key) with
    | some issue => rw [hkey] at h; cases h; rfl
    | none =>
        rw [hkey] at h
        cases hencoded : encodeValue (docKey key) value with
        | error e' => rw [hencoded] at h; cases h; rfl
        | ok encoded =>
            simp only [hencoded] at h
            split at h
            · cases h
            · cases h
              exact absurd rfl (he _)

theorem delete_own (h : s.delete B key = (s', .error e)) (he : IsOwn e) : s' = s := by
  rw [Store.delete] at h
  split_ifs at h
  · cases h; rfl
  · split at h
    · cases h
    · cases h
      exact absurd rfl (he _)

theorem Reply.ofUnit_eq_failed {r : Except (StoreError ε) Unit} (h : Reply.ofUnit r = .failed e) :
    r = .error e := by
  cases r with
  | ok u => cases h
  | error e' => cases h; rfl

/-- A rejected call leaves the map of the store as it was, and unless the backing failed the
whole store. -/
theorem step_failed (B : Backing β ε) (s : Store β) (c : Call) (e : StoreError ε)
    (h : ((callMachine B).step s c).2 = .failed e) :
    keyMap ((callMachine B).step s c).1 = keyMap s ∧
      (IsOwn e → ((callMachine B).step s c).1 = s) := by
  cases c with
  | get key =>
      have hget : ((storeMachine B).step s (.get key)).1 = s := by
        simp only [storeMachine]
        split <;> rfl
      exact ⟨congrArg keyMap hget, fun _ => hget⟩
  | getRange key range =>
      have hget : ((storeMachine B).step s (.get key)).1 = s := by
        simp only [storeMachine]
        split <;> rfl
      exact ⟨congrArg keyMap hget, fun _ => hget⟩
  | has key => cases h
  | list => cases h
  | set key value =>
      have hfailed := Reply.ofUnit_eq_failed h
      refine ⟨?_, setBytes_own (Prod.ext rfl hfailed)⟩
      rcases mapSpec_step B s (.set key value) with ⟨hdone, -⟩ | ⟨-, hmap⟩
      · rw [show ((storeMachine B).step s (.set key value)).2 = .failed e from h] at hdone
        cases hdone
      · exact hmap
  | setJson key value =>
      have hfailed := Reply.ofUnit_eq_failed h
      refine ⟨?_, fun he => ?_⟩
      · rcases mapSpec_step B s (.setJson key value) with ⟨text, -, hdone, -⟩ | ⟨-, hmap⟩
        · rw [show ((storeMachine B).step s (.setJson key value)).2 = .failed e from h] at hdone
          cases hdone
        · exact hmap
      · show (s.setJson B key value).1 = s
        rcases setJson_cases B s key value with ⟨text, -, hset⟩ | ⟨e', he', -⟩
        · rw [hset] at hfailed ⊢
          exact setBytes_own (Prod.ext rfl hfailed) he
        · rw [he']
  | delete key =>
      have hfailed := Reply.ofUnit_eq_failed h
      refine ⟨?_, delete_own (Prod.ext rfl hfailed)⟩
      rcases mapSpec_step B s (.delete key) with ⟨hdone, -⟩ | ⟨-, hmap⟩
      · rw [show ((storeMachine B).step s (.delete key)).2 = .failed e from h] at hdone
        cases hdone
      · exact hmap

end Rejections

/-- Whatever the order of calls and jobs, and whichever calls are rejected: a promise that
settled did so with the reply of its call in the order of the calls; the store is always as
after the first calls; no more than one callback may run; the queue runs empty, and then
every promise is settled and the store is as after all calls.  A rejected call leaves the map
of the store as it was, and unless the backing failed the store itself. -/
theorem lock_serializes (B : Backing β ε) (s₀ : Store β) (hs : List Happening) :
    (∀ (k : ℕ) (c : Call) (p : ℕ) (v : Reply ε), (history B s₀ hs).2[k]? = some (c, p) →
        (history B s₀ hs).1.loop.outcome? p = some v →
        ((callMachine B).replies s₀ ((history B s₀ hs).2.map Prod.fst))[k]? = some v) ∧
      (∃ k ≤ (history B s₀ hs).2.length, (history B s₀ hs).1.loop.state
        = (callMachine B).exec s₀ (((history B s₀ hs).2.take k).map Prod.fst)) ∧
      (history B s₀ hs).1.loop.jobs.countP isCritical ≤ 1 ∧
      (∃ n, (history B s₀ (hs ++ List.replicate n (.job 0))).1.loop.jobs = []) ∧
      ((history B s₀ hs).1.loop.jobs = [] →
        (history B s₀ hs).1.loop.state
            = (callMachine B).exec s₀ ((history B s₀ hs).2.map Prod.fst) ∧
          ∀ e ∈ (history B s₀ hs).2, ((history B s₀ hs).1.loop.outcome? e.2).isSome) ∧
      ∀ s c e, ((callMachine B).step s c).2 = .failed e →
        keyMap ((callMachine B).step s c).1 = keyMap s ∧
          (IsOwn e → ((callMachine B).step s c).1 = s) := by
  obtain ⟨os, want, hl⟩ := exists_lawful B s₀ hs
  refine ⟨fun k c p v hk hv => hl.outcome_eq hk hv, ?_, hl.serial.countP_isCritical_le, exists_drained B s₀ hs,
    hl.drained, step_failed B⟩
  obtain ⟨d, -, hrun, -⟩ := hl.serial.mark
  obtain ⟨k, hk, heq⟩ := hl.take_eq d
  exact ⟨k, hk, hrun.trans heq⟩

end TypeScript
