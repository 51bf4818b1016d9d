import ZarrInline.Async.Promise

/-!
# What waits for what

What a promise waits for is fixed when it is made: its *origin* is the promise it waits for and
the handler in between.  `Wired` says that a loop keeps to the origins: a pending promise waits
in exactly one place, for its source to settle or in the queue.  Then an empty queue leaves no
promise pending (`Wired.isSome_outcome?`), and a job runs the handler of a pending promise whose
source is settled, if any handler (`Wired.step_cases`).
-/

namespace Async

variable {σ υ H : Type}

/-! ## Wiring -/

/-- Where the outcome of a promise comes from: the promise it waits for and the handler in
between; none if it was settled from the start. -/
abbrev Origin (H : Type) := Option (ℕ × Option H)

/-- The outcome `v` is what the handler makes of `w`, in some state. -/
def Passes (run : H → σ → υ → σ × υ) (h : Option H) (w v : υ) : Prop :=
  match h with
  | none => v = w
  | some h => ∃ s, v = (run h s w).2

/-- A loop keeps to the origins of its promises.  `held` are promises of the running job that
wait nowhere yet. -/
structure Wired (run : H → σ → υ → σ × υ) (os : List (Origin H)) (held : List ℕ)
    (ℓ : Loop σ υ H) : Prop where
  length_eq : os.length = ℓ.cells.length
  earlier : ∀ {t s : ℕ} {h}, os[t]? = some (some (s, h)) → s < t
  reaction : ∀ {s : ℕ} {rs}, ℓ.cells[s]? = some (.pending rs) →
    ∀ r ∈ rs, os[r.target]? = some (some (s, r.handler))
  react : ∀ {r v}, Job.react r v ∈ ℓ.jobs →
    ∃ s, os[r.target]? = some (some (s, r.handler)) ∧ ℓ.outcome? s = some v
  adopt : ∀ {s t : ℕ}, Job.adopt s t ∈ ℓ.jobs → os[t]? = some (some (s, none))
  count_eq : ∀ t < os.length,
    (held ++ ℓ.targets).count t = if (ℓ.outcome? t).isSome then 0 else 1
  outcome : ∀ {t : ℕ} {v}, ℓ.outcome? t = some v → ∀ {s h}, os[t]? = some (some (s, h)) →
    ∃ w, ℓ.outcome? s = some w ∧ Passes run h w v

namespace Wired

variable {run : H → σ → υ → σ × υ} {os : List (Origin H)} {held : List ℕ} {ℓ : Loop σ υ H}

theorem lt_length {t : ℕ} {o : Origin H} (h : os[t]? = some o) : t < os.length :=
  (List.getElem?_eq_some_iff.1 h).1

/-- What is held is pending. -/
theorem outcome?_held (hw : Wired run os held ℓ) {t : ℕ} (ht : t ∈ held) (hlt : t < os.length) :
    ℓ.outcome? t = none := by
  have hcount := hw.count_eq t hlt
  have hpos : 0 < (held ++ ℓ.targets).count t :=
    List.count_pos_iff.2 (List.mem_append_left _ ht)
  cases hout : ℓ.outcome? t with
  | none => rfl
  | some v =>
      rw [hout, Option.isSome_some, if_pos rfl] at hcount
      omega

/-- A promise waits in one place only. -/
theorem count_held_le (hw : Wired run os held ℓ) {t : ℕ} (hlt : t < os.length) :
    (held ++ ℓ.targets).count t ≤ 1 := by
  rw [hw.count_eq t hlt]
  split_ifs <;> omega

/-- A loop without promises. -/
theorem empty (run : H → σ → υ → σ × υ) (s : σ) : Wired run [] [] (⟨s, [], []⟩ : Loop σ υ H) where
  length_eq := rfl
  earlier := fun h => by simp at h
  reaction := fun h => by simp at h
  react := fun h => by simp at h
  adopt := fun h => by simp at h
  count_eq := fun _ h => absurd h (Nat.not_lt_zero _)
  outcome := fun h => by simp [Loop.outcome?] at h

/-- The state is not wired. -/
theorem set_state (hw : Wired run os held ℓ) (s : σ) : Wired run os held { ℓ with state := s } :=
  ⟨hw.length_eq, hw.earlier, hw.reaction, hw.react, hw.adopt, hw.count_eq, hw.outcome⟩

/-- What waits has a source. -/
theorem origin_of_mem_targets (hw : Wired run os held ℓ) {t : ℕ} (ht : t ∈ ℓ.targets) :
    ∃ s h, os[t]? = some (some (s, h)) := by
  rcases List.mem_append.1 ht with ht | ht
  · obtain ⟨j, hj, rfl⟩ := List.mem_map.1 ht
    cases j with
    | react r v =>
        obtain ⟨s, hs, -⟩ := hw.react hj
        exact ⟨s, _, hs⟩
    | adopt s t => exact ⟨s, none, hw.adopt hj⟩
  · obtain ⟨c, hc, ht⟩ := List.mem_flatMap.1 ht
    cases c with
    | settled v => cases ht
    | pending rs =>
        obtain ⟨r, hr, rfl⟩ := List.mem_map.1 ht
        obtain ⟨s, hs, hget⟩ := List.getElem_of_mem hc
        exact ⟨s, _, hw.reaction (List.getElem?_eq_some_iff.2 ⟨hs, hget⟩) r hr⟩

theorem lt_of_mem_targets (hw : Wired run os held ℓ) {t : ℕ} (ht : t ∈ ℓ.targets) : t < os.length := by
  obtain ⟨s, h, hs⟩ := hw.origin_of_mem_targets ht
  exact lt_length hs

/-- A promise without a source is settled. -/
theorem isSome_of_root (hw : Wired run os [] ℓ) {t : ℕ} (ht : os[t]? = some none) :
    (ℓ.outcome? t).isSome := by
  by_contra hpending
  have hcount := hw.count_eq t (lt_length ht)
  rw [if_neg hpending, List.nil_append] at hcount
  have hmem : t ∈ ℓ.targets := List.count_pos_iff.1 (by omega)
  obtain ⟨s, h, hs⟩ := hw.origin_of_mem_targets hmem
  rw [ht] at hs
  cases hs

/-- A new promise nothing waits for. -/
theorem alloc (hw : Wired run os [] ℓ) {c : Cell H υ} (hc : c.targets = []) {o : Origin H}
    (ho : ∀ s h, o = some (s, h) → s < os.length ∧ ∃ rs, c = .pending rs)
    (hcount : held.count os.length = if ((ℓ.alloc c).outcome? os.length).isSome then 0 else 1)
    (hheld : ∀ t ∈ held, t = os.length) : Wired run (os ++ [o]) held (ℓ.alloc c) where
  length_eq := by
    rw [List.length_append, hw.length_eq]
    show _ = (ℓ.cells ++ [c]).length
    rw [List.length_append]
    rfl
  earlier := by
    intro t s h ht
    rcases lt_or_ge t os.length with hlt | hge
    · exact hw.earlier ((List.getElem?_append_left hlt).symm.trans ht)
    · have hlt := lt_length ht
      rw [List.length_append, List.length_singleton] at hlt
      obtain rfl : t = os.length := by omega
      rw [List.getElem?_append_right le_rfl, Nat.sub_self, List.getElem?_cons_zero,
        Option.some_inj] at ht
      exact (ho s h ht).1
  reaction := by
    intro s rs hs r hr
    rcases lt_or_ge s ℓ.cells.length with hlt | hge
    · have hcell := (List.getElem?_append_left hlt).symm.trans hs
      have hold := hw.reaction hcell r hr
      rw [List.getElem?_append_left (lt_length hold), hold]
    · obtain ⟨hlt, -⟩ := List.getElem?_eq_some_iff.1 hs
      replace hlt : s < (ℓ.cells ++ [c]).length := hlt
      rw [List.length_append, List.length_singleton] at hlt
      obtain rfl : s = ℓ.cells.length := by omega
      replace hs : (ℓ.cells ++ [c])[ℓ.cells.length]? = _ := hs
      rw [List.getElem?_append_right le_rfl, Nat.sub_self, List.getElem?_cons_zero,
        Option.some_inj] at hs
      rw [hs, Cell.targets, List.map_eq_nil_iff] at hc
      rw [hc] at hr
      cases hr
  react := by
    intro r v hj
    obtain ⟨s, hs, hv⟩ := hw.react hj
    have hlt : s < ℓ.cells.length := by
      have h1 := hw.earlier hs
      have h2 := lt_length hs
      have h3 := hw.length_eq
      omega
    exact ⟨s, (List.getElem?_append_left (lt_length hs)).trans hs,
      (Loop.outcome?_alloc c s hlt).trans hv⟩
  adopt := by
    intro s t hj
    have hold := hw.adopt hj
    exact (List.getElem?_append_left (lt_length hold)).trans hold
  count_eq := by
    intro t ht
    rw [Loop.targets_alloc, hc, List.append_nil, List.count_append]
    rcases lt_or_ge t os.length with hlt | hge
    · have hold := hw.count_eq t hlt
      rw [List.nil_append] at hold
      have hnot : held.count t = 0 := List.count_eq_zero.2 fun hmem => by
        have := hheld t hmem
        omega
      rw [hnot, Nat.zero_add, hold, Loop.outcome?_alloc c t (hw.length_eq ▸ hlt)]
    · rw [List.length_append, List.length_singleton] at ht
      obtain rfl : t = os.length := by omega
      have hnot : ℓ.targets.count os.length = 0 := List.count_eq_zero.2 fun hmem =>
        absurd (hw.lt_of_mem_targets hmem) (lt_irrefl _)
      rw [hnot, Nat.add_zero, hcount]
  outcome := by
    intro t v hv s h ht
    rcases lt_or_ge t os.length with hlt | hge
    · rw [List.getElem?_append_left hlt] at ht
      rw [Loop.outcome?_alloc c t (hw.length_eq ▸ hlt)] at hv
      obtain ⟨w, hw', hpass⟩ := hw.outcome hv ht
      have hs : s < ℓ.cells.length := by
        have h1 := hw.earlier ht
        have h3 := hw.length_eq
        omega
      exact ⟨w, (Loop.outcome?_alloc c s hs).trans hw', hpass⟩
    · have hlt := lt_length ht
      rw [List.length_append, List.length_singleton] at hlt
      obtain rfl : t = os.length := by omega
      rw [List.getElem?_append_right le_rfl, Nat.sub_self, List.getElem?_cons_zero,
        Option.some_inj] at ht
      obtain ⟨-, rs, rfl⟩ := ho s h ht
      rw [hw.length_eq, Loop.outcome?_alloc_length_pending] at hv
      cases hv

/-- A new promise that is settled. -/
theorem alloc_settled (hw : Wired run os [] ℓ) (v : υ) :
    Wired run (os ++ [none]) [] (ℓ.alloc (.settled v)) := by
  refine hw.alloc rfl (fun s h heq => by cases heq) ?_ (fun t ht => by cases ht)
  rw [hw.length_eq, Loop.outcome?_alloc_length_settled]
  rfl

/-- A new promise that waits for another one. -/
theorem alloc_pending (hw : Wired run os [] ℓ) {s : ℕ} (hs : s < os.length) (h : Option H) :
    Wired run (os ++ [some (s, h)]) [ℓ.cells.length] (ℓ.alloc (.pending [])) := by
  refine hw.alloc rfl (fun s' h' heq => ?_) ?_ (fun t ht => ?_)
  · cases heq
    exact ⟨hs, [], rfl⟩
  · rw [hw.length_eq, Loop.outcome?_alloc_length_pending, List.count_singleton_self]
    rfl
  · rw [List.mem_singleton.1 ht, hw.length_eq]

/-- A promise starts to wait. -/
theorem subscribe {r : Reaction H} {s : ℕ} (hw : Wired run os (r.target :: held) ℓ)
    (hr : os[r.target]? = some (some (s, r.handler))) : Wired run os held (ℓ.subscribe s r) where
  length_eq := by rw [Loop.length_subscribe, hw.length_eq]
  earlier := hw.earlier
  reaction := by
    intro s' rs' hs' r' hr'
    rw [Loop.subscribe] at hs'
    split at hs'
    · next rs hc =>
        replace hs' : (ℓ.cells.set s (.pending (rs ++ [r])))[s']? = _ := hs'
        by_cases hss : s = s'
        · subst hss
          rw [List.getElem?_set_self', hc] at hs'
          cases hs'
          rcases List.mem_append.1 hr' with hmem | hmem
          · exact hw.reaction hc r' hmem
          · rw [List.mem_singleton.1 hmem]
            exact hr
        · rw [List.getElem?_set_ne hss] at hs'
          exact hw.reaction hs' r' hr'
    · exact hw.reaction hs' r' hr'
    · exact hw.reaction hs' r' hr'
  react := by
    intro r' v' hj
    simp only [Loop.outcome?_subscribe]
    rw [Loop.subscribe] at hj
    split at hj
    · exact hw.react hj
    · next v hc =>
        rcases List.mem_append.1 hj with hmem | hmem
        · exact hw.react hmem
        · cases List.mem_singleton.1 hmem
          exact ⟨s, hr, Loop.outcome?_eq_some_iff.2 hc⟩
    · exact hw.react hj
  adopt := by
    intro s' t' hj
    rw [Loop.subscribe] at hj
    split at hj
    · exact hw.adopt hj
    · rcases List.mem_append.1 hj with hmem | hmem
      · exact hw.adopt hmem
      · cases List.mem_singleton.1 hmem
    · exact hw.adopt hj
  count_eq := by
    intro t ht
    have hs : s < ℓ.cells.length := by
      have h1 := hw.earlier hr
      have h2 := lt_length hr
      have h3 := hw.length_eq
      omega
    have hperm : (held ++ (ℓ.subscribe s r).targets).Perm (r.target :: held ++ ℓ.targets) :=
      ((Loop.targets_subscribe hs r).append_left held).trans List.perm_middle
    rw [hperm.count_eq, hw.count_eq t ht, Loop.outcome?_subscribe]
  outcome := by
    intro t v hv s' h' ht
    rw [Loop.outcome?_subscribe] at hv ⊢
    exact hw.outcome hv ht

/-- A promise starts to wait in the queue. -/
theorem enqueue_adopt {s t : ℕ} (hw : Wired run os (t :: held) ℓ)
    (ht : os[t]? = some (some (s, none))) :
    Wired run os held { ℓ with jobs := ℓ.jobs ++ [.adopt s t] } where
  length_eq := hw.length_eq
  earlier := hw.earlier
  reaction := hw.reaction
  react := by
    intro r v hj
    rcases List.mem_append.1 hj with hmem | hmem
    · exact hw.react hmem
    · cases List.mem_singleton.1 hmem
  adopt := by
    intro s' t' hj
    rcases List.mem_append.1 hj with hmem | hmem
    · exact hw.adopt hmem
    · cases List.mem_singleton.1 hmem
      exact ht
  count_eq := by
    intro t' ht'
    have hperm : (held ++ ({ ℓ with jobs := ℓ.jobs ++ [.adopt s t] } : Loop σ υ H).targets).Perm
        (t :: held ++ ℓ.targets) := by
      have htargets : ({ ℓ with jobs := ℓ.jobs ++ [.adopt s t] } : Loop σ υ H).targets
          = ℓ.jobs.map Job.target ++ t :: ℓ.cells.flatMap Cell.targets := by
        rw [Loop.targets, List.map_append, List.append_assoc]
        rfl
      rw [htargets]
      exact (List.perm_middle.append_left held).trans List.perm_middle
    rw [hperm.count_eq]
    exact hw.count_eq t' ht'
  outcome := hw.outcome

/-- A promise settles. -/
theorem settle {t s : ℕ} {h : Option H} {v w : υ} (hw : Wired run os (t :: held) ℓ)
    (ht : os[t]? = some (some (s, h))) (hs : ℓ.outcome? s = some w) (hv : Passes run h w v) :
    Wired run os held (ℓ.settle t v) := by
  have hnone := hw.outcome?_held List.mem_cons_self (lt_length ht)
  obtain ⟨rs, hc⟩ := (Loop.outcome?_eq_none_iff (hw.length_eq ▸ lt_length ht)).1 hnone
  have hself := Loop.outcome?_settle_self hc v
  -- what has an outcome keeps it
  have hkeep : ∀ {t' v'}, ℓ.outcome? t' = some v' → (ℓ.settle t v).outcome? t' = some v' := by
    intro t' v' ht'
    have hne : t' ≠ t := by
      rintro rfl
      rw [hnone] at ht'
      cases ht'
    rw [Loop.outcome?_settle_of_ne hne, ht']
  exact {
    length_eq := by rw [Loop.length_settle, hw.length_eq]
    earlier := hw.earlier
    reaction := by
      intro s' rs' hs' r' hr'
      rw [Loop.settle, hc] at hs'
      replace hs' : (ℓ.cells.set t (.settled v))[s']? = _ := hs'
      by_cases hss : t = s'
      · subst hss
        rw [List.getElem?_set_self', hc] at hs'
        cases hs'
      · rw [List.getElem?_set_ne hss] at hs'
        exact hw.reaction hs' r' hr'
    react := by
      intro r' v' hj
      rw [Loop.settle, hc] at hj
      rcases List.mem_append.1 hj with hmem | hmem
      · obtain ⟨s', hs', hv'⟩ := hw.react hmem
        exact ⟨s', hs', hkeep hv'⟩
      · obtain ⟨r, hr, heq⟩ := List.mem_map.1 hmem
        cases heq
        exact ⟨t, hw.reaction hc _ hr, hself⟩
    adopt := by
      intro s' t' hj
      rw [Loop.settle, hc] at hj
      rcases List.mem_append.1 hj with hmem | hmem
      · exact hw.adopt hmem
      · obtain ⟨r, hr, heq⟩ := List.mem_map.1 hmem
        cases heq
    count_eq := by
      intro t' ht'
      rw [((Loop.targets_settle t v).append_left held).count_eq]
      have hcount := hw.count_eq t' ht'
      rw [List.cons_append, List.count_cons] at hcount
      by_cases htt : t' = t
      · subst htt
        rw [hnone, beq_self_eq_true, if_pos rfl] at hcount
        rw [hself]
        simpa using hcount
      · rw [beq_eq_false_iff_ne.2 (Ne.symm htt), if_neg Bool.false_ne_true, Nat.add_zero] at hcount
        rw [hcount, Loop.outcome?_settle_of_ne htt]
    outcome := by
      intro t' v' hv' s' h' ht'
      by_cases htt : t' = t
      · subst htt
        rw [hself] at hv'
        rw [ht] at ht'
        cases hv'
        cases ht'
        exact ⟨w, hkeep hs, hv⟩
      · rw [Loop.outcome?_settle_of_ne htt] at hv'
        obtain ⟨w', hw', hpass⟩ := hw.outcome hv' ht'
        exact ⟨w', hkeep hw', hpass⟩ }

/-- A job is taken from the queue. -/
theorem dequeue (hw : Wired run os held ℓ) {i : ℕ} {j : Job H υ} (hj : ℓ.jobs[i]? = some j) :
    Wired run os (j.target :: held) { ℓ with jobs := ℓ.jobs.eraseIdx i } where
  length_eq := hw.length_eq
  earlier := hw.earlier
  reaction := hw.reaction
  react := fun h => hw.react (List.mem_of_mem_eraseIdx h)
  adopt := fun h => hw.adopt (List.mem_of_mem_eraseIdx h)
  count_eq := by
    intro t ht
    obtain ⟨hi, rfl⟩ := List.getElem?_eq_some_iff.1 hj
    have hperm := (List.getElem_cons_eraseIdx_perm hi).map Job.target
    refine Eq.trans ?_ (hw.count_eq t ht)
    rw [List.cons_append, ← List.perm_middle.count_eq]
    refine List.Perm.count_eq (List.Perm.append_left held ?_) t
    show (ℓ.jobs[i].target :: ((ℓ.jobs.eraseIdx i).map Job.target ++ _)).Perm _
    exact hperm.append_right _
  outcome := hw.outcome

/-- A promise for what a handler makes of another one. -/
theorem andThen (hw : Wired run os [] ℓ) {s : ℕ} (hs : s < os.length) (h : H) :
    Wired run (os ++ [some (s, some h)]) [] (ℓ.andThen s h) := by
  refine Wired.subscribe (r := ⟨some h, ℓ.cells.length⟩) (hw.alloc_pending hs (some h)) ?_
  rw [← hw.length_eq, List.getElem?_append_right le_rfl, Nat.sub_self]
  rfl

/-- The promise of an `async` function. -/
theorem asyncReturn (hw : Wired run os [] ℓ) {s : ℕ} (hs : s < os.length) :
    Wired run (os ++ [some (s, none)]) [] (ℓ.asyncReturn s) := by
  refine (hw.alloc_pending hs none).enqueue_adopt ?_
  rw [← hw.length_eq, List.getElem?_append_right le_rfl, Nat.sub_self]
  rfl

/-- A job keeps to the origins. -/
theorem step (hw : Wired run os [] ℓ) (i : ℕ) : Wired run os [] (ℓ.step run i) := by
  rw [Loop.step]
  split
  · next j hj =>
      have hmem := List.mem_of_getElem? hj
      have htaken := hw.dequeue hj
      cases j with
      | adopt s t => exact Wired.subscribe (r := ⟨none, t⟩) htaken (hw.adopt hmem)
      | react r v =>
          obtain ⟨s, hs, hv⟩ := hw.react hmem
          obtain ⟨h, t⟩ := r
          cases h with
          | none => exact htaken.settle hs hv rfl
          | some h => exact (htaken.set_state _).settle hs hv ⟨ℓ.state, rfl⟩
  · exact hw

/-- An empty queue leaves no promise pending. -/
theorem isSome_outcome? (hw : Wired run os [] ℓ) (hjobs : ℓ.jobs = []) {t : ℕ} (ht : t < os.length) :
    (ℓ.outcome? t).isSome := by
  induction t using Nat.strong_induction_on with
  | _ t ih =>
      by_contra hpending
      have hcount := hw.count_eq t ht
      rw [if_neg hpending, Loop.targets, hjobs] at hcount
      have hmem : t ∈ ℓ.cells.flatMap Cell.targets := List.count_pos_iff.1 (by
        rw [List.map_nil, List.nil_append, List.nil_append] at hcount
        omega)
      obtain ⟨c, hc, hct⟩ := List.mem_flatMap.1 hmem
      obtain ⟨s, hs, hget⟩ := List.getElem_of_mem hc
      have hcell : ℓ.cells[s]? = some c := List.getElem?_eq_some_iff.2 ⟨hs, hget⟩
      cases c with
      | settled v => cases hct
      | pending rs =>
          obtain ⟨r, hr, rfl⟩ := List.mem_map.1 hct
          -- the source is earlier, so it is settled
          have hsource := ih s (hw.earlier (hw.reaction hcell r hr)) (hw.length_eq ▸ hs)
          rw [(Loop.outcome?_eq_none_iff hs).2 ⟨rs, hcell⟩] at hsource
          cases hsource

/-- What a job does: it runs the handler of a pending promise whose source is settled, or it
touches neither the state nor a promise with a handler. -/
theorem step_cases (hw : Wired run os [] ℓ) (i : ℕ) :
    ((ℓ.step run i).state = ℓ.state ∧
        ∀ t s h, os[t]? = some (some (s, some h)) → (ℓ.step run i).outcome? t = ℓ.outcome? t) ∨
      ∃ t s h v, os[t]? = some (some (s, some h)) ∧ ℓ.outcome? s = some v ∧ ℓ.outcome? t = none ∧
        (ℓ.step run i).state = (run h ℓ.state v).1 ∧
        (ℓ.step run i).outcome? t = some (run h ℓ.state v).2 ∧
        ∀ t', t' ≠ t → (ℓ.step run i).outcome? t' = ℓ.outcome? t' := by
  rw [Loop.step]
  split
  · next j hj =>
      have hmem := List.mem_of_getElem? hj
      have htaken := hw.dequeue hj
      cases j with
      | adopt s t =>
          exact Or.inl ⟨Loop.state_subscribe s ⟨none, t⟩, fun t' _ _ _ =>
            Loop.outcome?_subscribe s ⟨none, t⟩ t'⟩
      | react r v =>
          obtain ⟨s, hs, hv⟩ := hw.react hmem
          obtain ⟨h, t⟩ := r
          have hnone : ℓ.outcome? t = none := htaken.outcome?_held List.mem_cons_self (lt_length hs)
          obtain ⟨rs, hc⟩ := (Loop.outcome?_eq_none_iff (hw.length_eq ▸ lt_length hs)).1 hnone
          have hstate : ∀ (ℓ : Loop σ υ H) (w : υ), (ℓ.settle t w).state = ℓ.state := by
            intro ℓ w
            rw [Loop.settle]
            split <;> rfl
          cases h with
          | none =>
              refine Or.inl ⟨hstate _ v, fun t' s' h' ht' => ?_⟩
              have hne : t' ≠ t := by
                rintro rfl
                rw [hs] at ht'
                cases ht'
              exact Loop.outcome?_settle_of_ne hne v
          | some h =>
              exact Or.inr ⟨t, s, h, v, hs, hv, hnone, hstate _ _,
                Loop.outcome?_settle_self (ℓ := { ℓ with
                  jobs := ℓ.jobs.eraseIdx i, state := (run h ℓ.state v).1 }) hc _,
                fun t' hne => Loop.outcome?_settle_of_ne hne _⟩
  · exact Or.inl ⟨rfl, fun _ _ _ _ => rfl⟩

end Wired

/-! ## What comes before what -/

/-- The promise `a` is `t`, or `t` waits for it in the end. -/
inductive Upstream (os : List (Origin H)) (a : ℕ) : ℕ → Prop
  | refl : Upstream os a a
  | step {s t : ℕ} {h : Option H} (ht : os[t]? = some (some (s, h))) (hs : Upstream os a s) :
      Upstream os a t

theorem Upstream.append {os : List (Origin H)} {a t : ℕ} (h : Upstream os a t)
    (ps : List (Origin H)) : Upstream (os ++ ps) a t := by
  induction h with
  | refl => exact .refl
  | step ht _ ih => exact .step ((List.getElem?_append_left (Wired.lt_length ht)).trans ht) ih

/-- What a settled promise waited for is settled. -/
theorem Wired.isSome_of_upstream {run : H → σ → υ → σ × υ} {os : List (Origin H)} {held : List ℕ}
    {ℓ : Loop σ υ H} (hw : Wired run os held ℓ) {a t : ℕ} (h : Upstream os a t)
    (ht : (ℓ.outcome? t).isSome) : (ℓ.outcome? a).isSome := by
  induction h with
  | refl => exact ht
  | step hs _ ih =>
      obtain ⟨v, hv⟩ := Option.isSome_iff_exists.1 ht
      obtain ⟨w, hw', -⟩ := hw.outcome hv hs
      exact ih (by rw [hw']; rfl)

end Async
