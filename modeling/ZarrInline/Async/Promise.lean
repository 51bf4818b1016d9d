import Mathlib

/-!
# Promises and jobs

A promise is pending, with the reactions that wait for it, or settled with an outcome.
When it settles its reactions become jobs.  A job runs a handler on the outcome and on the
state of the program, and settles the promise the handler was registered for.  Any job of
the queue may run next, so what is shown here holds for every order of the jobs, the order
of the queue among them.

Every job makes less `work` than it was, so a queue that nothing is added to from outside runs
empty (`exists_jobs_eq_nil`).
-/

namespace Async

variable {σ υ H : Type}

/-! ## The loop -/

/-- What waits for a promise: a handler, or none to pass the outcome on, and the promise it
settles. -/
structure Reaction (H : Type) where
  handler : Option H
  target : ℕ

/-- A promise. -/
inductive Cell (H υ : Type) where
  | pending (reactions : List (Reaction H))
  | settled (outcome : υ)

/-- A job: a reaction to an outcome, or a promise about to wait for another one that it was
resolved with. -/
inductive Job (H υ : Type) where
  | react (r : Reaction H) (argument : υ)
  | adopt (source target : ℕ)

/-- The state of the program, the promises by their number, and the queue. -/
structure Loop (σ υ H : Type) where
  state : σ
  cells : List (Cell H υ)
  jobs : List (Job H υ)

namespace Loop

/-- The outcome of a settled promise. -/
def outcome? (ℓ : Loop σ υ H) (t : ℕ) : Option υ :=
  match ℓ.cells[t]? with
  | some (.settled v) => some v
  | _ => none

/-- A new promise. -/
def alloc (ℓ : Loop σ υ H) (c : Cell H υ) : Loop σ υ H := { ℓ with cells := ℓ.cells ++ [c] }

/-- Wait for a promise; if it is settled the reaction is a job at once. -/
def subscribe (ℓ : Loop σ υ H) (source : ℕ) (r : Reaction H) : Loop σ υ H :=
  match ℓ.cells[source]? with
  | some (.pending rs) => { ℓ with cells := ℓ.cells.set source (.pending (rs ++ [r])) }
  | some (.settled v) => { ℓ with jobs := ℓ.jobs ++ [.react r v] }
  | none => ℓ

/-- A promise for what the handler makes of another promise: `then`, `catch`, and what
follows an `await`. -/
def andThen (ℓ : Loop σ υ H) (source : ℕ) (h : H) : Loop σ υ H :=
  (ℓ.alloc (.pending [])).subscribe source ⟨some h, ℓ.cells.length⟩

/-- The promise of an `async` function that returns a promise: a job makes it wait for the
promise returned. -/
def asyncReturn (ℓ : Loop σ υ H) (source : ℕ) : Loop σ υ H :=
  { ℓ.alloc (.pending []) with jobs := ℓ.jobs ++ [.adopt source ℓ.cells.length] }

/-- Settle a promise; a settled promise stays as it is. -/
def settle (ℓ : Loop σ υ H) (t : ℕ) (v : υ) : Loop σ υ H :=
  match ℓ.cells[t]? with
  | some (.pending rs) =>
      { ℓ with cells := ℓ.cells.set t (.settled v), jobs := ℓ.jobs ++ rs.map (.react · v) }
  | _ => ℓ

/-- Run a job. -/
def runJob (run : H → σ → υ → σ × υ) (ℓ : Loop σ υ H) : Job H υ → Loop σ υ H
  | .react ⟨none, t⟩ v => ℓ.settle t v
  | .react ⟨some h, t⟩ v => { ℓ with state := (run h ℓ.state v).1 }.settle t (run h ℓ.state v).2
  | .adopt s t => ℓ.subscribe s ⟨none, t⟩

/-- Take a job from the queue and run it. -/
def step (run : H → σ → υ → σ × υ) (ℓ : Loop σ υ H) (i : ℕ) : Loop σ υ H :=
  match ℓ.jobs[i]? with
  | some j => { ℓ with jobs := ℓ.jobs.eraseIdx i }.runJob run j
  | none => ℓ

end Loop

/-! ## What waits where -/

/-- The promise a job settles, or makes wait. -/
def Job.target : Job H υ → ℕ
  | .react r _ => r.target
  | .adopt _ t => t

/-- The promises that wait for a promise. -/
def Cell.targets : Cell H υ → List ℕ
  | .pending rs => rs.map Reaction.target
  | .settled _ => []

namespace Loop

variable {ℓ : Loop σ υ H}

/-- All that wait, in the queue or for a promise. -/
def targets (ℓ : Loop σ υ H) : List ℕ := ℓ.jobs.map Job.target ++ ℓ.cells.flatMap Cell.targets

theorem outcome?_eq_some_iff {t : ℕ} {v : υ} :
    ℓ.outcome? t = some v ↔ ℓ.cells[t]? = some (.settled v) := by
  rw [outcome?]
  split
  · next w h => rw [h, Option.some_inj, Option.some_inj, Cell.settled.injEq]
  · next h => exact ⟨fun h' => (by cases h'), fun h' => absurd h' (h v)⟩

theorem outcome?_eq_none_iff {t : ℕ} (ht : t < ℓ.cells.length) :
    ℓ.outcome? t = none ↔ ∃ rs, ℓ.cells[t]? = some (.pending rs) := by
  obtain ⟨c, hc⟩ : ∃ c, ℓ.cells[t]? = some c := ⟨_, List.getElem?_eq_getElem ht⟩
  rw [outcome?, hc]
  cases c with
  | pending rs => exact iff_of_true rfl ⟨rs, rfl⟩
  | settled v => exact iff_of_false (by simp) (by simp)

/-- Setting an entry changes what the entry contributes. -/
theorem flatMap_set_perm {α β : Type} (f : α → List β) {xs : List α} {i : ℕ} {x y : α}
    (h : xs[i]? = some x) : ((xs.set i y).flatMap f ++ f x).Perm (xs.flatMap f ++ f y) := by
  induction xs generalizing i with
  | nil => cases h
  | cons z xs ih =>
      cases i with
      | zero =>
          cases h
          simp only [List.set_cons_zero, List.flatMap_cons]
          rw [List.append_assoc, List.append_assoc]
          exact List.perm_append_comm.trans ((List.perm_append_comm.append_right _).trans
            (by rw [List.append_assoc]))
      | succ i =>
          simp only [List.set_cons_succ, List.flatMap_cons, List.append_assoc]
          exact (ih h).append_left _

theorem targets_subscribe {s : ℕ} (hs : s < ℓ.cells.length) (r : Reaction H) :
    (ℓ.subscribe s r).targets.Perm (r.target :: ℓ.targets) := by
  obtain ⟨c, hc⟩ : ∃ c, ℓ.cells[s]? = some c := ⟨_, List.getElem?_eq_getElem hs⟩
  rw [subscribe, hc]
  cases c with
  | pending rs =>
      have hset := flatMap_set_perm (y := Cell.pending (rs ++ [r])) Cell.targets hc
      have hsnoc : (Cell.pending (υ := υ) (rs ++ [r])).targets
          = (Cell.pending (υ := υ) rs).targets ++ [r.target] := by
        rw [Cell.targets, Cell.targets, List.map_append]
        rfl
      rw [hsnoc, ← List.append_assoc] at hset
      have hcells : ((ℓ.cells.set s (.pending (rs ++ [r]))).flatMap Cell.targets).Perm
          (r.target :: ℓ.cells.flatMap Cell.targets) := by
        refine (List.perm_append_right_iff (Cell.pending (υ := υ) rs).targets).1 (hset.trans ?_)
        rw [List.append_assoc, List.cons_append]
        exact List.perm_append_comm.append_left _ |>.trans List.perm_middle
      exact (hcells.append_left _).trans List.perm_middle
  | settled v =>
      show ((ℓ.jobs ++ [Job.react r v]).map Job.target ++ _).Perm _
      rw [List.map_append, List.append_assoc]
      exact List.perm_middle

theorem targets_settle (t : ℕ) (v : υ) : (ℓ.settle t v).targets.Perm ℓ.targets := by
  rw [settle]
  split
  · next rs hc =>
      have hset := flatMap_set_perm (y := Cell.settled v) Cell.targets hc
      rw [Cell.targets, Cell.targets, List.append_nil] at hset
      have hjobs : (rs.map (Job.react · v)).map Job.target = rs.map Reaction.target := by
        rw [List.map_map]
        rfl
      show ((ℓ.jobs ++ rs.map (Job.react · v)).map Job.target ++ _).Perm _
      rw [List.map_append, hjobs, List.append_assoc]
      exact (List.perm_append_comm.trans hset).append_left _
  · exact List.Perm.refl _

theorem targets_alloc (c : Cell H υ) : (ℓ.alloc c).targets = ℓ.targets ++ c.targets := by
  rw [targets, alloc, List.flatMap_append, List.flatMap_singleton, ← List.append_assoc]
  rfl

/-! ### Outcomes -/

theorem outcome?_alloc (c : Cell H υ) (t : ℕ) (ht : t < ℓ.cells.length) :
    (ℓ.alloc c).outcome? t = ℓ.outcome? t := by
  rw [outcome?, outcome?, alloc, List.getElem?_append_left ht]

theorem outcome?_alloc_length_pending (rs : List (Reaction H)) :
    (ℓ.alloc (.pending rs)).outcome? ℓ.cells.length = none := by
  rw [outcome?, alloc]
  simp

theorem outcome?_alloc_length_settled (v : υ) :
    (ℓ.alloc (.settled v)).outcome? ℓ.cells.length = some v := by
  rw [outcome?, alloc]
  simp

theorem outcome?_eq_none_of_le {t : ℕ} (ht : ℓ.cells.length ≤ t) : ℓ.outcome? t = none := by
  rw [outcome?, List.getElem?_eq_none ht]

/-- Waiting settles nothing. -/
theorem outcome?_subscribe (s : ℕ) (r : Reaction H) (t : ℕ) :
    (ℓ.subscribe s r).outcome? t = ℓ.outcome? t := by
  rw [subscribe]
  split
  · next rs hc =>
      rw [outcome?, outcome?]
      show (match (ℓ.cells.set s (.pending (rs ++ [r])))[t]? with | some (.settled v) => some v | _ => none)
        = _
      by_cases hst : s = t
      · subst hst
        rw [List.getElem?_set_self', hc]
        rfl
      · rw [List.getElem?_set_ne hst]
  · rfl
  · rfl

/-- A new pending promise has no outcome, as before. -/
theorem outcome?_alloc_pending (rs : List (Reaction H)) (t : ℕ) :
    (ℓ.alloc (.pending rs)).outcome? t = ℓ.outcome? t := by
  rcases lt_trichotomy t ℓ.cells.length with hlt | rfl | hgt
  · exact outcome?_alloc _ t hlt
  · rw [outcome?_alloc_length_pending, outcome?_eq_none_of_le le_rfl]
  · rw [outcome?_eq_none_of_le hgt.le, outcome?_eq_none_of_le]
    show (ℓ.cells ++ [Cell.pending rs]).length ≤ t
    rw [List.length_append]
    exact hgt

@[simp] theorem outcome?_andThen (s : ℕ) (h : H) (t : ℕ) :
    (ℓ.andThen s h).outcome? t = ℓ.outcome? t := by
  rw [andThen, outcome?_subscribe, outcome?_alloc_pending]

@[simp] theorem outcome?_asyncReturn (s t : ℕ) : (ℓ.asyncReturn s).outcome? t = ℓ.outcome? t :=
  outcome?_alloc_pending [] t

@[simp] theorem state_subscribe (s : ℕ) (r : Reaction H) : (ℓ.subscribe s r).state = ℓ.state := by
  rw [subscribe]
  split <;> rfl

@[simp] theorem state_andThen (s : ℕ) (h : H) : (ℓ.andThen s h).state = ℓ.state :=
  state_subscribe _ _

theorem length_subscribe (s : ℕ) (r : Reaction H) : (ℓ.subscribe s r).cells.length = ℓ.cells.length := by
  rw [subscribe]
  split
  · exact List.length_set
  · rfl
  · rfl

/-- A pending promise is settled. -/
theorem outcome?_settle_self {t : ℕ} {rs : List (Reaction H)} (hc : ℓ.cells[t]? = some (.pending rs))
    (v : υ) : (ℓ.settle t v).outcome? t = some v := by
  rw [outcome?_eq_some_iff, settle, hc]
  show (ℓ.cells.set t (.settled v))[t]? = _
  rw [List.getElem?_set_self', hc]
  rfl

theorem outcome?_settle_of_ne {t t' : ℕ} (h : t' ≠ t) (v : υ) :
    (ℓ.settle t v).outcome? t' = ℓ.outcome? t' := by
  rw [settle]
  split
  · rw [outcome?, outcome?]
    show (match (ℓ.cells.set t (.settled v))[t']? with | some (.settled v) => some v | _ => none) = _
    rw [List.getElem?_set_ne (Ne.symm h)]
  · rfl

@[simp] theorem length_andThen (s : ℕ) (h : H) :
    (ℓ.andThen s h).cells.length = ℓ.cells.length + 1 := by
  rw [andThen, length_subscribe]
  exact List.length_append

theorem length_settle (t : ℕ) (v : υ) : (ℓ.settle t v).cells.length = ℓ.cells.length := by
  rw [settle]
  split
  · exact List.length_set
  · rfl

end Loop

/-! ## Draining the queue -/

/-- Whether a job only makes a promise wait. -/
def Job.isAdopt : Job H υ → Bool
  | .react _ _ => false
  | .adopt _ _ => true

namespace Loop

variable {run : H → σ → υ → σ × υ} {ℓ : Loop σ υ H}

/-- How many jobs there will be at most. -/
def work (ℓ : Loop σ υ H) : ℕ := ℓ.targets.length + ℓ.jobs.countP Job.isAdopt

theorem work_settle_le (t : ℕ) (v : υ) : (ℓ.settle t v).work ≤ ℓ.work := by
  rw [work, work, (targets_settle t v).length_eq]
  refine Nat.add_le_add_left ?_ _
  rw [settle]
  split
  · next rs hc =>
      have hreacts : (rs.map (Job.react · v)).countP Job.isAdopt = 0 := by
        rw [List.countP_eq_zero]
        simp [Job.isAdopt]
      show (ℓ.jobs ++ rs.map (Job.react · v)).countP Job.isAdopt ≤ _
      rw [List.countP_append, hreacts, Nat.add_zero]
  · exact le_rfl

theorem work_subscribe_le (s : ℕ) (r : Reaction H) : (ℓ.subscribe s r).work ≤ ℓ.work + 1 := by
  have hadopts : (ℓ.subscribe s r).jobs.countP Job.isAdopt = ℓ.jobs.countP Job.isAdopt := by
    rw [subscribe]
    split
    · rfl
    · exact List.countP_append.trans (Nat.add_zero _)
    · rfl
  rw [work, work, hadopts]
  by_cases hs : s < ℓ.cells.length
  · rw [(targets_subscribe hs r).length_eq, List.length_cons]
    omega
  · have hnone : ℓ.cells[s]? = none := List.getElem?_eq_none (not_lt.1 hs)
    rw [subscribe, hnone]
    exact Nat.le_succ _

/-- A job makes less work than it was. -/
theorem work_step_lt {i : ℕ} (hi : i < ℓ.jobs.length) : (ℓ.step run i).work < ℓ.work := by
  have hperm := List.getElem_cons_eraseIdx_perm hi
  have hwork : ({ ℓ with jobs := ℓ.jobs.eraseIdx i } : Loop σ υ H).work + 1 +
      (if ℓ.jobs[i].isAdopt then 1 else 0) = ℓ.work := by
    have htargets := (hperm.map Job.target).length_eq
    have hadopts := hperm.countP_eq Job.isAdopt
    rw [List.countP_cons] at hadopts
    rw [List.length_map, List.length_map, List.length_cons] at htargets
    rw [work, work, targets, targets, List.length_append, List.length_append, List.length_map,
      List.length_map, ← hadopts, ← htargets]
    show (ℓ.jobs.eraseIdx i).length + (ℓ.cells.flatMap Cell.targets).length +
      (ℓ.jobs.eraseIdx i).countP Job.isAdopt + 1 + _ = _
    omega
  rw [step, List.getElem?_eq_getElem hi]
  show (runJob run { ℓ with jobs := ℓ.jobs.eraseIdx i } ℓ.jobs[i]).work < ℓ.work
  cases hj : ℓ.jobs[i] with
  | adopt s t =>
      rw [hj] at hwork
      have hle := work_subscribe_le (ℓ := { ℓ with jobs := ℓ.jobs.eraseIdx i }) s
        (⟨none, t⟩ : Reaction H)
      show (Loop.subscribe _ s ⟨none, t⟩).work < ℓ.work
      rw [show (Job.adopt (H := H) (υ := υ) s t).isAdopt = true from rfl, if_pos rfl] at hwork
      omega
  | react r v =>
      rw [hj] at hwork
      have hle : (runJob run { ℓ with jobs := ℓ.jobs.eraseIdx i } (.react r v)).work
          ≤ ({ ℓ with jobs := ℓ.jobs.eraseIdx i } : Loop σ υ H).work := by
        obtain ⟨h, t⟩ := r
        cases h with
        | none => exact work_settle_le t v
        | some h => exact work_settle_le t _
      omega

/-- Running the queue in its order empties it. -/
theorem exists_jobs_eq_nil (run : H → σ → υ → σ × υ) (ℓ : Loop σ υ H) :
    ∃ n ≤ ℓ.work, (((fun ℓ => ℓ.step run 0)^[n]) ℓ).jobs = [] := by
  induction hw : ℓ.work using Nat.strong_induction_on generalizing ℓ with
  | _ w ih =>
      cases hjobs : ℓ.jobs with
      | nil => exact ⟨0, Nat.zero_le _, hjobs⟩
      | cons j js =>
          have hlt : (ℓ.step run 0).work < ℓ.work :=
            work_step_lt (by rw [hjobs]; exact Nat.zero_lt_succ _)
          obtain ⟨n, hn, hnil⟩ := ih _ (hw ▸ hlt) (ℓ.step run 0) rfl
          exact ⟨n + 1, by omega, hnil⟩

/-- A settled promise stays settled. -/
theorem outcome?_settle_of_some {t t' : ℕ} {v w : υ} (h : ℓ.outcome? t' = some w) :
    (ℓ.settle t v).outcome? t' = some w := by
  by_cases htt : t' = t
  · subst htt
    rw [outcome?_eq_some_iff] at h ⊢
    rw [settle, h]
    exact h
  · rw [outcome?_settle_of_ne htt, h]

theorem outcome?_step_of_some {t : ℕ} {w : υ} (h : ℓ.outcome? t = some w) (i : ℕ) :
    (ℓ.step run i).outcome? t = some w := by
  rw [step]
  split
  · next j hj =>
      cases j with
      | adopt s t' => exact (outcome?_subscribe s _ t).trans h
      | react r v =>
          obtain ⟨hd, t'⟩ := r
          cases hd with
          | none => exact outcome?_settle_of_some h
          | some hd => exact outcome?_settle_of_some h
  · exact h

end Loop

end Async
