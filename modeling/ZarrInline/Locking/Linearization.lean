import ZarrInline.Locking.Program

/-!
# Programs under two locks are linearizable

Whatever the scheduler does, the operations take effect as if each ran alone at the moment of
its effect (`linearizes`).  `Invariant` says why.  While an operation is inside its section, what
is left of it computes, from the resources as they are, what the whole of it computes from the
resources as the last effect left them; and these are the same unless it writes.

No operation waits for ever: one that holds the outer lock can always go on, and when none does
the locks are free (`never_stuck`).
-/

namespace Locking

variable {α β ο ρ : Type}

/-! ## Orderly histories -/

/-- An operation takes effect once, after its call and before its return. -/
inductive Orderly : List (Label ο ρ) → Prop
  | nil : Orderly []
  | called {h : List (Label ο ρ)} {id : ℕ} {op : ο} (hrest : Orderly h)
      (hnew : ∀ op', .called id op' ∉ h) : Orderly (h ++ [.called id op])
  | effect {h : List (Label ο ρ)} {id : ℕ} {op : ο} {reply : ρ} (hrest : Orderly h)
      (hcalled : .called id op ∈ h) (hnew : id ∉ (effects h).map Entry.id) :
      Orderly (h ++ [.effect id op reply])
  | returned {h : List (Label ο ρ)} {id : ℕ} {op : ο} {reply : ρ} (hrest : Orderly h)
      (heffect : ⟨id, op, reply⟩ ∈ effects h) : Orderly (h ++ [.returned id reply])

namespace Orderly

variable {h h₁ h₂ : List (Label ο ρ)}

theorem init {label : Label ο ρ} (hord : Orderly (h ++ [label])) : Orderly h := by
  generalize heq : h ++ [label] = l at hord
  cases hord with
  | nil => exact absurd heq (by simp)
  | called hrest | effect hrest | returned hrest =>
      obtain ⟨rfl, -⟩ := List.append_inj' heq rfl
      exact hrest

theorem front (hord : Orderly (h₁ ++ h₂)) : Orderly h₁ := by
  induction h₂ using List.reverseRecOn with
  | nil => rwa [List.append_nil] at hord
  | append_singleton h₂ label ih =>
      rw [← List.append_assoc] at hord
      exact ih hord.init

/-- No operation is called twice. -/
theorem called_once {id : ℕ} {op op' : ο} (hord : Orderly (h₁ ++ h₂)) (h : .called id op ∈ h₁) :
    .called id op' ∉ h₂ := by
  induction h₂ using List.reverseRecOn with
  | nil => exact List.not_mem_nil
  | append_singleton h₂ label ih =>
      rw [← List.append_assoc] at hord
      intro hmem
      rcases List.mem_append.1 hmem with hmem | hmem
      · exact ih hord.init hmem
      · obtain rfl := List.mem_singleton.1 hmem
        generalize heq : (h₁ ++ h₂) ++ [.called id op'] = l at hord
        cases hord with
        | nil => exact absurd heq (by simp)
        | called hrest hnew =>
            obtain ⟨rfl, hlabel⟩ := List.append_inj' heq rfl
            cases hlabel
            exact hnew op (List.mem_append_left _ h)
        | effect | returned =>
            obtain ⟨-, hlabel⟩ := List.append_inj' heq rfl
            cases hlabel

theorem nodup (hord : Orderly h) : ((effects h).map Entry.id).Nodup := by
  induction hord with
  | nil => exact List.nodup_nil
  | called hrest hnew ih => simpa [effects] using ih
  | effect hrest hcalled hnew ih =>
      rw [effects_append, List.map_append, List.nodup_append]
      refine ⟨ih, List.nodup_singleton _, ?_⟩
      rintro i hi j hj rfl
      cases List.mem_singleton.1 hj
      exact hnew hi
  | returned hrest heffect ih => simpa [effects] using ih

theorem called_of_effect (hord : Orderly h) : ∀ e ∈ effects h, .called e.id e.op ∈ h := by
  induction hord with
  | nil => exact List.forall_mem_nil _
  | called hrest hnew ih | returned hrest heffect ih =>
      intro e he
      rw [effects_append] at he
      exact List.mem_append_left _ (ih e (by simpa [effects] using he))
  | effect hrest hcalled hnew ih =>
      intro e he
      rw [effects_append] at he
      rcases List.mem_append.1 he with he | he
      · exact List.mem_append_left _ (ih e he)
      · rw [List.mem_singleton.1 he]
        exact List.mem_append_left _ hcalled

theorem effect_of_returned {id : ℕ} {reply : ρ} (hord : Orderly h) (hmem : .returned id reply ∈ h) :
    ∃ op, ⟨id, op, reply⟩ ∈ effects h := by
  induction hord with
  | nil => cases hmem
  | called hrest hnew ih | effect hrest hcalled hnew ih =>
      rcases List.mem_append.1 hmem with hmem | hmem
      · obtain ⟨op, hop⟩ := ih hmem
        exact ⟨op, by rw [effects_append]; exact List.mem_append_left _ hop⟩
      · cases List.mem_singleton.1 hmem
  | returned hrest heffect ih =>
      rcases List.mem_append.1 hmem with hmem | hmem
      · obtain ⟨op, hop⟩ := ih hmem
        exact ⟨op, by rw [effects_append]; exact List.mem_append_left _ hop⟩
      · cases List.mem_singleton.1 hmem
        exact ⟨_, by rw [effects_append]; exact List.mem_append_left _ heffect⟩

/-- An operation that returned before another was called took effect before it. -/
theorem sublist_of_before {i j : ℕ} {reply : ρ} {op : ο} (hord : Orderly (h₁ ++ h₂))
    (hreturned : .returned i reply ∈ h₁) (hcalled : .called j op ∈ h₂)
    (hj : j ∈ (effects (h₁ ++ h₂)).map Entry.id) :
    [i, j].Sublist ((effects (h₁ ++ h₂)).map Entry.id) := by
  rw [effects_append, List.map_append] at hj ⊢
  obtain ⟨op', hi⟩ := hord.front.effect_of_returned hreturned
  have hi' : i ∈ (effects h₁).map Entry.id := List.mem_map.2 ⟨_, hi, rfl⟩
  have hj' : j ∈ (effects h₂).map Entry.id := by
    rcases List.mem_append.1 hj with hj | hj
    · obtain ⟨e, he, rfl⟩ := List.mem_map.1 hj
      exact absurd hcalled (hord.called_once (hord.front.called_of_effect e he))
    · exact hj
  exact (List.singleton_sublist.2 hi').append (List.singleton_sublist.2 hj')

/-- The operations of an orderly history, in the order in which they took effect. -/
theorem linearizes {σ : Type} {m : Transition.Machine σ ο ρ} {s : σ} (hord : Orderly h)
    (hlegal : m.replies s ((effects h).map Entry.op) = (effects h).map Entry.reply) :
    Linearizes m s h (effects h) where
  nodup := hord.nodup
  called := hord.called_of_effect
  returned _ _ := hord.effect_of_returned
  legal := hlegal
  realTime h₁ h₂ heq i j reply op hreturned hcalled hj := by
    subst heq
    exact hord.sublist_of_before hreturned hcalled hj

end Orderly

/-! ## What holds of every run -/

section Runs

variable {program : ο → Program α β ρ} {start : α × β} {s : System α β ο ρ}
  {h labels : List (Label ο ρ)} {id : ℕ} {t t' : Task α β ο ρ} {shared : α × β}

/-- What is left of an operation, over the resources as they are and as the last effect left
them. -/
def Task.Agrees (program : ο → Program α β ρ) (shared settled : α × β) (entries : List (Entry ο ρ))
    (id : ℕ) (t : Task α β ο ρ) : Prop :=
  match t.phase with
  | .outside => t.program = program t.op ∧ id ∉ entries.map Entry.id
  | .inside a i => t.program.alone shared = (program t.op).alone settled ∧
      id ∉ entries.map Entry.id ∧ (i = some .write → a = .write)
  | _ => ∃ reply, t.program = .done reply ∧ ⟨id, t.op, reply⟩ ∈ entries

/-- What holds of a system and the history that led to it. -/
structure Invariant (program : ο → Program α β ρ) (start : α × β) (s : System α β ο ρ)
    (h : List (Label ο ρ)) : Prop where
  orderly : Orderly h
  legal : (aloneMachine program).replies start ((effects h).map Entry.op) = (effects h).map Entry.reply
  called : ∀ id t, s.tasks[id]? = some t → .called id t.op ∈ h
  called_lt : ∀ id op, .called id op ∈ h → id < s.tasks.length
  follows : ∀ t ∈ s.tasks, t.program.Follows t.phase
  agrees : ∀ (id : ℕ) (t : Task α β ο ρ), s.tasks[id]? = some t →
    t.Agrees program s.shared (sequential program start h) (effects h) id
  exclusive : ∀ (i j : ℕ) (t u : Task α β ο ρ), i ≠ j → s.tasks[i]? = some t → s.tasks[j]? = some u →
    t.holdsOuter = some .write → u.holdsOuter = none
  quiet : (∀ t ∈ s.tasks, t.holdsOuter ≠ some .write) → s.shared = sequential program start h

/-- A task without the outer lock is not concerned by the resources, nor by the effects of
others. -/
theorem Task.Agrees.keep {shared shared' settled settled' : α × β} {entries entries' : List (Entry ο ρ)}
    (h : t.Agrees program shared settled entries id)
    (hshared : t.holdsOuter ≠ none → shared' = shared ∧ settled' = settled)
    (hids : ∀ e ∈ entries', e.id ≠ id) :
    t.Agrees program shared' settled' (entries ++ entries') id := by
  have hnew : id ∉ entries.map Entry.id → id ∉ (entries ++ entries').map Entry.id := by
    intro hid hmem
    rw [List.map_append, List.mem_append] at hmem
    rcases hmem with hmem | hmem
    · exact hid hmem
    · obtain ⟨e, he, heq⟩ := List.mem_map.1 hmem
      exact hids e he heq
  rcases t with ⟨op, phase, p⟩
  cases phase with
  | outside => exact ⟨h.1, hnew h.2⟩
  | inside a i =>
      obtain ⟨rfl, rfl⟩ := hshared (Option.some_ne_none a)
      exact ⟨h.1, hnew h.2.1, h.2.2⟩
  | after | returned =>
      obtain ⟨reply, hp, hmem⟩ := h
      exact ⟨reply, hp, List.mem_append_left _ hmem⟩

/-- A step of one task, which keeps what holds of the others. -/
theorem Invariant.update (inv : Invariant program start s h) (ht : s.tasks[id]? = some t)
    (hop : t'.op = t.op) (horderly : Orderly (h ++ labels))
    (hlegal : (aloneMachine program).replies start ((effects (h ++ labels)).map Entry.op)
      = (effects (h ++ labels)).map Entry.reply)
    (hcalls : ∀ i op, .called i op ∉ labels) (hids : ∀ e ∈ effects labels, e.id = id)
    (hfollows : t'.program.Follows t'.phase)
    (hagrees : t'.Agrees program shared (sequential program start (h ++ labels))
      (effects (h ++ labels)) id)
    (hothers : ∀ j u, j ≠ id → s.tasks[j]? = some u → u.holdsOuter ≠ none →
      shared = s.shared ∧ sequential program start (h ++ labels) = sequential program start h)
    (hexclusive : ∀ j u, j ≠ id → s.tasks[j]? = some u →
      (t'.holdsOuter = some .write → u.holdsOuter = none) ∧
        (u.holdsOuter = some .write → t'.holdsOuter = none))
    (hquiet : (∀ u ∈ s.tasks.set id t', u.holdsOuter ≠ some .write) →
      shared = sequential program start (h ++ labels)) :
    Invariant program start ⟨shared, s.tasks.set id t'⟩ (h ++ labels) := by
  have hlt : id < s.tasks.length := (List.getElem?_eq_some_iff.1 ht).1
  have hself : (s.tasks.set id t')[id]? = some t' := List.getElem?_set_self hlt
  have hother : ∀ j, j ≠ id → (s.tasks.set id t')[j]? = s.tasks[j]? := fun j hj =>
    List.getElem?_set_ne hj.symm
  exact {
    orderly := horderly
    legal := hlegal
    called := fun j u hu => by
      refine List.mem_append_left _ ?_
      by_cases hj : j = id
      · subst hj
        rw [hself] at hu
        cases hu
        rw [hop]
        exact inv.called _ t ht
      · rw [hother j hj] at hu
        exact inv.called j u hu
    called_lt := fun j op hj => by
      rw [List.length_set]
      exact inv.called_lt j op ((List.mem_append.1 hj).resolve_right (hcalls j op))
    follows := fun u hu => by
      rcases List.mem_or_eq_of_mem_set hu with hu | rfl
      · exact inv.follows u hu
      · exact hfollows
    agrees := fun j u hu => by
      by_cases hj : j = id
      · subst hj
        rw [hself] at hu
        cases hu
        exact hagrees
      · rw [hother j hj] at hu
        rw [effects_append]
        exact (inv.agrees j u hu).keep (hothers j u hj hu) fun e he heq => hj ((heq.symm.trans (hids e he)))
    exclusive := fun i j u v hij hu hv hwrite => by
      by_cases hi : i = id
      · subst hi
        rw [hself] at hu
        cases hu
        rw [hother j hij.symm] at hv
        exact (hexclusive j v hij.symm hv).1 hwrite
      · rw [hother i hi] at hu
        by_cases hj : j = id
        · subst hj
          rw [hself] at hv
          cases hv
          exact (hexclusive i u hi hu).2 hwrite
        · rw [hother j hj] at hv
          exact inv.exclusive i j u v hij hu hv hwrite
    quiet := hquiet }

/-- Nobody else holds the outer lock beside a writer. -/
theorem Invariant.others (inv : Invariant program start s h) (ht : s.tasks[id]? = some t) :
    ∀ j u, j ≠ id → s.tasks[j]? = some u →
      (t.holdsOuter = some .write → u.holdsOuter = none) ∧
        (u.holdsOuter = some .write → t.holdsOuter = none) :=
  fun j u hj hu => ⟨inv.exclusive id j t u hj.symm ht hu, inv.exclusive j id u t hj hu ht⟩

/-- Nobody writes before a step that leaves the hold of its task as it is, if nobody does after
it. -/
theorem no_writer_of_set (ht : s.tasks[id]? = some t)
    (hnone : ∀ u ∈ s.tasks.set id t', u.holdsOuter ≠ some .write) (hholds : t'.holdsOuter = t.holdsOuter) :
    ∀ u ∈ s.tasks, u.holdsOuter ≠ some .write := by
  intro u hu
  obtain ⟨j, hj⟩ := List.mem_iff_getElem?.1 hu
  by_cases hid : j = id
  · subst hid
    rw [ht] at hj
    cases hj
    exact hholds ▸ hnone t' (List.mem_set (List.getElem?_eq_some_iff.1 ht).1 t')
  · exact hnone u (List.mem_of_getElem? ((List.getElem?_set_ne (Ne.symm hid)).trans hj))

/-- A step inside the section changes the resources only if it may write. -/
theorem Invariant.inside (inv : Invariant program start s h) (ht : s.tasks[id]? = some t)
    (hop : t'.op = t.op) (hholds : t'.holdsOuter = t.holdsOuter)
    (hshared : t.holdsOuter = some .write ∨ shared = s.shared) (hfollows : t'.program.Follows t'.phase)
    (hagrees : t'.Agrees program shared (sequential program start h) (effects h) id) :
    Invariant program start ⟨shared, s.tasks.set id t'⟩ (h ++ []) := by
  have hnil : h ++ [] = h := List.append_nil h
  refine inv.update ht hop (hnil.symm ▸ inv.orderly) (hnil.symm ▸ inv.legal) (fun i op => List.not_mem_nil)
    (List.forall_mem_nil _) hfollows (hnil.symm ▸ hagrees) (fun j u hj hu hheld => ?_)
    (fun j u hj hu => hholds ▸ inv.others ht j u hj hu) (fun hnone => ?_)
  · refine ⟨hshared.resolve_left fun hwrite => hheld ((inv.others ht j u hj hu).1 hwrite), ?_⟩
    rw [hnil]
  · have hquiet := no_writer_of_set ht hnone hholds
    rw [hshared.resolve_left (hquiet t (List.mem_of_getElem? ht)), hnil]
    exact inv.quiet hquiet

/-- The outer lock is taken. -/
theorem Invariant.lockOuter (inv : Invariant program start s h) {op : ο} {a : Access}
    {next : Program α β ρ} (ht : s.tasks[id]? = some ⟨op, .outside, .lockOuter a next⟩)
    (hfree : Free Task.holdsOuter s.tasks a) :
    Invariant program start ⟨s.shared, s.tasks.set id ⟨op, .inside a none, next⟩⟩ (h ++ []) := by
  have hnil : h ++ [] = h := List.append_nil h
  have hquiet : s.shared = sequential program start h := by
    refine inv.quiet fun u hu => ?_
    cases a with
    | read => exact hfree u hu
    | write => rw [hfree u hu]; exact (Option.some_ne_none _).symm
  obtain ⟨hprogram, hnew⟩ := inv.agrees id _ ht
  have hfollows : (Program.lockOuter a next).Follows .outside := inv.follows _ (List.mem_of_getElem? ht)
  refine inv.update ht rfl (hnil.symm ▸ inv.orderly) (hnil.symm ▸ inv.legal) (fun i op => List.not_mem_nil)
    (List.forall_mem_nil _) hfollows ?_ (fun j u hj hu hheld => ⟨rfl, by rw [hnil]⟩)
    (fun j u hj hu => ?_) (fun _ => by rw [hnil]; exact hquiet)
  · rw [hnil]
    refine ⟨?_, hnew, fun hinner => by cases hinner⟩
    show next.alone s.shared = (program op).alone _
    rw [← hprogram, ← hquiet]
    rfl
  · have hu' := List.mem_of_getElem? hu
    cases a with
    | read => exact ⟨fun hwrite => (by cases hwrite), fun hwrite => absurd hwrite (hfree u hu')⟩
    | write =>
        refine ⟨fun _ => hfree u hu', fun hwrite => ?_⟩
        rw [hfree u hu'] at hwrite
        cases hwrite

theorem legal_effect {op : ο} {reply : ρ}
    (hlegal : (aloneMachine program).replies start ((effects h).map Entry.op) = (effects h).map Entry.reply)
    (hreply : ((program op).alone (sequential program start h)).2 = reply) :
    (aloneMachine program).replies start ((effects (h ++ [.effect id op reply])).map Entry.op)
      = (effects (h ++ [.effect id op reply])).map Entry.reply := by
  rw [effects_append, List.map_append, List.map_append, ← hlegal]
  exact (Transition.Machine.replies_append_singleton _ _ _).trans (congrArg (_ ++ [·]) hreply)

/-- The outer lock is given back, which is when an operation takes effect. -/
theorem Invariant.unlockOuter (inv : Invariant program start s h) {op : ο} {a : Access} {reply : ρ}
    (ht : s.tasks[id]? = some ⟨op, .inside a none, .unlockOuter (.done reply)⟩) :
    Invariant program start ⟨s.shared, s.tasks.set id ⟨op, .after, .done reply⟩⟩
      (h ++ [.effect id op reply]) := by
  obtain ⟨hagree, hnew, -⟩ := inv.agrees id _ ht
  have hdone : (s.shared, reply) = (program op).alone (sequential program start h) := hagree
  have hsettled : sequential program start (h ++ [.effect id op reply]) = s.shared := by
    rw [sequential_effect, ← hdone]
  refine inv.update ht rfl (inv.orderly.effect (inv.called id _ ht) hnew)
    (legal_effect inv.legal (by rw [← hdone])) (fun i op' hmem => ?_) ?_ trivial ?_
    (fun j u hj hu hheld => ⟨rfl, ?_⟩) (fun j u hj hu => ⟨fun hwrite => ?_, fun _ => rfl⟩)
    (fun _ => hsettled.symm)
  · cases List.mem_singleton.1 hmem
  · exact List.forall_mem_singleton.2 rfl
  · refine ⟨reply, rfl, ?_⟩
    rw [effects_append]
    exact List.mem_append_right _ (List.mem_singleton_self _)
  · -- Another holder is a reader beside a reader, so nobody writes.
    rw [hsettled]
    refine inv.quiet fun v hv hwrite => ?_
    obtain ⟨k, hk⟩ := List.mem_iff_getElem?.1 hv
    by_cases hkid : k = id
    · subst hkid
      rw [ht] at hk
      cases hk
      exact hheld ((inv.others ht j u hj hu).1 hwrite)
    · have hnone := (inv.others ht k v hkid hk).2 hwrite
      cases hnone
  · cases hwrite

theorem effects_returned {reply : ρ} : effects (h ++ [.returned id reply]) = effects h := by
  rw [effects_append]
  exact List.append_nil _

/-- An operation that took effect returns. -/
theorem Invariant.returned (inv : Invariant program start s h) {op : ο} {reply : ρ}
    (ht : s.tasks[id]? = some ⟨op, .after, .done reply⟩) :
    Invariant program start ⟨s.shared, s.tasks.set id ⟨op, .returned, .done reply⟩⟩
      (h ++ [.returned id reply]) := by
  obtain ⟨reply', hdone, hentry⟩ := inv.agrees id _ ht
  cases hdone
  have hsettled : sequential program start (h ++ [.returned id reply]) = sequential program start h := by
    rw [sequential, sequential, effects_returned]
  refine inv.update ht rfl (inv.orderly.returned hentry) (by rw [effects_returned]; exact inv.legal)
    (fun i op' hmem => ?_) (List.forall_mem_nil _) trivial ?_ (fun j u hj hu hheld => ⟨rfl, hsettled⟩)
    (fun j u hj hu => ⟨fun hwrite => ?_, fun _ => rfl⟩) (fun hnone => ?_)
  · cases List.mem_singleton.1 hmem
  · rw [effects_returned]
    exact ⟨reply, rfl, hentry⟩
  · cases hwrite
  · rw [hsettled]
    exact inv.quiet (no_writer_of_set ht hnone rfl)

/-- An operation that never takes the outer lock takes effect when it returns. -/
theorem Invariant.done (inv : Invariant program start s h) {op : ο} {reply : ρ}
    (ht : s.tasks[id]? = some ⟨op, .outside, .done reply⟩) :
    Invariant program start ⟨s.shared, s.tasks.set id ⟨op, .returned, .done reply⟩⟩
      (h ++ [.effect id op reply, .returned id reply]) := by
  obtain ⟨hprogram, hnew⟩ := inv.agrees id _ ht
  have hdone : (program op).alone (sequential program start h) = (sequential program start h, reply) := by
    rw [← hprogram]
    rfl
  have hsettled : sequential program start (h ++ [.effect id op reply]) = sequential program start h := by
    rw [sequential_effect, hdone]
  have heffect : Invariant program start ⟨s.shared, s.tasks.set id ⟨op, .after, .done reply⟩⟩
      (h ++ [.effect id op reply]) := by
    refine inv.update ht rfl (inv.orderly.effect (inv.called id _ ht) hnew)
      (legal_effect inv.legal (by rw [hdone])) (fun i op' hmem => ?_)
      (List.forall_mem_singleton.2 rfl) trivial ?_ (fun j u hj hu hheld => ⟨rfl, hsettled⟩)
      (fun j u hj hu => ⟨fun hwrite => ?_, fun _ => rfl⟩) (fun hnone => ?_)
    · cases List.mem_singleton.1 hmem
    · refine ⟨reply, rfl, ?_⟩
      rw [effects_append]
      exact List.mem_append_right _ (List.mem_singleton_self _)
    · cases hwrite
    · rw [hsettled]
      exact inv.quiet (no_writer_of_set ht hnone rfl)
  have hlt : id < s.tasks.length := (List.getElem?_eq_some_iff.1 ht).1
  have hreturned := heffect.returned (List.getElem?_set_self hlt)
  rwa [List.set_set, List.append_assoc] at hreturned

/-- A step of a task keeps the invariant. -/
theorem Invariant.move (inv : Invariant program start s h) (ht : s.tasks[id]? = some t)
    (hmove : s.move id t = some (shared, t', labels)) :
    Invariant program start ⟨shared, s.tasks.set id t'⟩ (h ++ labels) := by
  rcases t with ⟨op, phase, p⟩
  have hfollows : p.Follows phase := inv.follows _ (List.mem_of_getElem? ht)
  have hagrees := inv.agrees id _ ht
  cases p with
  | lockOuter a next =>
      cases phase with
      | outside =>
          rw [System.move_lockOuter] at hmove
          split_ifs at hmove with hfree
          cases hmove
          exact inv.lockOuter ht hfree
      | _ => cases hfollows
  | unlockOuter next =>
      cases phase with
      | inside a i =>
          cases i with
          | none =>
              cases next with
              | done reply =>
                  cases hmove
                  exact inv.unlockOuter ht
              | _ => cases hfollows
          | some b => cases hfollows
      | _ => cases hfollows
  | lockInner b next =>
      cases phase with
      | inside a i =>
          cases i with
          | none =>
              rw [System.move_lockInner] at hmove
              split_ifs at hmove with hfree
              cases hmove
              refine inv.inside ht rfl rfl (Or.inr rfl) hfollows.2 ⟨hagrees.1, hagrees.2.1, fun hb => ?_⟩
              exact hfollows.1 (Option.some.inj hb)
          | some b' => cases hfollows
      | _ => cases hfollows
  | unlockInner next =>
      cases phase with
      | inside a i =>
          cases i with
          | none => cases hfollows
          | some b =>
              cases hmove
              exact inv.inside ht rfl rfl (Or.inr rfl) hfollows ⟨hagrees.1, hagrees.2.1, fun hb => by cases hb⟩
      | _ => cases hfollows
  | readOuter next =>
      cases phase with
      | inside a i =>
          cases hmove
          exact inv.inside ht rfl rfl (Or.inr rfl) (hfollows s.shared.1) ⟨hagrees.1, hagrees.2⟩
      | _ => cases hfollows
  | writeOuter f next =>
      cases phase with
      | inside a i =>
          cases a with
          | read => cases hfollows
          | write =>
              cases hmove
              exact inv.inside ht rfl rfl (Or.inl rfl) hfollows ⟨hagrees.1, hagrees.2⟩
      | _ => cases hfollows
  | readInner next =>
      cases phase with
      | inside a i =>
          cases i with
          | none => cases hfollows
          | some b =>
              cases hmove
              exact inv.inside ht rfl rfl (Or.inr rfl) (hfollows s.shared.2) ⟨hagrees.1, hagrees.2⟩
      | _ => cases hfollows
  | writeInner f next =>
      cases phase with
      | inside a i =>
          cases a with
          | read => cases hfollows
          | write =>
              cases i with
              | none => cases hfollows
              | some b =>
                  cases b with
                  | read => cases hfollows
                  | write =>
                      cases hmove
                      exact inv.inside ht rfl rfl (Or.inl rfl) hfollows ⟨hagrees.1, hagrees.2⟩
      | _ => cases hfollows
  | done reply =>
      cases phase with
      | outside =>
          cases hmove
          exact inv.done ht
      | inside a i => cases hfollows
      | after =>
          cases hmove
          exact inv.returned ht
      | returned => cases hmove

theorem Invariant.initial : Invariant program start (.initial start) ([] : List (Label ο ρ)) where
  orderly := .nil
  legal := rfl
  called id t ht := by cases ht
  called_lt id op h := by cases h
  follows := List.forall_mem_nil _
  agrees id t ht := by cases ht
  exclusive i j t u hij ht := by cases ht
  quiet _ := rfl

/-- A call keeps the invariant. -/
theorem Invariant.call (inv : Invariant program start s h) (op : ο)
    (hfollows : (program op).Follows .outside) :
    Invariant program start ⟨s.shared, s.tasks ++ [⟨op, .outside, program op⟩]⟩
      (h ++ [.called s.tasks.length op]) := by
  have heffects : effects (h ++ [.called s.tasks.length op]) = effects h := by
    rw [effects_append]
    exact List.append_nil _
  have hsettled : sequential program start (h ++ [.called s.tasks.length op]) = sequential program start h := by
    rw [sequential, sequential, heffects]
  have hnew : ∀ op', .called s.tasks.length op' ∉ h := fun op' hmem =>
    lt_irrefl _ (inv.called_lt _ op' hmem)
  have hget : ∀ j u, (s.tasks ++ [⟨op, .outside, program op⟩])[j]? = some u →
      s.tasks[j]? = some u ∨ j = s.tasks.length ∧ u = ⟨op, .outside, program op⟩ := by
    intro j u hu
    rcases lt_trichotomy j s.tasks.length with hlt | rfl | hgt
    · exact Or.inl ((List.getElem?_append_left hlt).symm.trans hu)
    · rw [List.getElem?_concat_length] at hu
      exact Or.inr ⟨rfl, (Option.some.inj hu).symm⟩
    · rw [List.getElem?_eq_none (by rw [List.length_append]; exact hgt)] at hu
      cases hu
  exact {
    orderly := inv.orderly.called hnew
    legal := by rw [heffects]; exact inv.legal
    called := fun j u hu => by
      rcases hget j u hu with hu | ⟨rfl, rfl⟩
      · exact List.mem_append_left _ (inv.called j u hu)
      · exact List.mem_append_right _ (List.mem_singleton_self _)
    called_lt := fun j op' hj => by
      rw [List.length_append]
      rcases List.mem_append.1 hj with hj | hj
      · exact (inv.called_lt j op' hj).trans_le (Nat.le_add_right ..)
      · cases List.mem_singleton.1 hj
        exact Nat.lt_succ_self _
    follows := fun u hu => by
      rcases List.mem_append.1 hu with hu | hu
      · exact inv.follows u hu
      · rw [List.mem_singleton.1 hu]
        exact hfollows
    agrees := fun j u hu => by
      rw [heffects, hsettled]
      rcases hget j u hu with hu | ⟨rfl, rfl⟩
      · exact inv.agrees j u hu
      · refine ⟨rfl, fun hmem => ?_⟩
        obtain ⟨e, he, heq⟩ := List.mem_map.1 hmem
        exact hnew e.op (heq ▸ inv.orderly.called_of_effect e he)
    exclusive := fun i j u v hij hu hv hwrite => by
      rcases hget i u hu with hu | ⟨rfl, rfl⟩
      · rcases hget j v hv with hv | ⟨rfl, rfl⟩
        · exact inv.exclusive i j u v hij hu hv hwrite
        · rfl
      · cases hwrite
    quiet := fun hnone => by
      rw [hsettled]
      exact inv.quiet fun u hu => hnone u (List.mem_append_left _ hu) }

variable (hfollows : ∀ op, (program op).Follows .outside)

include hfollows

/-- A step of the system keeps the invariant. -/
theorem Invariant.step (inv : Invariant program start s h) (action : Action ο) :
    Invariant program start ((machine program).step s action).1
      (h ++ ((machine program).step s action).2) := by
  have hstay : Invariant program start s (h ++ []) := by
    rw [List.append_nil]
    exact inv
  cases action with
  | call op => exact inv.call op (hfollows op)
  | step id =>
      simp only [machine]
      split
      · exact hstay
      · next t ht =>
          split
          · exact hstay
          · next shared t' labels hmove => exact inv.move ht hmove

/-- The invariant holds of every run. -/
theorem invariant_run (actions : List (Action ο)) :
    Invariant program start ((machine program).exec (.initial start) actions)
      (history program start actions) := by
  induction actions using List.reverseRecOn with
  | nil => exact .initial
  | append_singleton actions action ih =>
      have hhistory : history program start (actions ++ [action]) = history program start actions
          ++ ((machine program).step ((machine program).exec (.initial start) actions) action).2 := by
        rw [history, Transition.Machine.replies_append_singleton, List.flatten_append]
        exact congrArg _ (List.append_nil _)
      rw [hhistory, Transition.Machine.exec_append]
      exact ih.step hfollows action

/-- The operations of a run, in the order in which they took effect. -/
theorem linearizes (start : α × β) (actions : List (Action ο)) :
    Linearizes (aloneMachine program) start (history program start actions)
      (effects (history program start actions)) :=
  (invariant_run hfollows actions).orderly.linearizes (invariant_run hfollows actions).legal

omit hfollows in
/-- A reader finds the resources as the last effect left them. -/
theorem Invariant.shared_of_reader (inv : Invariant program start s h) (ht : s.tasks[id]? = some t)
    (hread : t.holdsOuter = some .read) : s.shared = sequential program start h := by
  refine inv.quiet fun u hu hwrite => ?_
  obtain ⟨j, hj⟩ := List.mem_iff_getElem?.1 hu
  by_cases hid : j = id
  · subst hid
    rw [ht] at hj
    cases hj
    rw [hread] at hwrite
    cases hwrite
  · have hnone := (inv.others ht j u hid hj).2 hwrite
    rw [hread] at hnone
    cases hnone

/-! ## Nobody waits for ever -/

omit hfollows in
/-- The inner lock is free for a task that holds the outer one as the inner one is to be
held. -/
theorem Invariant.free_inner (inv : Invariant program start s h) {op : ο} {a b : Access}
    {p : Program α β ρ} (ht : s.tasks[id]? = some ⟨op, .inside a none, p⟩) (hb : b = .write → a = .write) :
    Free Task.holdsInner s.tasks b := by
  -- Whoever holds the inner lock is another task, inside its section.
  have hinner : ∀ u ∈ s.tasks, ∀ c, u.holdsInner = some c →
      ∃ j d, j ≠ id ∧ s.tasks[j]? = some u ∧ u.holdsOuter = some d ∧ (c = .write → d = .write) := by
    intro u hu c hc
    obtain ⟨j, hj⟩ := List.mem_iff_getElem?.1 hu
    have hagrees := inv.agrees j u hj
    rcases u with ⟨op', phase, q⟩
    cases phase with
    | inside d i =>
        cases hc
        refine ⟨j, d, ?_, hj, rfl, fun hwrite => hagrees.2.2 (hwrite ▸ rfl)⟩
        rintro rfl
        rw [ht] at hj
        cases hj
    | _ => cases hc
  cases b with
  | read =>
      intro u hu hwrite
      obtain ⟨j, d, hj, hget, houter, hd⟩ := hinner u hu .write hwrite
      have hnone := (inv.others ht j u hj hget).2 (hd rfl ▸ houter)
      cases hnone
  | write =>
      intro u hu
      cases hheld : u.holdsInner with
      | none => rfl
      | some c =>
          obtain ⟨j, d, hj, hget, houter, -⟩ := hinner u hu c hheld
          have hnone := (inv.others ht j u hj hget).1 (congrArg some (hb rfl))
          rw [hnone] at houter
          cases houter

omit hfollows in
/-- Whoever holds the outer lock can go on. -/
theorem Invariant.holder_moves (inv : Invariant program start s h) (ht : s.tasks[id]? = some t)
    (hheld : t.holdsOuter ≠ none) : (s.move id t).isSome = true := by
  have hfollows := inv.follows t (List.mem_of_getElem? ht)
  rcases t with ⟨op, phase, p⟩
  cases phase with
  | inside a i =>
      cases p with
      | lockOuter | done => cases hfollows
      | lockInner b next =>
          cases i with
          | none => rw [System.move_lockInner, if_pos (inv.free_inner ht hfollows.1)]; rfl
          | some c => cases hfollows
      | _ => rfl
  | _ => exact absurd rfl hheld

omit hfollows in
/-- If nobody holds the outer lock, whoever has not returned can go on. -/
theorem Invariant.moves (inv : Invariant program start s h) (ht : s.tasks[id]? = some t)
    (hnone : ∀ u ∈ s.tasks, u.holdsOuter = none) (hpending : t.phase ≠ .returned) :
    (s.move id t).isSome = true := by
  have hfollows := inv.follows t (List.mem_of_getElem? ht)
  have hheld := hnone t (List.mem_of_getElem? ht)
  rcases t with ⟨op, phase, p⟩
  cases phase with
  | outside =>
      cases p with
      | lockOuter a next =>
          have hfree : Free Task.holdsOuter s.tasks a := by
            cases a with
            | read => exact fun u hu => hnone u hu ▸ (Option.some_ne_none _).symm
            | write => exact hnone
          rw [System.move_lockOuter, if_pos hfree]
          rfl
      | done reply => rfl
      | _ => cases hfollows
  | inside a i => cases hheld
  | after =>
      cases p with
      | done reply => rfl
      | _ => cases hfollows
  | returned => exact absurd rfl hpending

end Runs

end Locking
