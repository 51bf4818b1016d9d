import ZarrInline.TypeScript.Lock

/-!
# The order of the critical sections

Every promise of a runtime has an outcome that is wanted of it: of the promise of a critical
section, its reply after the critical sections registered before it.  `Serial` says that
critical sections run in the order in which they were registered, and that every outcome
there is is the wanted one.  A new promise (`Serial.extend`) and a job (`Serial.step`) keep it.
-/

namespace TypeScript

open Async (Loop Origin Upstream Wired)

variable {β ε : Type}

/-! ## What is wanted of every promise -/

/-- The callback of a promise. -/
def sectionOf : Origin Handler → Option Section
  | some (_, some (.locked sec)) => some sec
  | _ => none

/-- The callbacks of promises, in the order of the calls. -/
def sections (os : List (Origin Handler)) : List Section := os.filterMap sectionOf

/-- The promise is that of a callback. -/
def IsSection (os : List (Origin Handler)) (t : ℕ) : Prop :=
  ∃ s sec, os[t]? = some (some (s, some (.locked sec)))

/-- The promise was the lock at some time. -/
def IsLock (os : List (Origin Handler)) (t : ℕ) : Prop :=
  t = 0 ∨ ∃ s, os[t]? = some (some (s, some .release))

/-- The outcome that a promise is to have: that of its callback after the callbacks `before`,
or what its handler makes of the outcome wanted of its source. -/
def IsWanted (B : Backing β ε) (s₀ : Store β) (before : List Section) (want : List (Reply ε))
    (w : Reply ε) : Origin Handler → Prop
  | none => True
  | some (s, none) => want[s]? = some w
  | some (_, some (.locked sec)) => w = (sec.run B (runSections B s₀ before)).2
  | some (s, some .release) => ∃ u, want[s]? = some u ∧ w = (Handler.run B .release s₀ u).2
  | some (s, some (.ranged range)) => ∃ u, want[s]? = some u ∧ w = u.ranged range

/-- The callbacks run in the order of the calls: those before the mark `d` have run, and
every callback waits for all earlier ones. -/
structure Serial (B : Backing β ε) (s₀ : Store β) (os : List (Origin Handler))
    (want : List (Reply ε)) (ℓ : Loop (Store β) (Reply ε) Handler) : Prop where
  wired : Wired (Handler.run B) os [] ℓ
  length_eq : want.length = os.length
  wanted : ∀ {n : ℕ} {o w}, os[n]? = some o → want[n]? = some w →
    IsWanted B s₀ (sections (os.take n)) want w o
  start : ℓ.outcome? 0 = some .done
  source : ∀ {t s : ℕ} {sec}, os[t]? = some (some (s, some (.locked sec))) →
    IsLock os s ∧ ∀ t' < t, IsSection os t' → Upstream os t' s
  readOnly : ℓ.state.readOnly = s₀.readOnly
  mark : ∃ d ≤ os.length, ℓ.state = runSections B s₀ (sections (os.take d)) ∧
    ∀ t, IsSection os t → ((ℓ.outcome? t).isSome ↔ t < d)
  settled : ∀ {t : ℕ} {w v}, want[t]? = some w → os[t]? = some none ∨ IsSection os t →
    ℓ.outcome? t = some v → v = w

section Serial

variable {B : Backing β ε} {s₀ : Store β} {os : List (Origin Handler)} {want : List (Reply ε)}
  {ℓ : Loop (Store β) (Reply ε) Handler}

theorem IsSection.lt_length {t : ℕ} (h : IsSection os t) : t < os.length := by
  obtain ⟨s, sec, h⟩ := h
  exact Wired.lt_length h

theorem IsLock.append {t : ℕ} (h : IsLock os t) (ps : List (Origin Handler)) : IsLock (os ++ ps) t := by
  rcases h with rfl | ⟨s, hs⟩
  · exact Or.inl rfl
  · exact Or.inr ⟨s, (List.getElem?_append_left (Wired.lt_length hs)).trans hs⟩

theorem sections_append (ps : List (Origin Handler)) : sections (os ++ ps) = sections os ++ sections ps :=
  List.filterMap_append

theorem IsWanted.append {before : List Section} {w : Reply ε} {o : Origin Handler}
    (h : IsWanted B s₀ before want w o) (ws : List (Reply ε)) :
    IsWanted B s₀ before (want ++ ws) w o := by
  have hget : ∀ {s : ℕ} {u}, want[s]? = some u → (want ++ ws)[s]? = some u := fun hu =>
    (List.getElem?_append_left (List.getElem?_eq_some_iff.1 hu).1).trans hu
  cases o with
  | none => trivial
  | some o =>
      obtain ⟨s, h'⟩ := o
      cases h' with
      | none => exact hget h
      | some h' =>
          cases h' with
          | locked sec => exact h
          | release =>
              obtain ⟨u, hu, hw⟩ := h
              exact ⟨u, hget hu, hw⟩
          | ranged range =>
              obtain ⟨u, hu, hw⟩ := h
              exact ⟨u, hget hu, hw⟩

/-- A promise that was the lock is not rejected. -/
theorem Serial.not_failed_of_isLock (hs : Serial B s₀ os want ℓ) {t : ℕ} (ht : IsLock os t)
    {v : Reply ε} (hv : ℓ.outcome? t = some v) (e : StoreError ε) : v ≠ .failed e := by
  rcases ht with rfl | ⟨s, hsource⟩
  · rw [hs.start] at hv
    cases hv
    simp
  · obtain ⟨w, -, s', hw⟩ := hs.wired.outcome hv hsource
    rw [hw]
    cases w <;> simp [Handler.run]

theorem release_run_eq (s s' : Store β) (u : Reply ε) :
    (Handler.run B .release s u).2 = (Handler.run B .release s' u).2 := by
  cases u <;> rfl

/-- Every outcome is the one wanted. -/
theorem Serial.outcome_eq (hs : Serial B s₀ os want ℓ) {t : ℕ} {v : Reply ε}
    (hv : ℓ.outcome? t = some v) : want[t]? = some v := by
  induction t using Nat.strong_induction_on generalizing v with
  | _ t ih =>
      have hlt : t < os.length := by
        by_contra hge
        rw [Loop.outcome?_eq_none_of_le (hs.wired.length_eq ▸ not_lt.1 hge)] at hv
        cases hv
      obtain ⟨w, hw⟩ : ∃ w, want[t]? = some w :=
        ⟨_, List.getElem?_eq_getElem (hs.length_eq ▸ hlt)⟩
      have ho := List.getElem?_eq_getElem hlt
      have hwanted := hs.wanted ho hw
      rw [hw]
      generalize os[t] = o at ho hwanted
      cases o with
      | none => rw [hs.settled hw (Or.inl ho) hv]
      | some o =>
          obtain ⟨s, h⟩ := o
          cases h with
          | none =>
              obtain ⟨u, hu, rfl⟩ := hs.wired.outcome hv ho
              have hsource := ih s (hs.wired.earlier ho) hu
              rw [← hsource]
              exact hwanted.symm
          | some h =>
              cases h with
              | locked sec => rw [hs.settled hw (Or.inr ⟨s, sec, ho⟩) hv]
              | release =>
                  obtain ⟨u, hu, s', rfl⟩ := hs.wired.outcome hv ho
                  obtain ⟨u', hu', heq⟩ := hwanted
                  rw [ih s (hs.wired.earlier ho) hu] at hu'
                  cases hu'
                  rw [heq, release_run_eq]
              | ranged range =>
                  obtain ⟨u, hu, s', rfl⟩ := hs.wired.outcome hv ho
                  obtain ⟨u', hu', heq⟩ := hwanted
                  rw [ih s (hs.wired.earlier ho) hu] at hu'
                  cases hu'
                  rw [heq]
                  rfl

theorem getElem?_snoc_eq_some {α : Type} {xs : List α} {x y : α} {n : ℕ} :
    (xs ++ [x])[n]? = some y ↔ xs[n]? = some y ∨ n = xs.length ∧ y = x := by
  rcases lt_or_ge n xs.length with hlt | hge
  · rw [List.getElem?_append_left hlt]
    exact ⟨Or.inl, fun h => h.resolve_right fun hn => by omega⟩
  · rw [List.getElem?_append_right hge, List.getElem?_eq_none hge]
    constructor
    · intro h
      obtain ⟨hlt, heq⟩ := List.getElem?_eq_some_iff.1 h
      rw [List.length_singleton] at hlt
      obtain rfl : n = xs.length := by omega
      simp only [Nat.sub_self, List.getElem_cons_zero] at heq
      exact Or.inr ⟨rfl, heq.symm⟩
    · rintro (h | ⟨rfl, rfl⟩)
      · cases h
      · simp

/-- A promise more. -/
theorem Serial.extend (hs : Serial B s₀ os want ℓ) {ℓ' : Loop (Store β) (Reply ε) Handler}
    {o : Origin Handler} {w : Reply ε} (hw : Wired (Handler.run B) (os ++ [o]) [] ℓ')
    (hstate : ℓ'.state = ℓ.state) (hkeep : ∀ t < os.length, ℓ'.outcome? t = ℓ.outcome? t)
    (hnew : ∀ v, ℓ'.outcome? os.length = some v → o = none ∧ v = w)
    (hwant : IsWanted B s₀ (sections os) want w o)
    (hlock : ∀ s sec, o = some (s, some (.locked sec)) →
      IsLock os s ∧ ∀ t, IsSection os t → Upstream os t s) :
    Serial B s₀ (os ++ [o]) (want ++ [w]) ℓ' where
  wired := hw
  length_eq := by rw [List.length_append, List.length_append, hs.length_eq]; rfl
  wanted := by
    intro n o' w' ho hw'
    rcases getElem?_snoc_eq_some.1 ho with ho | ⟨rfl, rfl⟩
    · have hlt := Wired.lt_length ho
      rw [List.take_append_of_le_length hlt.le]
      rw [List.getElem?_append_left (hs.length_eq ▸ hlt)] at hw'
      exact (hs.wanted ho hw').append [w]
    · rw [← hs.length_eq, List.getElem?_append_right le_rfl, Nat.sub_self] at hw'
      cases hw'
      rw [List.take_left']
      · exact hwant.append [w]
      · rfl
  start := by
    have h0 : 0 < os.length := by
      by_contra hnone
      have hout := hs.start
      rw [Loop.outcome?_eq_none_of_le (hs.wired.length_eq ▸ not_lt.1 hnone)] at hout
      cases hout
    rw [hkeep 0 h0, hs.start]
  source := by
    intro t s sec ht
    have hold : ∀ {t'}, t' < os.length → IsSection (os ++ [o]) t' → IsSection os t' := by
      rintro t' hlt ⟨s', sec', h⟩
      exact ⟨s', sec', (List.getElem?_append_left hlt).symm.trans h⟩
    rcases getElem?_snoc_eq_some.1 ht with ht | ⟨rfl, ho⟩
    · have hlt := Wired.lt_length ht
      obtain ⟨hsource, hchain⟩ := hs.source ht
      exact ⟨hsource.append [o], fun t' htt ht' =>
        (hchain t' htt (hold (htt.trans hlt) ht')).append [o]⟩
    · obtain ⟨hsource, hchain⟩ := hlock s sec ho.symm
      exact ⟨hsource.append [o], fun t' htt ht' => (hchain t' (hold htt ht')).append [o]⟩
  readOnly := by rw [hstate, hs.readOnly]
  mark := by
    obtain ⟨d, hd, hrun, hmark⟩ := hs.mark
    refine ⟨d, ?_, ?_, ?_⟩
    · rw [List.length_append]
      omega
    · rw [hstate, hrun, List.take_append_of_le_length hd]
    · rintro t ⟨s, sec, ht⟩
      rcases getElem?_snoc_eq_some.1 ht with ht | ⟨rfl, ho⟩
      · rw [hkeep t (Wired.lt_length ht)]
        exact hmark t ⟨s, sec, ht⟩
      · refine iff_of_false (fun hsome => ?_) (not_lt.2 hd)
        obtain ⟨v, hv⟩ := Option.isSome_iff_exists.1 hsome
        rw [(hnew v hv).1] at ho
        cases ho
  settled := by
    intro t w' v hw' ht hv
    rcases getElem?_snoc_eq_some.1 hw' with hw' | ⟨rfl, rfl⟩
    · have hlt : t < os.length := hs.length_eq ▸ (List.getElem?_eq_some_iff.1 hw').1
      rw [hkeep t hlt] at hv
      refine hs.settled hw' ?_ hv
      rw [IsSection, List.getElem?_append_left hlt] at ht
      exact ht
    · rw [hs.length_eq] at hv
      exact (hnew v hv).2

theorem Section.run_readOnly (B : Backing β ε) (s : Store β) (sec : Section) :
    (sec.run B s).1.readOnly = s.readOnly := by
  cases sec with
  | get key => simp only [Section.run]; split <;> rfl
  | has key => rfl
  | list => rfl
  | set key value =>
      simp only [Section.run]
      split
      · rfl
      · next encoded _ =>
          have hcommit := @Backed.Store.commitSet_readOnly _ _ _ _ _ _ B s key encoded
          split <;> simp_all
  | delete key =>
      have hcommit := @Backed.Store.commitErase_readOnly _ _ _ _ _ _ B s (docKey key)
      simp only [Section.run]
      split <;> simp_all

/-- Promises that are not of callbacks add no callback. -/
theorem sections_take_of_no_section {d t : ℕ} (hdt : d ≤ t)
    (h : ∀ t', d ≤ t' → t' < t → ¬ IsSection os t') : sections (os.take t) = sections (os.take d) := by
  induction t, hdt using Nat.le_induction with
  | base => rfl
  | succ t hdt ih =>
      rw [List.take_add_one, sections_append, ih fun t' h1 h2 => h t' h1 (h2.trans t.lt_succ_self)]
      cases ho : os[t]? with
      | none => exact List.append_nil _
      | some o =>
          have hnone : sectionOf o = none := by
            have hnot := h t hdt t.lt_succ_self
            unfold sectionOf
            split
            · next s sec => exact absurd ⟨s, sec, ho⟩ hnot
            · rfl
          have hsections : sections [o] = [] := by
            rw [sections, List.filterMap_cons, hnone]
            rfl
          rw [Option.toList_some, hsections, List.append_nil]

theorem sections_take_succ {t s : ℕ} {sec : Section} (ht : os[t]? = some (some (s, some (.locked sec)))) :
    sections (os.take (t + 1)) = sections (os.take t) ++ [sec] := by
  rw [List.take_add_one, sections_append, ht]
  rfl

theorem runSections_append (B : Backing β ε) (s : Store β) (secs secs' : List Section) :
    runSections B s (secs ++ secs') = runSections B (runSections B s secs) secs' :=
  List.foldl_append

/-- A callback that is not rejected runs. -/
theorem Handler.run_locked {v : Reply ε} (h : ∀ e, v ≠ .failed e) (sec : Section) (s : Store β) :
    Handler.run B (.locked sec) s v = sec.run B s := by
  cases v with
  | failed e => exact absurd rfl (h e)
  | _ => rfl

/-- The other handlers keep the store. -/
theorem Handler.run_fst {h : Handler} (hh : ∀ sec, h ≠ .locked sec) (s : Store β) (v : Reply ε) :
    (h.run B s v).1 = s := by
  cases h with
  | locked sec => exact absurd rfl (hh sec)
  | release => cases v <;> rfl
  | ranged range => rfl

/-- A job. -/
theorem Serial.step (hs : Serial B s₀ os want ℓ) (i : ℕ) :
    Serial B s₀ os want (ℓ.step (Handler.run B) i) := by
  have hroot : ∀ {t w v}, want[t]? = some w → os[t]? = some none →
      (ℓ.step (Handler.run B) i).outcome? t = some v → v = w := by
    intro t w v hw ht hv
    obtain ⟨u, hu⟩ := Option.isSome_iff_exists.1 (hs.wired.isSome_of_root ht)
    rw [Loop.outcome?_step_of_some hu i] at hv
    exact hs.settled hw (Or.inl ht) (hu.trans hv)
  have hsame : (ℓ.step (Handler.run B) i).state = ℓ.state →
      (∀ t, IsSection os t → (ℓ.step (Handler.run B) i).outcome? t = ℓ.outcome? t) →
      Serial B s₀ os want (ℓ.step (Handler.run B) i) := by
    intro hstate hkeep
    refine ⟨hs.wired.step i, hs.length_eq, hs.wanted, Loop.outcome?_step_of_some hs.start i, hs.source,
      by rw [hstate, hs.readOnly], ?_, fun hw ht hv => ?_⟩
    · obtain ⟨d, hd, hrun, hmark⟩ := hs.mark
      exact ⟨d, hd, hstate.trans hrun, fun t ht => by rw [hkeep t ht]; exact hmark t ht⟩
    · rcases ht with ht | ht
      · exact hroot hw ht hv
      · exact hs.settled hw (Or.inr ht) ((hkeep _ ht).symm.trans hv)
  rcases hs.wired.step_cases i with ⟨hstate, hkeep⟩ | ⟨t, s, h, v, ht, hv, hpending, hstate, hout, hkeep⟩
  · exact hsame hstate fun t ⟨s, sec, ht⟩ => hkeep t s _ ht
  · by_cases hlocked : ∃ sec, h = .locked sec
    · obtain ⟨sec, rfl⟩ := hlocked
      obtain ⟨hlock, hchain⟩ := hs.source ht
      have hrun := Handler.run_locked (B := B) (hs.not_failed_of_isLock hlock hv) sec ℓ.state
      rw [hrun] at hstate hout
      obtain ⟨d, hd, hstore, hmark⟩ := hs.mark
      have hsection : IsSection os t := ⟨s, sec, ht⟩
      have hdt : d ≤ t := by
        by_contra hlt
        have hsome := (hmark t hsection).2 (not_le.1 hlt)
        rw [hpending] at hsome
        cases hsome
      -- the earlier callbacks have run, since the lock waited for them
      have hearlier : ∀ t' < t, IsSection os t' → t' < d := by
        intro t' htt ht'
        refine (hmark t' ht').1 (hs.wired.isSome_of_upstream (hchain t' htt ht') ?_)
        rw [hv]
        rfl
      have hbefore : ℓ.state = runSections B s₀ (sections (os.take t)) := by
        rw [hstore, sections_take_of_no_section hdt fun t' h1 h2 ht' =>
          absurd (hearlier t' h2 ht') (not_lt.2 h1)]
      refine ⟨hs.wired.step i, hs.length_eq, hs.wanted, Loop.outcome?_step_of_some hs.start i,
        hs.source, ?_, ⟨t + 1, Wired.lt_length ht, ?_, fun t' ht' => ?_⟩, fun hw' ht' hv' => ?_⟩
      · rw [hstate, Section.run_readOnly, hs.readOnly]
      · rw [hstate, sections_take_succ ht, runSections_append, ← hbefore]
        rfl
      · rcases lt_trichotomy t' t with hlt | rfl | hgt
        · rw [hkeep t' hlt.ne]
          have hrun' := hearlier t' hlt ht'
          exact iff_of_true ((hmark t' ht').2 hrun') (by omega)
        · rw [hout]
          exact iff_of_true rfl (by omega)
        · rw [hkeep t' hgt.ne', hmark t' ht']
          omega
      · rename_i t' w' v'
        rcases ht' with ht' | ht'
        · exact hroot hw' ht' hv'
        · by_cases htt : t' = t
          · subst htt
            rw [hout] at hv'
            cases hv'
            have hwanted := hs.wanted ht hw'
            rw [IsWanted, ← hbefore] at hwanted
            exact hwanted.symm
          · exact hs.settled hw' (Or.inr ht') ((hkeep t' htt).symm.trans hv')
    · have hfst := Handler.run_fst (B := B) (fun sec heq => hlocked ⟨sec, heq⟩) ℓ.state v
      refine hsame (hstate.trans hfst) fun t' ⟨s', sec', ht'⟩ => hkeep t' ?_
      rintro rfl
      rw [ht] at ht'
      cases ht'
      exact hlocked ⟨sec', rfl⟩

end Serial

end TypeScript
