import Mathlib

/-!
# Steps that own disjoint parts of a state

A state is seen through a `view` at each key.  Items are handled one after the other by a
step that may fail, and the step of an item changes the view at the keys it touches only.

If no other item touches the keys an item owns, a run of all items does there what the
step of that item does by itself (`view_foldlM`), wherever the item stands in the run.
-/

namespace Transition

variable {σ ι κ α ε : Type} {view : σ → κ → α} {step : σ → ι → Except ε σ}
  {touches : ι → κ → Prop} {items : List ι} {s s' : σ}

/-- The step of an item changes nothing but what the item touches. -/
def Frames (view : σ → κ → α) (step : σ → ι → Except ε σ) (touches : ι → κ → Prop) (i : ι) : Prop :=
  ∀ s s', step s i = .ok s' → ∀ k, ¬ touches i k → view s' k = view s k

/-- What every step keeps, a run keeps. -/
theorem foldlM_induct {P : σ → Prop} (h : items.foldlM step s = .ok s') (hs : P s)
    (hstep : ∀ i ∈ items, ∀ t t', step t i = .ok t' → P t → P t') : P s' := by
  induction items generalizing s with
  | nil =>
      cases h
      exact hs
  | cons i items ih =>
      rw [List.foldlM_cons] at h
      cases hi : step s i with
      | error e =>
          rw [hi] at h
          cases h
      | ok t =>
          rw [hi] at h
          have ht : P t := hstep i List.mem_cons_self s t hi hs
          exact ih h ht fun j hj => hstep j (List.mem_cons_of_mem _ hj)

theorem frame_foldlM (hframe : ∀ i ∈ items, Frames view step touches i)
    (h : items.foldlM step s = .ok s') {k : κ} (hk : ∀ i ∈ items, ¬ touches i k) :
    view s' k = view s k :=
  foldlM_induct (P := fun t => view t k = view s k) h rfl fun i hi t t' ht hview =>
    (hframe i hi t t' ht k (hk i hi)).trans hview

/-- At the keys that one item alone touches, a run is the step of that item. -/
theorem view_foldlM (hframe : ∀ i ∈ items, Frames view step touches i)
    (h : items.foldlM step s = .ok s') (hnodup : items.Nodup) {i : ι} (hi : i ∈ items)
    {p : κ → Prop} (hp : ∀ j ∈ items, j ≠ i → ∀ k, p k → ¬ touches j k) :
    ∃ t t', step t i = .ok t' ∧ ∀ k, p k → view t k = view s k ∧ view s' k = view t' k := by
  obtain ⟨before, after, rfl⟩ := List.append_of_mem hi
  have hout : ∀ j, j ∈ before ∨ j ∈ after → j ≠ i := by
    rintro j (hj | hj) rfl
    · exact (List.nodup_append.1 hnodup).2.2 j hj j List.mem_cons_self rfl
    · exact (List.nodup_cons.1 (List.nodup_append.1 hnodup).2.1).1 hj
  have hbefore : ∀ j ∈ before, j ∈ before ++ i :: after := fun j => List.mem_append_left _
  have hafter : ∀ j ∈ after, j ∈ before ++ i :: after := fun j hj =>
    List.mem_append_right _ (List.mem_cons_of_mem _ hj)
  rw [List.foldlM_append] at h
  cases ht : before.foldlM step s with
  | error e =>
      rw [ht] at h
      cases h
  | ok t =>
      rw [ht] at h
      replace h : (i :: after).foldlM step t = .ok s' := h
      rw [List.foldlM_cons] at h
      cases ht' : step t i with
      | error e =>
          rw [ht'] at h
          cases h
      | ok t' =>
          rw [ht'] at h
          refine ⟨t, t', ht', fun k hk => ⟨?_, ?_⟩⟩
          · exact frame_foldlM (fun j hj => hframe j (hbefore j hj)) ht fun j hj =>
              hp j (hbefore j hj) (hout j (Or.inl hj)) k hk
          · exact frame_foldlM (fun j hj => hframe j (hafter j hj)) h fun j hj =>
              hp j (hafter j hj) (hout j (Or.inr hj)) k hk

/-- A run ends if and only if every step does, where that does not depend on the state. -/
theorem exists_foldlM_iff {P : ι → Prop}
    (hstep : ∀ s, ∀ i ∈ items, (∃ s', step s i = .ok s') ↔ P i) :
    (∃ s', items.foldlM step s = .ok s') ↔ ∀ i ∈ items, P i := by
  induction items generalizing s with
  | nil => exact iff_of_true ⟨s, rfl⟩ fun i hi => absurd hi List.not_mem_nil
  | cons i items ih =>
      have hrest : ∀ t, (∃ s', items.foldlM step t = .ok s') ↔ ∀ j ∈ items, P j := fun t =>
        ih fun s j hj => hstep s j (List.mem_cons_of_mem _ hj)
      rw [List.foldlM_cons, List.forall_mem_cons, ← hstep s i List.mem_cons_self]
      cases hi : step s i with
      | error e =>
          constructor
          · rintro ⟨s', hs'⟩
            cases hs'
          · rintro ⟨⟨s', hs'⟩, -⟩
            cases hs'
      | ok t => exact (hrest t).trans (and_iff_right ⟨t, rfl⟩).symm

/-- A run of steps that read first and then write is the run of the writes. -/
theorem foldlM_map_eq_ok {f : ι → Except ε α} {write : ι → α → σ → σ} {read : ι → α}
    (h : ∀ i ∈ items, f i = .ok (read i)) :
    items.foldlM (fun s i => (f i).map fun a => write i a s) s
      = .ok (items.foldl (fun s i => write i (read i) s) s) := by
  induction items generalizing s with
  | nil => rfl
  | cons i items ih =>
      obtain ⟨hi, hrest⟩ := List.forall_mem_cons.1 h
      rw [List.foldlM_cons, hi, List.foldl_cons, ← ih hrest]
      rfl

end Transition
