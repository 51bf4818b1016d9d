import ZarrInline.Backed.Store

/-!
# Skipped names

A store over a document with faults skips the names of the faulty members.  They stay
exactly the skipped names as long as the members that are written have no fault: a name
leaves them when its member is written or removed, and none joins them.

`Skipping` is the invariant, for a document seen as a function from names to values.
-/

namespace Backed

variable {κ V β ε : Type}

/-- The skipped names are those of the faulty members, and what they hold is what they
held initially. -/
structure Skipping (faulty : κ → V → Prop) (initial current : κ → Option V)
    (skipped : Finset κ) : Prop where
  mem_iff : ∀ key, key ∈ skipped ↔ ∃ value, current key = some value ∧ faulty key value
  kept : ∀ key ∈ skipped, current key = initial key

namespace Skipping

variable {faulty : κ → V → Prop} {initial current : κ → Option V} {skipped : Finset κ} {key : κ}

/-- Nothing is faulty if and only if nothing is skipped. -/
theorem eq_empty_iff (h : Skipping faulty initial current skipped) :
    skipped = ∅ ↔ ∀ key value, current key = some value → ¬ faulty key value := by
  rw [Finset.eq_empty_iff_forall_notMem]
  constructor
  · intro hempty key value hvalue hfaulty
    exact hempty key ((h.mem_iff key).2 ⟨value, hvalue, hfaulty⟩)
  · intro hnone key hkey
    obtain ⟨value, hvalue, hfaulty⟩ := (h.mem_iff key).1 hkey
    exact hnone key value hvalue hfaulty

/-- A member without a fault is written, or a member is removed. -/
theorem update [DecidableEq κ] (h : Skipping faulty initial current skipped) {o : Option V}
    (ho : ∀ value, o = some value → ¬ faulty key value) :
    Skipping faulty initial (Function.update current key o) (skipped.erase key) where
  mem_iff := by
    intro l
    rw [Finset.mem_erase]
    rcases eq_or_ne l key with rfl | hne
    · rw [Function.update_self]
      constructor
      · exact fun hl => absurd rfl hl.1
      · rintro ⟨value, hvalue, hfaulty⟩
        exact absurd hfaulty (ho value hvalue)
    · rw [Function.update_of_ne hne, ← h.mem_iff]
      exact and_iff_right hne
  kept := by
    intro l hl
    obtain ⟨hne, hmem⟩ := Finset.mem_erase.1 hl
    rw [Function.update_of_ne hne]
    exact h.kept l hmem

/-- The members with some names are kept, and the others are removed. -/
theorem restrict (h : Skipping faulty initial current skipped) {p : κ → Bool} {next : κ → Option V}
    (hnext : ∀ l, next l = if p l then current l else none) :
    Skipping faulty initial next (skipped.filter fun l => p l) where
  mem_iff := by
    intro l
    rw [Finset.mem_filter, hnext, h.mem_iff]
    cases p l with
    | true => exact and_iff_left rfl
    | false =>
        refine ⟨fun hl => absurd hl.2 Bool.false_ne_true, ?_⟩
        rintro ⟨value, hvalue, -⟩
        cases hvalue
  kept := by
    intro l hl
    obtain ⟨hmem, hp⟩ := Finset.mem_filter.1 hl
    rw [hnext, if_pos hp]
    exact h.kept l hmem

end Skipping

namespace Store

variable [DecidableEq κ] {rank : κ → Option ℕ} {B : Backing rank V β ε} {s : Store rank V β} {key : κ} {value : V}
  {faulty : κ → V → Prop} {initial : κ → Option V}

/-- The invariant, of a store. -/
def Skips (faulty : κ → V → Prop) (initial : κ → Option V) (s : Store rank V β) : Prop :=
  Skipping faulty initial s.document.get s.skipped

/-- What a change leaves: the invariant, and no more skipped names than before. -/
def Shrinks (faulty : κ → V → Prop) (initial : κ → Option V) (s s' : Store rank V β) : Prop :=
  s'.Skips faulty initial ∧ s'.skipped ⊆ s.skipped

theorem Skips.shrinks_of_eq {s' : Store rank V β} (h : s.Skips faulty initial)
    (hget : ∀ l, s'.document.get l = s.document.get l) (hskip : s'.skipped = s.skipped) :
    s.Shrinks faulty initial s' := by
  have hfun : s'.document.get = s.document.get := funext hget
  refine ⟨?_, hskip.subset⟩
  rw [Skips, hfun, hskip]
  exact h

theorem Skips.commitSet (h : s.Skips faulty initial) (hvalue : ¬ faulty key value) :
    s.Shrinks faulty initial (s.commitSet B key value).1 := by
  cases hcommit : s.commitSet B key value with
  | mk s' r =>
      cases r with
      | ok u =>
          obtain ⟨hdoc, hskip⟩ := commitSet_ok hcommit
          have hget : s'.document.get = Function.update s.document.get key (some value) := by
            funext l
            rw [hdoc, Json.Members.get_set, Function.update_apply]
            simp only [eq_comm]
          refine ⟨?_, hskip.subset.trans (Finset.erase_subset _ _)⟩
          show Skipping faulty initial s'.document.get s'.skipped
          rw [hget, hskip]
          refine Skipping.update h fun v hv => ?_
          cases hv
          exact hvalue
      | error e =>
          obtain ⟨hdoc, hskip⟩ := commitSet_error hcommit
          exact h.shrinks_of_eq (fun _ => by rw [hdoc]) hskip

theorem Skips.commitErase (h : s.Skips faulty initial) :
    s.Shrinks faulty initial (s.commitErase B key).1 := by
  cases hcommit : s.commitErase B key with
  | mk s' r =>
      cases r with
      | ok u =>
          obtain ⟨hdoc, hskip⟩ := commitErase_ok hcommit
          have hget : s'.document.get = Function.update s.document.get key none := by
            funext l
            rw [hdoc, Json.Members.get_erase, Function.update_apply]
            simp only [eq_comm]
          refine ⟨?_, hskip.subset.trans (Finset.erase_subset _ _)⟩
          show Skipping faulty initial s'.document.get s'.skipped
          rw [hget, hskip]
          refine Skipping.update h fun v hv => ?_
          cases hv
      | error e =>
          obtain ⟨hdoc, hskip⟩ := commitErase_error hcommit
          exact h.shrinks_of_eq (fun _ => by rw [hdoc, Json.Members.get_undoErase]) hskip

end Store

end Backed
