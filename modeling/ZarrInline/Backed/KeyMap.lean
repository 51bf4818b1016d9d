import ZarrInline.Backed.Store

/-!
# The map of what is live

A document with skipped names is, to its readers, a map: the names that are there and not
skipped, with what their values are read as.  `current` is the document as a function, `read`
the reader.
-/

namespace Backed

variable {κ V γ : Type} [DecidableEq κ]

/-- What the live names are read as. -/
def keyMap (read : κ → V → γ) (current : κ → Option V) (skipped : Finset κ) : κ → Option γ := fun key =>
  if key ∈ skipped then none else (current key).map (read key)

variable {read : κ → V → γ} {current next : κ → Option V} {skipped : Finset κ} {key : κ}

theorem keyMap_isSome : (keyMap read current skipped key).isSome ↔ key ∉ skipped ∧ (current key).isSome := by
  rw [keyMap]
  split
  · next hskip => exact ⟨fun h => absurd h Bool.false_ne_true, fun h => absurd hskip h.1⟩
  · next hskip =>
      rw [Option.isSome_map]
      exact ⟨fun h => ⟨hskip, h⟩, And.right⟩

/-- A name is written or removed, and its skip is cleared. -/
theorem keyMap_update (o : Option V) :
    keyMap read (Function.update current key o) (skipped.erase key)
      = Function.update (keyMap read current skipped) key (o.map (read key)) := by
  funext l
  rw [keyMap]
  rcases eq_or_ne l key with rfl | hne
  · rw [if_neg (Finset.notMem_erase l skipped), Function.update_self, Function.update_self]
  · rw [Function.update_of_ne hne, Function.update_of_ne hne, keyMap]
    exact if_congr (Finset.mem_erase.trans (and_iff_right hne)) rfl rfl

/-- Some names are kept, and the others are removed. -/
theorem keyMap_restrict {p : κ → Bool} (hnext : ∀ l, next l = if p l then current l else none) :
    keyMap read next (skipped.filter fun l => p l)
      = fun l => if p l then keyMap read current skipped l else none := by
  funext l
  rw [keyMap, hnext]
  cases hp : p l with
  | true =>
      rw [if_pos rfl, if_pos rfl]
      exact if_congr (Finset.mem_filter.trans (and_iff_left hp)) rfl rfl
  | false =>
      have hout : l ∉ skipped.filter fun l => p l := fun h =>
        Bool.false_ne_true (hp.symm.trans (Finset.mem_filter.1 h).2)
      rw [if_neg hout]
      rfl

/-! ## Stores over a backing -/

namespace Store

variable {β ε : Type} {rank : κ → Option ℕ} {B : Backing rank V β ε} {s s' : Store rank V β} {value : V}

/-- The map that a store is. -/
def keyMap (read : κ → V → γ) (s : Store rank V β) : κ → Option γ :=
  Backed.keyMap read s.document.get s.skipped

theorem keyMap_isSome_eq_present : (s.keyMap read key).isSome = s.present key := by
  rw [Bool.eq_iff_iff, keyMap, Backed.keyMap_isSome, present, Bool.and_eq_true, decide_eq_true_iff, and_comm]

theorem mem_keys_iff_keyMap_isSome : key ∈ s.keys ↔ (s.keyMap read key).isSome := by
  rw [keyMap_isSome_eq_present, present_iff]

theorem keyMap_congr (hdoc : s'.document.get = s.document.get) (hskip : s'.skipped = s.skipped) :
    s'.keyMap read = s.keyMap read := by
  rw [keyMap, keyMap, hdoc, hskip]

/-- A write updates the map, or the backing fails and the map stays. -/
theorem keyMap_commitSet (read : κ → V → γ) (B : Backing rank V β ε) (s : Store rank V β) (key : κ) (value : V) :
    ((s.commitSet B key value).2 = .ok () ∧
        (s.commitSet B key value).1.keyMap read
          = Function.update (s.keyMap read) key (some (read key value))) ∨
      (∃ e, (s.commitSet B key value).2 = .error e) ∧
        (s.commitSet B key value).1.keyMap read = s.keyMap read := by
  cases hcommit : s.commitSet B key value with
  | mk s' r =>
      cases r with
      | ok u =>
          obtain ⟨hdoc, hskip⟩ := commitSet_ok hcommit
          refine .inl ⟨rfl, ?_⟩
          rw [keyMap, hdoc, hskip, Json.Members.get_set_eq_update]
          exact keyMap_update (some value)
      | error e =>
          obtain ⟨hdoc, hskip⟩ := commitSet_error hcommit
          exact .inr ⟨⟨e, rfl⟩, keyMap_congr (congrArg _ hdoc) hskip⟩

/-- A removal updates the map, or the backing fails and the map stays. -/
theorem keyMap_commitErase (read : κ → V → γ) (B : Backing rank V β ε) (s : Store rank V β) (key : κ) :
    ((s.commitErase B key).2 = .ok () ∧
        (s.commitErase B key).1.keyMap read = Function.update (s.keyMap read) key none) ∨
      (∃ e, (s.commitErase B key).2 = .error e) ∧
        (s.commitErase B key).1.keyMap read = s.keyMap read := by
  cases hcommit : s.commitErase B key with
  | mk s' r =>
      cases r with
      | ok u =>
          obtain ⟨hdoc, hskip⟩ := commitErase_ok hcommit
          refine .inl ⟨rfl, ?_⟩
          rw [keyMap, hdoc, hskip, Json.Members.get_erase_eq_update]
          exact keyMap_update none
      | error e =>
          obtain ⟨hdoc, hskip⟩ := commitErase_error hcommit
          refine .inr ⟨⟨e, rfl⟩, keyMap_congr (funext fun l => ?_) hskip⟩
          rw [hdoc, Json.Members.get_undoErase]

end Store

end Backed
