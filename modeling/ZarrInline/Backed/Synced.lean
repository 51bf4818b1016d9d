import ZarrInline.Backed.Store

/-!
# Stores in step with their backing

Two copies of a document: the one in memory and the one that the backing loads.  They agree
if they have the same value at every name (`Synced`); the order of the names may differ, since
a removal that is taken back puts its member last.

A change keeps the copies in step if persisting the changed document saves it: the backing
then loads to it, or fails and loads to what it did before (`Backing.Saves`).
-/

namespace Backed

variable {κ V β ε : Type} [DecidableEq κ] {rank : κ → Option ℕ}

/-- Persisting a document leaves it in the backing or, when it fails, leaves what was there. -/
def Backing.Saves (B : Backing rank V β ε) (b : β) (document : Json.Members rank V) : Prop :=
  match B.persist b document with
  | (b', .ok ()) => ∃ d, B.load b' = .ok d ∧ ∀ key, d.get key = document.get key
  | (b', .error _) => B.load b' = B.load b

section

variable {B : Backing rank V β ε} {b b' : β} {document : Json.Members rank V} {e : ε}

theorem Backing.saves_of_error (h : B.persist b document = (b, .error e)) : B.Saves b document := by
  rw [Backing.Saves, h]

theorem Backing.saves_of_ok (h : B.persist b document = (b', .ok ()))
    (hload : B.load b' = .ok document) : B.Saves b document := by
  rw [Backing.Saves, h]
  exact ⟨document, hload, fun _ => rfl⟩

end

namespace Store

variable {B : Backing rank V β ε} {s s' : Store rank V β} {key : κ} {value : V}

/-- The backing loads to the document in memory, up to the order of its members. -/
def Synced (B : Backing rank V β ε) (s : Store rank V β) : Prop :=
  ∃ d, B.load s.backing = .ok d ∧ ∀ key, d.get key = s.document.get key

/-- What loads as before and changes no member. -/
theorem Synced.unchanged (h : s.Synced B) (hload : B.load s'.backing = B.load s.backing)
    (hget : ∀ key, s'.document.get key = s.document.get key) : s'.Synced B := by
  obtain ⟨d, hd, hagree⟩ := h
  refine ⟨d, by rw [hload, hd], fun key => ?_⟩
  rw [hget, hagree]

theorem Synced.commitSet (h : s.Synced B) (hsaves : B.Saves s.backing (s.document.set key value)) :
    (s.commitSet B key value).1.Synced B := by
  rw [Backing.Saves] at hsaves
  rw [Store.commitSet]
  cases hpersist : B.persist s.backing (s.document.set key value) with
  | mk b' r =>
      rw [hpersist] at hsaves
      cases r with
      | ok u => exact hsaves
      | error e =>
          refine h.unchanged hsaves fun l => ?_
          show (s.document.undoSet key value).get l = s.document.get l
          rw [Json.Members.undoSet_eq]

theorem Synced.commitErase (h : s.Synced B) (hsaves : B.Saves s.backing (s.document.erase key)) :
    (s.commitErase B key).1.Synced B := by
  rw [Backing.Saves] at hsaves
  rw [Store.commitErase]
  cases hpersist : B.persist s.backing (s.document.erase key) with
  | mk b' r =>
      rw [hpersist] at hsaves
      cases r with
      | ok u => exact hsaves
      | error e => exact h.unchanged hsaves fun l => Json.Members.get_undoErase

/-- A value after a write is the one that is written, or was there. -/
theorem eq_or_get_of_commitSet {l : κ} {x : V}
    (h : (s.commitSet B key value).1.document.get l = some x) :
    x = value ∨ s.document.get l = some x := by
  unfold Store.commitSet at h
  split at h
  · replace h : (s.document.set key value).get l = some x := h
    rw [Json.Members.get_set] at h
    split at h
    · exact Or.inl (Option.some.inj h).symm
    · exact Or.inr h
  · replace h : (s.document.undoSet key value).get l = some x := h
    rw [Json.Members.undoSet_eq] at h
    exact Or.inr h

/-- A value after a removal was there. -/
theorem get_of_commitErase {l : κ} {x : V}
    (h : (s.commitErase B key).1.document.get l = some x) : s.document.get l = some x := by
  unfold Store.commitErase at h
  split at h
  · replace h : (s.document.erase key).get l = some x := h
    rw [Json.Members.get_erase] at h
    split at h
    · cases h
    · exact h
  · replace h : (s.document.undoErase key).get l = some x := h
    rwa [Json.Members.get_undoErase] at h

end Store

end Backed
