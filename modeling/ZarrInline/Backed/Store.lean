import ZarrInline.Json.Members

/-!
# Stores over a backing

A store holds a document in memory and a backing that persists it.  The backing has a
state of its own and may fail at any call.  A change is made to the document first and
taken back when the backing fails.

Names are of a type `κ` in an enumeration order `rank`, values of a type `V`, and `ε`
is what a backing fails with.  A name may be skipped: its member stays in the
document, and a store behaves as if it were not there.

Taking back a write gives the document there was (`commitSet_error`).  Taking back a
removal writes the member anew, which gives the document there was in some cases only
(`commitErase_error_iff`).
-/

namespace Backed

variable {κ V β ε : Type} [DecidableEq κ] {rank : κ → Option ℕ}

/-- Where a document lives. -/
structure Backing (rank : κ → Option ℕ) (V β ε : Type) where
  load : β → Except ε (Json.Members rank V)
  persist : β → Json.Members rank V → β × Except ε Unit

/-- A store. -/
structure Store (rank : κ → Option ℕ) (V β : Type) where
  backing : β
  document : Json.Members rank V
  readOnly : Bool
  skipped : Finset κ

namespace Store

/-- The name is there and not skipped. -/
def present (s : Store rank V β) (key : κ) : Bool :=
  (s.document.get key).isSome && key ∉ s.skipped

/-- The names that are there and not skipped. -/
def keys (s : Store rank V β) : List κ := s.document.keys.filter (· ∉ s.skipped)

/-- Write a member and persist; when that fails, write the previous value back, or
remove the new member. -/
def commitSet (B : Backing rank V β ε) (s : Store rank V β) (key : κ) (value : V) :
    Store rank V β × Except ε Unit :=
  match B.persist s.backing (s.document.set key value) with
  | (b, .ok ()) =>
      ({ s with
          backing := b
          document := s.document.set key value
          skipped := s.skipped.erase key }, .ok ())
  | (b, .error e) =>
      ({ s with backing := b, document := s.document.undoSet key value }, .error e)

/-- Remove a member and persist; when that fails, write the member back. -/
def commitErase (B : Backing rank V β ε) (s : Store rank V β) (key : κ) :
    Store rank V β × Except ε Unit :=
  match B.persist s.backing (s.document.erase key) with
  | (b, .ok ()) =>
      ({ s with
          backing := b
          document := s.document.erase key
          skipped := s.skipped.erase key }, .ok ())
  | (b, .error e) =>
      ({ s with backing := b, document := s.document.undoErase key }, .error e)

section

variable {B : Backing rank V β ε} {s s' : Store rank V β} {key : κ} {value : V} {e : ε}

theorem present_iff : s.present key = true ↔ key ∈ s.keys := by
  rw [present, keys, List.mem_filter, Bool.and_eq_true, Json.Members.get_isSome_iff]

theorem nodup_keys : s.keys.Nodup := s.document.nodup_keys.filter _

/-- A write that goes through. -/
theorem commitSet_ok (h : s.commitSet B key value = (s', .ok ())) :
    s'.document = s.document.set key value ∧ s'.skipped = s.skipped.erase key := by
  unfold commitSet at h
  split at h
  · cases h; exact ⟨rfl, rfl⟩
  · cases h

/-- A write that fails changes nothing. -/
theorem commitSet_error (h : s.commitSet B key value = (s', .error e)) :
    s'.document = s.document ∧ s'.skipped = s.skipped := by
  unfold commitSet at h
  split at h
  · cases h
  · cases h; exact ⟨Json.Members.undoSet_eq _ _ _, rfl⟩

/-- A removal that goes through. -/
theorem commitErase_ok (h : s.commitErase B key = (s', .ok ())) :
    s'.document = s.document.erase key ∧ s'.skipped = s.skipped.erase key := by
  unfold commitErase at h
  split at h
  · cases h; exact ⟨rfl, rfl⟩
  · cases h

/-- A removal that fails writes the member back. -/
theorem commitErase_error (h : s.commitErase B key = (s', .error e)) :
    s'.document = s.document.undoErase key ∧ s'.skipped = s.skipped := by
  unfold commitErase at h
  split at h
  · cases h
  · cases h; exact ⟨rfl, rfl⟩

/-- A removal fails when the backing does. -/
theorem commitErase_snd :
    (s.commitErase B key).2 = (B.persist s.backing (s.document.erase key)).2 := by
  unfold commitErase
  cases h : B.persist s.backing (s.document.erase key) with
  | mk b r => cases r <;> rfl

/-- If the backing fails to persist the removal of a name, then the name was not there,
has an index, or was the last one. -/
def RestoresErase (B : Backing rank V β ε) (s : Store rank V β) (key : κ) : Prop :=
  (∃ e, (B.persist s.backing (s.document.erase key)).2 = .error e) →
    key ∉ s.document.keys ∨ (rank key).isSome ∨ s.document.keys.getLast? = some key

/-- A removal that fails changes nothing if and only if the name was not there, has an
index, or was the last one. -/
theorem commitErase_error_iff (hinj : ∀ a b n, rank a = some n → rank b = some n → a = b) :
    (∀ e, (s.commitErase B key).2 = .error e →
        (s.commitErase B key).1.document = s.document ∧
          (s.commitErase B key).1.skipped = s.skipped) ↔ s.RestoresErase B key := by
  rw [RestoresErase, ← commitErase_snd]
  cases hcommit : s.commitErase B key with
  | mk s' r =>
      cases r with
      | ok u => simp
      | error e =>
          obtain ⟨hdoc, hskip⟩ := commitErase_error hcommit
          simp [hdoc, hskip, Json.Members.undoErase_eq_iff hinj]

theorem commitSet_readOnly : (s.commitSet B key value).1.readOnly = s.readOnly := by
  unfold commitSet
  split <;> rfl

theorem commitErase_readOnly : (s.commitErase B key).1.readOnly = s.readOnly := by
  unfold commitErase
  split <;> rfl

end

end Store

end Backed
