import Mathlib

/-!
# Splitting encoded strings

A string is encoded character by character, `g` giving the units of a character.  The unit
`b` marks the character `a`, if `a` is encoded as `b` alone and no other character has it
among its units (`Marks`).  Then what is done with `b` in the encoded string is what is
done with `a` in the string.
-/

namespace Text

variable {α β : Type} {g : α → List β} {a : α} {b : β}

/-- Whether the character `c` is `a` shows in its units. -/
structure Marks (g : α → List β) (a : α) (b : β) (c : α) : Prop where
  ne_nil : g c ≠ []
  eq : c = a → g c = [b]
  not_mem : c ≠ a → b ∉ g c

theorem flatMap_eq_nil_iff_of_marks {l : List α} (h : ∀ c ∈ l, Marks g a b c) :
    l.flatMap g = [] ↔ l = [] := by
  cases l with
  | nil => simp
  | cons c l =>
      have hc := (h c (by simp)).ne_nil
      simp [hc]

theorem splitOn_cons [DecidableEq α] (c : α) (l : List α) :
    (c :: l).splitOn a
      = if c = a then [] :: l.splitOn a else (l.splitOn a).modifyHead (c :: ·) := by
  rw [List.splitOn, List.splitOnP_cons_eq_if_modifyHead]
  simp only [beq_iff_eq]
  rfl

/-- The segments consist of characters of the string. -/
theorem mem_of_mem_splitOn [DecidableEq α] {l seg : List α} (hseg : seg ∈ l.splitOn a) {c : α}
    (hc : c ∈ seg) : c ∈ l := by
  induction l generalizing seg with
  | nil =>
      obtain rfl : seg = [] := by simpa [List.splitOn] using hseg
      cases hc
  | cons d l ih =>
      rw [splitOn_cons] at hseg
      split_ifs at hseg
      · rcases List.mem_cons.1 hseg with rfl | hseg
        · cases hc
        · exact List.mem_cons_of_mem _ (ih hseg hc)
      · cases hl : l.splitOn a with
        | nil => rw [hl] at hseg; cases hseg
        | cons first rest =>
            rw [hl] at hseg ih
            rcases List.mem_cons.1 hseg with rfl | hseg
            · rcases List.mem_cons.1 hc with rfl | hc
              · exact List.mem_cons_self
              · exact List.mem_cons_of_mem _ (ih List.mem_cons_self hc)
            · exact List.mem_cons_of_mem _ (ih (List.mem_cons_of_mem _ hseg) hc)

/-- Between two marks in a row is an empty segment. -/
theorem nil_mem_tail_splitOn [DecidableEq α] (l r : List α) :
    [] ∈ ((l ++ [a, a] ++ r).splitOn a).tail := by
  induction l with
  | nil =>
      rw [List.nil_append, List.cons_append, List.cons_append, List.nil_append, splitOn_cons,
        if_pos rfl, splitOn_cons, if_pos rfl]
      exact List.mem_cons_self
  | cons c l ih =>
      rw [List.cons_append, List.cons_append, splitOn_cons]
      split
      · exact List.mem_of_mem_tail ih
      · cases hl : (l ++ [a, a] ++ r).splitOn a with
        | nil => rw [hl] at ih; cases ih
        | cons first rest => rw [hl] at ih; exact ih

variable [DecidableEq β]

/-- Units without the mark stay in the first segment. -/
theorem splitOn_append_of_not_mem {us vs : List β} (h : b ∉ us) :
    (us ++ vs).splitOn b = (vs.splitOn b).modifyHead (us ++ ·) := by
  induction us with
  | nil => cases hvs : vs.splitOn b <;> simp [List.modifyHead, hvs]
  | cons u us ih =>
      have hu : u ≠ b := fun hu => h (by simp [hu])
      have hus : b ∉ us := fun hmem => h (by simp [hmem])
      rw [List.cons_append, splitOn_cons, if_neg hu, ih hus]
      cases vs.splitOn b <;> rfl

/-- Splitting an encoded string at a mark is splitting the string. -/
theorem splitOn_flatMap [DecidableEq α] {l : List α} (h : ∀ c ∈ l, Marks g a b c) :
    (l.flatMap g).splitOn b = (l.splitOn a).map fun seg => seg.flatMap g := by
  induction l with
  | nil => simp [List.splitOn]
  | cons c l ih =>
      have hc := h c (by simp)
      have hl := ih fun d hd => h d (by simp [hd])
      rw [List.flatMap_cons, splitOn_cons]
      by_cases hca : c = a
      · rw [hc.eq hca, List.singleton_append, splitOn_cons, if_pos rfl, if_pos hca, hl]
        rfl
      · rw [splitOn_append_of_not_mem (hc.not_mem hca), if_neg hca, hl]
        cases l.splitOn a <;> rfl

omit [DecidableEq β] in
/-- Every unit is the mark if and only if every character is marked. -/
theorem all_flatMap {l : List α} (h : ∀ c ∈ l, Marks g a b c) :
    (∀ u ∈ l.flatMap g, u = b) ↔ ∀ c ∈ l, c = a := by
  constructor
  · intro hall c hc
    by_contra hca
    obtain ⟨u, us, hus⟩ := List.exists_cons_of_ne_nil (h c hc).ne_nil
    have hu : u ∈ g c := by rw [hus]; simp
    have hub : u = b := hall u (List.mem_flatMap.2 ⟨c, hc, hu⟩)
    exact (h c hc).not_mem hca (hub ▸ hu)
  · intro hall u hu
    obtain ⟨c, hc, huc⟩ := List.mem_flatMap.1 hu
    rw [(h c hc).eq (hall c hc)] at huc
    simpa using huc

/-- Two marks come first if and only if the two characters do. -/
theorem two_isPrefixOf_flatMap [DecidableEq α] {l : List α} (h : ∀ c ∈ l, Marks g a b c) :
    [b, b].isPrefixOf (l.flatMap g) = [a, a].isPrefixOf l := by
  have hone : ∀ {l : List α} (us : List β) (as : List α), (∀ c ∈ l, Marks g a b c) →
      (∀ l', (∀ c ∈ l', Marks g a b c) → us.isPrefixOf (l'.flatMap g) = as.isPrefixOf l') →
      (b :: us).isPrefixOf (l.flatMap g) = (a :: as).isPrefixOf l := by
    intro l us as hl hrest
    cases l with
    | nil => rfl
    | cons c l =>
        have hc := hl c (by simp)
        rw [List.flatMap_cons]
        by_cases hca : c = a
        · rw [hc.eq hca, List.singleton_append, List.isPrefixOf_cons_cons, List.isPrefixOf_cons_cons,
            hrest l fun d hd => hl d (by simp [hd]), hca]
          simp
        · obtain ⟨u, vs, hvs⟩ := List.exists_cons_of_ne_nil hc.ne_nil
          have hub : b ≠ u := fun hub => hc.not_mem hca (by rw [hvs, hub]; simp)
          rw [hvs, List.cons_append, List.isPrefixOf_cons_cons, List.isPrefixOf_cons_cons,
            beq_eq_false_iff_ne.2 hub, beq_eq_false_iff_ne.2 (Ne.symm hca)]
          simp
  exact hone [b] [a] h fun l' hl' => hone [] [] hl' fun _ _ => by simp

end Text
