import ZarrInline.Text.Splitting

/-!
# Words in encoded strings

A string is encoded character by character.  If the characters of a word show in the units
(`MarksWord`), then the encoded string is the encoded word, begins with it or ends with it if
and only if the string does.
-/

namespace Text

variable {ω α β : Type} {g : α → List β} {as : ω → α} {bs : ω → β} {l : List α} {w : List ω}

/-- Characters have units, and those of a word are marked. -/
def MarksWord (g : α → List β) (as : ω → α) (bs : ω → β) (w : List ω) (l : List α) : Prop :=
  ∀ c ∈ l, g c ≠ [] ∧ ∀ x ∈ w, Marks g (as x) (bs x) c

theorem MarksWord.subset {w' : List ω} {l' : List α} (h : MarksWord g as bs w l) (hw : ∀ x ∈ w', x ∈ w)
    (hl : ∀ c ∈ l', c ∈ l) : MarksWord g as bs w' l' :=
  fun c hc => ⟨(h c (hl c hc)).1, fun x hx => (h c (hl c hc)).2 x (hw x hx)⟩

theorem MarksWord.tails {x : ω} {c : α} (h : MarksWord g as bs (x :: w) (c :: l)) : MarksWord g as bs w l :=
  h.subset (fun _ => List.mem_cons_of_mem _) fun _ => List.mem_cons_of_mem _

/-- An encoded string is an encoded word if and only if the string is the word. -/
theorem flatMap_eq_map_iff (h : MarksWord g as bs w l) : l.flatMap g = w.map bs ↔ l = w.map as := by
  induction w generalizing l with
  | nil =>
      rw [List.map_nil, List.map_nil, List.flatMap_eq_nil_iff, List.eq_nil_iff_forall_not_mem]
      exact forall_congr' fun c => ⟨fun hnil hc => (h c hc).1 (hnil hc), fun hnot hc => absurd hc hnot⟩
  | cons x w ih =>
      cases l with
      | nil =>
          exact iff_of_false (fun h => by cases h) fun h => by cases h
      | cons c l =>
          have hc := (h c List.mem_cons_self).2 x List.mem_cons_self
          rw [List.flatMap_cons, List.map_cons, List.map_cons, List.cons_eq_cons]
          by_cases hca : c = as x
          · rw [hc.eq hca, List.singleton_append, List.cons_eq_cons, ih h.tails]
            exact and_congr_left fun _ => iff_of_true rfl hca
          · obtain ⟨u, vs, hvs⟩ := List.exists_cons_of_ne_nil hc.ne_nil
            have hub : u ≠ bs x := fun hub => hc.not_mem hca (by rw [hvs, hub]; exact List.mem_cons_self)
            rw [hvs, List.cons_append, List.cons_eq_cons]
            exact iff_of_false (fun h => hub h.1) fun h => hca h.1

/-- An encoded string begins with an encoded word if and only if the string begins with the word. -/
theorem isPrefixOf_flatMap [DecidableEq α] [DecidableEq β] (h : MarksWord g as bs w l) :
    (w.map bs).isPrefixOf (l.flatMap g) = (w.map as).isPrefixOf l := by
  induction w generalizing l with
  | nil => rfl
  | cons x w ih =>
      cases l with
      | nil => rfl
      | cons c l =>
          have hc := (h c List.mem_cons_self).2 x List.mem_cons_self
          have hrest := ih h.tails
          rw [List.map_cons, List.map_cons, List.flatMap_cons]
          by_cases hca : c = as x
          · rw [hc.eq hca, List.singleton_append, List.isPrefixOf_cons_cons, List.isPrefixOf_cons_cons,
              hrest, hca, beq_self_eq_true, beq_self_eq_true]
          · obtain ⟨u, vs, hvs⟩ := List.exists_cons_of_ne_nil hc.ne_nil
            have hub : bs x ≠ u := fun hub => hc.not_mem hca (by rw [hvs, hub]; exact List.mem_cons_self)
            rw [hvs, List.cons_append, List.isPrefixOf_cons_cons, List.isPrefixOf_cons_cons,
              beq_eq_false_iff_ne.2 hub, beq_eq_false_iff_ne.2 (Ne.symm hca)]
            rfl

/-- An encoded string ends with an encoded word if and only if the string ends with the word. -/
theorem isSuffixOf_flatMap [DecidableEq α] [DecidableEq β] (h : MarksWord g as bs w l) :
    (w.map bs).isSuffixOf (l.flatMap g) = (w.map as).isSuffixOf l := by
  have hreverse : MarksWord (fun c => (g c).reverse) as bs w.reverse l.reverse := by
    intro c hc
    obtain ⟨hne, hmarks⟩ := h c (List.mem_reverse.1 hc)
    have hne' : (g c).reverse ≠ [] := fun hnil => hne (List.reverse_eq_nil_iff.1 hnil)
    refine ⟨hne', fun x hx => ?_⟩
    have hxc := hmarks x (List.mem_reverse.1 hx)
    refine ⟨hne', fun hca => ?_, fun hca hmem => ?_⟩
    · rw [hxc.eq hca]
      rfl
    · exact hxc.not_mem hca (List.mem_reverse.1 hmem)
  have hflat : (l.flatMap g).reverse = l.reverse.flatMap fun c => (g c).reverse := List.reverse_flatMap
  rw [List.isSuffixOf, List.isSuffixOf, hflat, ← List.map_reverse, ← List.map_reverse,
    isPrefixOf_flatMap hreverse]

end Text
