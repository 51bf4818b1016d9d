import ZarrInline.Text.Sorting

/-!
# Directories of strings

A set of strings is listed as a tree: below a string `dir` are the strings that begin with
it, and the child of such a string is what it has up to the next separator.  In a sorted
list the strings with one child are contiguous, since the children are in the order of the
strings (`firstSegment_le`), so a child that differs from the last one found is new
(`foldl_pushNew`).
-/

namespace Text

/-! ## Lists without repetition -/

section

variable {α : Type} [DecidableEq α]

/-- Append `x` unless it is last. -/
def pushNew (xs : List α) (x : α) : List α := if xs.getLast? = some x then xs else xs ++ [x]

theorem mem_pushNew {xs : List α} {x y : α} : y ∈ pushNew xs x ↔ y ∈ xs ∨ y = x := by
  rw [pushNew]
  split
  · next hlast =>
      have hx : x ∈ xs := List.mem_of_getLast? hlast
      refine ⟨Or.inl, ?_⟩
      rintro (hy | rfl)
      · exact hy
      · exact hx
  · rw [List.mem_append, List.mem_singleton]

theorem mem_foldl_pushNew {xs acc : List α} {y : α} :
    y ∈ xs.foldl pushNew acc ↔ y ∈ acc ∨ y ∈ xs := by
  induction xs generalizing acc with
  | nil => simp
  | cons x xs ih => rw [List.foldl_cons, ih, mem_pushNew, List.mem_cons, or_assoc]

variable [PartialOrder α]

theorem pushNew_ascending {xs : List α} {x : α} (hxs : xs.Pairwise (· < ·))
    (hle : ∀ y ∈ xs, y ≤ x) : (pushNew xs x).Pairwise (· < ·) := by
  rw [pushNew]
  split
  · exact hxs
  · next hlast =>
      refine List.pairwise_append.2 ⟨hxs, List.pairwise_singleton _ _, fun y hy z hz => ?_⟩
      obtain rfl := List.mem_singleton.1 hz
      refine lt_of_le_of_ne (hle y hy) ?_
      rintro rfl
      -- everything is below the last, and the last is not `y`
      obtain ⟨ys, last, rfl⟩ := (List.eq_nil_or_concat' xs).resolve_left (List.ne_nil_of_mem hy)
      rw [List.getLast?_concat] at hlast
      have hne : y ≠ last := fun h => hlast (congrArg some h.symm)
      rcases List.mem_append.1 hy with hmem | hmem
      · have hlt : y < last := (List.pairwise_append.1 hxs).2.2 y hmem last (List.mem_singleton_self _)
        exact absurd (hle last (List.mem_append_right _ (List.mem_singleton_self _))) hlt.not_ge
      · exact hne (List.mem_singleton.1 hmem)

/-- The elements of a sorted list, each once. -/
theorem foldl_pushNew {xs acc : List α} (hxs : xs.Pairwise (· ≤ ·)) (hacc : acc.Pairwise (· < ·))
    (hle : ∀ y ∈ acc, ∀ x ∈ xs, y ≤ x) : (xs.foldl pushNew acc).Pairwise (· < ·) := by
  induction xs generalizing acc with
  | nil => exact hacc
  | cons x xs ih =>
      obtain ⟨hx, hxs⟩ := List.pairwise_cons.1 hxs
      refine ih hxs (pushNew_ascending hacc fun y hy => hle y hy x List.mem_cons_self) ?_
      intro y hy z hz
      rcases mem_pushNew.1 hy with hy | rfl
      · exact hle y hy z (List.mem_cons_of_mem _ hz)
      · exact hx z hz

end

/-! ## Children -/

section

variable {χ : Type} [LinearOrder χ] {sep : χ} {s t dir : List χ}

/-- A string up to its first separator, and the separator. -/
def firstSegment (sep : χ) (s : List χ) : List χ := s.takeWhile (· ≠ sep) ++ [sep]

theorem firstSegment_cons (c : χ) (s : List χ) :
    firstSegment sep (c :: s) = if c = sep then [sep] else c :: firstSegment sep s := by
  rw [firstSegment, List.takeWhile_cons]
  by_cases hc : c = sep
  · simp [hc]
  · simp [hc, firstSegment]

theorem prefix_firstSegment (h : sep ∈ s) : firstSegment sep s <+: s := by
  induction s with
  | nil => cases h
  | cons c s ih =>
      rw [firstSegment_cons]
      split
      · next hc =>
          rw [hc]
          exact List.prefix_append [sep] s
      · next hc =>
          have hs : sep ∈ s := (List.mem_cons.1 h).resolve_left (Ne.symm hc)
          exact List.cons_prefix_cons.2 ⟨rfl, ih hs⟩

/-- The only way a string begins with a segment and its separator. -/
theorem firstSegment_eq {child rest : List χ} (h : sep ∉ child) :
    firstSegment sep (child ++ [sep] ++ rest) = child ++ [sep] := by
  induction child with
  | nil => simp [firstSegment_cons]
  | cons c child ih =>
      have hc : c ≠ sep := fun hc => h (hc ▸ List.mem_cons_self)
      have hchild : sep ∉ child := fun hmem => h (List.mem_cons_of_mem _ hmem)
      rw [List.cons_append, List.cons_append, firstSegment_cons, if_neg hc, ih hchild]

theorem sep_notMem_takeWhile : sep ∉ s.takeWhile (· ≠ sep) := fun h => by
  simpa using List.mem_takeWhile_imp h

theorem firstSegment_le (hs : sep ∈ s) (ht : sep ∈ t) (h : s ≤ t) :
    firstSegment sep s ≤ firstSegment sep t := by
  induction s generalizing t with
  | nil => cases hs
  | cons c s ih =>
      cases t with
      | nil => cases ht
      | cons d t =>
          rw [firstSegment_cons, firstSegment_cons]
          rcases h.lt_or_eq with hlt | heq
          · rcases List.cons_lt_cons_iff.1 hlt with hcd | ⟨rfl, htail⟩
            · refine le_of_lt ?_
              split_ifs with hc hd hd
              · exact absurd (hc.trans hd.symm) hcd.ne
              · exact List.cons_lt_cons_iff.2 (Or.inl (hc ▸ hcd))
              · exact List.cons_lt_cons_iff.2 (Or.inl (hd ▸ hcd))
              · exact List.cons_lt_cons_iff.2 (Or.inl hcd)
            · split_ifs with hc
              · exact le_refl _
              · have hs' : sep ∈ s := (List.mem_cons.1 hs).resolve_left (Ne.symm hc)
                have ht' : sep ∈ t := (List.mem_cons.1 ht).resolve_left (Ne.symm hc)
                exact List.cons_le_cons c (ih hs' ht' htail.le)
          · obtain ⟨rfl, rfl⟩ := List.cons_eq_cons.1 heq
            exact le_refl _

/-- The string is below the directory with nothing between. -/
def isDirect (sep : χ) (dir s : List χ) : Bool :=
  dir.isPrefixOf s && decide (sep ∉ s.drop dir.length)

/-- The child of the directory that the string is in. -/
def child? (sep : χ) (dir s : List χ) : Option (List χ) :=
  if dir.isPrefixOf s ∧ sep ∈ s.drop dir.length then
    some (dir ++ firstSegment sep (s.drop dir.length))
  else none

theorem isDirect_iff : isDirect sep dir s = true ↔ ∃ rest, sep ∉ rest ∧ s = dir ++ rest := by
  rw [isDirect, Bool.and_eq_true, List.isPrefixOf_iff_prefix, decide_eq_true_eq]
  constructor
  · rintro ⟨⟨rest, rfl⟩, hsep⟩
    exact ⟨rest, by simpa using hsep, rfl⟩
  · rintro ⟨rest, hsep, rfl⟩
    exact ⟨List.prefix_append _ _, by simpa using hsep⟩

theorem child?_eq_some_iff {q : List χ} : child? sep dir s = some q ↔
    ∃ child, sep ∉ child ∧ q = dir ++ child ++ [sep] ∧ q <+: s := by
  rw [child?]
  constructor
  · intro h
    split at h
    · next hs =>
        obtain ⟨rest, rfl⟩ := List.isPrefixOf_iff_prefix.1 hs.1
        obtain rfl := Option.some.inj h
        rw [List.drop_left] at hs
        rw [List.drop_left]
        refine ⟨_, sep_notMem_takeWhile, (List.append_assoc _ _ _).symm, ?_⟩
        exact (List.prefix_append_right_inj dir).2 (prefix_firstSegment hs.2)
    · cases h
  · rintro ⟨child, hchild, rfl, rest, rfl⟩
    have hdrop : (dir ++ child ++ [sep] ++ rest).drop dir.length = child ++ [sep] ++ rest := by
      rw [List.append_assoc, List.append_assoc, List.drop_left, List.append_assoc]
    have hdir : dir <+: dir ++ child ++ [sep] ++ rest := ⟨child ++ [sep] ++ rest, by simp⟩
    rw [hdrop, if_pos ⟨List.isPrefixOf_iff_prefix.2 hdir, by simp⟩, firstSegment_eq hchild,
      List.append_assoc]

/-- The children are in the order of the strings. -/
theorem child?_le {q r : List χ} (hs : child? sep dir s = some q) (ht : child? sep dir t = some r)
    (h : s ≤ t) : q ≤ r := by
  rw [child?] at hs ht
  split at hs
  · next hs' =>
      split at ht
      · next ht' =>
          obtain ⟨s, rfl⟩ := List.isPrefixOf_iff_prefix.1 hs'.1
          obtain ⟨t, rfl⟩ := List.isPrefixOf_iff_prefix.1 ht'.1
          obtain rfl := Option.some.inj hs
          obtain rfl := Option.some.inj ht
          rw [List.drop_left] at hs' ht'
          rw [List.drop_left, List.drop_left]
          have hst : s ≤ t := not_lt.1 fun hlt => h.not_gt (List.append_left_lt hlt)
          exact not_lt.1 fun hlt => (firstSegment_le hs'.2 ht'.2 hst).not_gt (by
            rcases lt_trichotomy (firstSegment sep t) (firstSegment sep s) with hlt' | heq | hgt
            · exact hlt'
            · exact absurd (heq ▸ hlt) (lt_irrefl _)
            · exact absurd (List.append_left_lt hgt) hlt.asymm)
      · cases ht
  · cases hs

theorem children_sorted {ss : List (List χ)} (h : ss.Pairwise (· ≤ ·)) :
    (ss.filterMap (child? sep dir)).Pairwise (· ≤ ·) := by
  refine List.pairwise_filterMap.2 (h.imp fun hst q hq r hr => child?_le hq hr hst)

/-- A string below a directory is there with nothing between, or in one child. -/
theorem isPrefixOf_iff_child : dir.isPrefixOf s = true ↔
    isDirect sep dir s = true ∨ ∃ q, child? sep dir s = some q := by
  rw [isDirect, child?]
  cases dir.isPrefixOf s with
  | false => simp
  | true => by_cases hsep : sep ∈ s.drop dir.length <;> simp [hsep]

theorem child?_of_isDirect (h : isDirect sep dir s = true) : child? sep dir s = none := by
  obtain ⟨-, hsep⟩ := Bool.and_eq_true_iff.1 h
  rw [child?, if_neg fun h => of_decide_eq_true hsep h.2]

end

end Text
