import ZarrInline.Json.Nesting
import ZarrInline.Json.Results

/-!
# The leaves of a nested tree

Flattening a tree by a shape and reading the atoms of a tree may be done in either order: a
tree that is read has the shape if and only if its tokens have, and its leaves are those of
the tokens, read one by one (`exists_traverse_flatten_iff`).

A text that parses starts with an ASCII character (`lt_of_parse_cons`), so it does not start
with a byte order mark.
-/

namespace Json

variable {σ ν μ ε δ α β γ : Type}

/-- The token of a number. -/
def num? : Json σ ν → Option ν
  | num t => some t
  | _ => none

theorem num?_eq_some_iff {v : Json σ ν} {t : ν} : v.num? = some t ↔ v = num t := by
  cases v with
  | num t' => exact ⟨fun h => congrArg num (Option.some.inj h), fun h => by cases h; rfl⟩
  | _ => exact iff_of_false (fun h => by cases h) fun h => by cases h

/-! ## Lists related element by element -/

theorem exists_forall₂ {R : α → β → Prop} {as : List α} (h : ∀ a ∈ as, ∃ b, R a b) :
    ∃ bs, List.Forall₂ R as bs := by
  induction as with
  | nil => exact ⟨[], .nil⟩
  | cons a as ih =>
      obtain ⟨b, hb⟩ := h a List.mem_cons_self
      obtain ⟨bs, hbs⟩ := ih fun a ha => h a (List.mem_cons_of_mem _ ha)
      exact ⟨b :: bs, .cons hb hbs⟩

/-- Two relations in a row. -/
theorem forall₂_exists_iff {R : α → β → Prop} {S : β → γ → Prop} {as : List α} {cs : List γ} :
    List.Forall₂ (fun a c => ∃ b, R a b ∧ S b c) as cs ↔
      ∃ bs, List.Forall₂ R as bs ∧ List.Forall₂ S bs cs := by
  constructor
  · intro h
    induction h with
    | nil => exact ⟨[], .nil, .nil⟩
    | cons hac _ ih =>
        obtain ⟨b, hR, hS⟩ := hac
        obtain ⟨bs, hbs, hcs⟩ := ih
        exact ⟨b :: bs, .cons hR hbs, .cons hS hcs⟩
  · rintro ⟨bs, hbs, hcs⟩
    induction hbs generalizing cs with
    | nil =>
        cases hcs
        exact .nil
    | cons hab _ ih =>
        rcases hcs with _ | ⟨hbc, hcs⟩
        exact .cons ⟨_, hab, hbc⟩ (ih hcs)

/-- Parts related to a list are related to parts of the list. -/
theorem exists_of_forall₂_flatten {R : α → β → Prop} {parts : List (List α)} {bs : List β}
    (h : List.Forall₂ R parts.flatten bs) :
    ∃ parts', List.Forall₂ (List.Forall₂ R) parts parts' ∧ parts'.flatten = bs := by
  induction parts generalizing bs with
  | nil =>
      cases h
      exact ⟨[], .nil, rfl⟩
  | cons part parts ih =>
      rw [List.flatten_cons] at h
      have hpart := List.forall₂_take part.length h
      have hrest := List.forall₂_drop part.length h
      rw [List.take_left] at hpart
      rw [List.drop_left] at hrest
      obtain ⟨parts', hparts', hflat⟩ := ih hrest
      refine ⟨_ :: parts', .cons hpart hparts', ?_⟩
      rw [List.flatten_cons, hflat, List.take_append_drop]

/-! ## Leaves -/

variable {mismatch : List ℕ → ε} {mismatch' : List ℕ → δ} {shape rest : List ℕ} {d : ℕ}

/-- A level of a shape. -/
theorem flatten_arr_eq_ok {xs flat : List (Json σ ν)} :
    flatten mismatch (d :: rest) (.arr xs) = .ok flat ↔ xs.length = d ∧
      ∃ parts, List.Forall₂ (fun x part => flatten mismatch rest x = .ok part) xs parts ∧
        parts.flatten = flat := by
  rw [flatten]
  split
  · next hne => exact iff_of_false (fun h => by cases h) fun h => hne h.1
  · next hlen =>
      rw [and_iff_right (not_not.1 hlen)]
      split
      · next hrest =>
          subst hrest
          have hparts : ∀ xs : List (Json σ ν), List.Forall₂ (fun x part => flatten mismatch [] x = .ok part)
              xs (xs.map fun x => [x]) := fun xs =>
            List.forall₂_map_right_iff.2 (List.forall₂_same.2 fun x _ => rfl)
          have hflat : ∀ xs : List (Json σ ν), (xs.map fun x => [x]).flatten = xs :=
            List.flatMap_singleton'
          constructor
          · intro h
            cases h
            exact ⟨_, hparts xs, hflat xs⟩
          · rintro ⟨parts, hall, rfl⟩
            have hunique : parts = xs.map fun x => [x] :=
              Except.ok.inj ((sequence_eq_ok.2 hall).symm.trans (sequence_eq_ok.2 (hparts xs)))
            rw [hunique, hflat]
      · constructor
        · intro h
          obtain ⟨parts, hparts, rfl⟩ := exists_of_map_eq_ok h
          exact ⟨parts, sequence_eq_ok.1 hparts, rfl⟩
        · rintro ⟨parts, hparts, rfl⟩
          rw [sequence_eq_ok.2 hparts]
          rfl

/-- A tree is leaves nested by a shape. -/
def Nests : List ℕ → Json σ ν → List (Json σ ν) → Prop
  | [], v, leaves => leaves = [v]
  | d :: rest, v, leaves => ∃ xs parts, v = .arr xs ∧ xs.length = d ∧
      List.Forall₂ (Nests rest) xs parts ∧ leaves = parts.flatten

/-- The trees that are flattened, and their leaves. -/
theorem flatten_eq_ok_iff {v : Json σ ν} {leaves : List (Json σ ν)} :
    flatten mismatch shape v = .ok leaves ↔ Nests shape v leaves := by
  induction shape generalizing v leaves with
  | nil => exact ⟨fun h => (Except.ok.inj h).symm, fun h => congrArg Except.ok h.symm⟩
  | cons d rest ih =>
      have hparts : ∀ (xs : List (Json σ ν)) parts, List.Forall₂ (fun x part => flatten mismatch rest x = .ok part)
          xs parts ↔ List.Forall₂ (Nests rest) xs parts := fun xs parts =>
        ⟨fun h => h.imp fun _ _ => ih.1, fun h => h.imp fun _ _ => ih.2⟩
      cases v with
      | arr xs =>
          rw [flatten_arr_eq_ok]
          constructor
          · rintro ⟨hlen, parts, hall, rfl⟩
            exact ⟨xs, parts, rfl, hlen, (hparts xs parts).1 hall, rfl⟩
          · rintro ⟨xs', parts, heq, hlen, hall, rfl⟩
            cases heq
            exact ⟨hlen, parts, (hparts xs parts).2 hall, rfl⟩
      | _ => exact iff_of_false (fun h => by cases h) fun ⟨xs, parts, heq, _⟩ => by cases heq

theorem flatten_of_kind_ne {v : Json σ ν} (h : v.kind ≠ .arr) :
    flatten mismatch (d :: rest) v = .error (mismatch (d :: rest)) := by
  cases v with
  | arr xs => exact absurd rfl h
  | _ => rfl

/-- A tree that is read is flattened to the leaves of its tokens, read one by one. -/
theorem exists_traverse_flatten_iff {f : ν → Except ε μ} {tree : Json σ ν} {flat : List (Json σ μ)} :
    (∃ v, tree.traverse f = .ok v ∧ flatten mismatch' shape v = .ok flat) ↔
      ∃ leaves, flatten mismatch' shape tree = .ok leaves ∧
        List.Forall₂ (fun leaf v => leaf.traverse f = .ok v) leaves flat := by
  induction shape generalizing tree flat with
  | nil =>
      constructor
      · rintro ⟨v, hv, hflat⟩
        cases hflat
        exact ⟨[tree], rfl, .cons hv .nil⟩
      · rintro ⟨leaves, hleaves, hflat⟩
        cases hleaves
        obtain ⟨v, _, hv, hnil, rfl⟩ := List.forall₂_cons_left_iff.1 hflat
        cases hnil
        exact ⟨v, hv, rfl⟩
  | cons d rest ih =>
      by_cases harr : tree.kind = .arr
      · cases tree with
        | arr xs =>
            constructor
            · rintro ⟨v, hv, hflat⟩
              obtain ⟨ys, rfl, hys⟩ := traverse_arr_eq_ok.1 hv
              obtain ⟨hlen, parts, hparts, rfl⟩ := flatten_arr_eq_ok.1 hflat
              have hread := (forall₂_exists_iff.2 ⟨ys, hys, hparts⟩).imp fun x part h => ih.1 h
              obtain ⟨leaves, hleaves, hflats⟩ := forall₂_exists_iff.1 hread
              exact ⟨leaves.flatten, flatten_arr_eq_ok.2 ⟨hys.length_eq.trans hlen, leaves, hleaves, rfl⟩,
                List.rel_flatten hflats⟩
            · rintro ⟨leaves, hleaves, hflat⟩
              obtain ⟨hlen, parts, hparts, rfl⟩ := flatten_arr_eq_ok.1 hleaves
              obtain ⟨parts', hparts', rfl⟩ := exists_of_forall₂_flatten hflat
              have hread := (forall₂_exists_iff.2 ⟨parts, hparts, hparts'⟩).imp fun x part h => ih.2 h
              obtain ⟨ys, hys, hflats⟩ := forall₂_exists_iff.1 hread
              exact ⟨.arr ys, traverse_arr_eq_ok.2 ⟨ys, rfl, hys⟩,
                flatten_arr_eq_ok.2 ⟨hys.length_eq.symm.trans hlen, parts', hflats, rfl⟩⟩
        | _ => cases harr
      · constructor
        · rintro ⟨v, hv, hflat⟩
          rw [flatten_of_kind_ne (kind_traverse hv ▸ harr)] at hflat
          cases hflat
        · rintro ⟨leaves, hleaves, -⟩
          rw [flatten_of_kind_ne harr] at hleaves
          cases hleaves

/-! ## The first character of a text -/

open Numeric (Text NumberToken)

/-- A word that was begun is the next token. -/
theorem exists_lexFrom_word (w t : Text) : ∃ w' rest, lexFrom (.word w) t = .word (w ++ w') :: rest := by
  induction t generalizing w with
  | nil => exact ⟨[], [], by rw [List.append_nil]; rfl⟩
  | cons c t ih =>
      rw [lexFrom, stepChar]
      split
      · exact ⟨[], _, by rw [List.append_nil]; rfl⟩
      · obtain ⟨w', rest, hrest⟩ := ih (w ++ [c])
        exact ⟨c :: w', rest, by rw [List.nil_append, hrest, List.append_assoc]; rfl⟩

theorem lt_of_isDelimiter {c : ℕ} (h : IsDelimiter c) : c < 128 := by
  rcases h with hspace | hstructural | rfl
  · rcases hspace with rfl | rfl | rfl | rfl <;> decide
  · unfold structural? at hstructural
    split_ifs at hstructural with h1 h2 h3 h4 h5 h6
    all_goals first | (subst_vars; decide) | cases hstructural
  · decide

/-- The words of a tree are ASCII. -/
theorem lt_of_tokens_eq_word {v : Raw} {w : Text} {rest : List Token} (h : v.tokens = .word w :: rest) :
    ∀ c ∈ w, c < 128 := by
  cases v with
  | null =>
      cases h
      decide
  | bool b =>
      cases h
      cases b <;> decide
  | num n =>
      cases h
      exact n.lt_of_mem_render
  | str s => cases h
  | arr xs =>
      rw [tokens, fold_arr] at h
      cases h
  | obj ms =>
      rw [tokens, fold_obj] at h
      cases h

theorem lt_of_parse_cons {l : Limits} {c : ℕ} {t : Text} {v : Raw} (h : parse l (c :: t) = .ok v) :
    c < 128 := by
  by_cases hc : IsDelimiter c
  · exact lt_of_isDelimiter hc
  · have hlex := (parse_eq_ok_iff.1 h).1
    obtain ⟨w, rest, hrest⟩ := exists_lexFrom_word [c] t
    have hstart : lex (c :: t) = lexFrom (.word [c]) t := by
      rw [IsDelimiter, not_or, not_or, Option.not_isSome_iff_eq_none] at hc
      rw [lex, lexFrom_start_cons, startChar, if_neg hc.1, hc.2.1]
      simp only [if_neg hc.2.2]
      rfl
    rw [hstart, hrest] at hlex
    exact lt_of_tokens_eq_word hlex.symm c (List.mem_append_left w List.mem_cons_self)

end Json
