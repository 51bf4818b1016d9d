import ZarrInline.Json.Tree

/-!
# Ordered members

What a host keeps of an object is a sequence of members with distinct names.
Writing a name that is there replaces its value in place; writing a new name
puts the member at the position where the host enumerates it.  Most hosts
enumerate in insertion order.  An ECMAScript object enumerates the names that
are array indices first, in ascending order; `rank` gives the index of such a
name and `none` for every other name, so that a host without array indices is
the case `rank = fun _ => none`.

`Ordered` is the invariant of such sequences, and `Members` the type of the
sequences that satisfy it.
-/

variable {κ α β : Type}

namespace Json

/-- The name `a` is enumerated before the earlier inserted name `b`. -/
def Precedes (rank : κ → Option ℕ) (a b : κ) : Prop :=
  match rank a, rank b with
  | some m, some n => m < n
  | some _, none => True
  | none, _ => False

instance (rank : κ → Option ℕ) (a b : κ) : Decidable (Precedes rank a b) := by
  unfold Precedes
  cases rank a <;> cases rank b <;> infer_instance

section Order

variable {rank : κ → Option ℕ} {a b c : κ}

theorem Precedes.trans (hab : Precedes rank a b) (hbc : Precedes rank b c) : Precedes rank a c := by
  unfold Precedes at *
  cases ha : rank a <;> cases hb : rank b <;> cases hc : rank c <;> simp_all
  omega

theorem Precedes.asymm (hab : Precedes rank a b) : ¬ Precedes rank b a := by
  unfold Precedes at *
  cases ha : rank a <;> cases hb : rank b <;> simp_all
  omega

theorem not_precedes_of_rank_eq_none (h : rank a = none) : ¬ Precedes rank a b := by
  simp [Precedes, h]

theorem precedes_or_precedes {m n : ℕ} (ha : rank a = some m) (hb : rank b = some n) (h : m ≠ n) :
    Precedes rank a b ∨ Precedes rank b a := by
  simp only [Precedes, ha, hb]
  omega

theorem precedes_of_none {m : ℕ} (ha : rank a = some m) (hb : rank b = none) :
    Precedes rank a b := by
  simp [Precedes, ha, hb]

end Order

/-- The names are distinct and stand in enumeration order. -/
def Ordered (rank : κ → Option ℕ) (ks : List κ) : Prop :=
  ks.Pairwise fun a b => a ≠ b ∧ ¬ Precedes rank b a

section

variable [DecidableEq κ]

instance (rank : κ → Option ℕ) : DecidablePred (Ordered rank) :=
  fun _ => inferInstanceAs (Decidable (List.Pairwise _ _))

/-! ## Writing a member -/

/-- The value at a name. -/
def lookup (k : κ) : List (κ × α) → Option α
  | [] => none
  | (l, y) :: ms => if l = k then some y else lookup k ms

/-- Put a new member where its name is enumerated. -/
def insertNew (rank : κ → Option ℕ) (k : κ) (x : α) : List (κ × α) → List (κ × α)
  | [] => [(k, x)]
  | m :: ms => if Precedes rank k m.1 then (k, x) :: m :: ms else m :: insertNew rank k x ms

/-- Replace the value at a name, if the name is there. -/
def replace (k : κ) (x : α) (ms : List (κ × α)) : List (κ × α) :=
  ms.map fun m => if m.1 = k then (k, x) else m

/-- Write a member. -/
def set (rank : κ → Option ℕ) (k : κ) (x : α) (ms : List (κ × α)) : List (κ × α) :=
  if k ∈ ms.map Prod.fst then replace k x ms else insertNew rank k x ms

/-- Remove a member. -/
def erase (k : κ) (ms : List (κ × α)) : List (κ × α) := ms.filter fun m => m.1 ≠ k

/-- The members of an object text: each written in turn, so that a repeated name
keeps its first position and its last value. -/
def collapse (rank : κ → Option ℕ) (ms : List (κ × α)) : List (κ × α) :=
  ms.foldl (fun acc m => set rank m.1 m.2 acc) []

variable {rank : κ → Option ℕ} {k l : κ} {x : α} {ms : List (κ × α)}

@[simp] theorem lookup_nil : lookup k ([] : List (κ × α)) = none := rfl

theorem lookup_cons (m : κ × α) :
    lookup k (m :: ms) = if m.1 = k then some m.2 else lookup k ms := rfl

theorem lookup_eq_none_iff : lookup k ms = none ↔ k ∉ ms.map Prod.fst := by
  induction ms with
  | nil => simp
  | cons m ms ih =>
      rw [lookup_cons]
      by_cases h : m.1 = k
      · simp [h]
      · simp [h, ih, Ne.symm h]

theorem lookup_isSome_iff : (lookup k ms).isSome ↔ k ∈ ms.map Prod.fst := by
  rw [← not_iff_not, Bool.not_eq_true, Option.isSome_eq_false_iff, Option.isNone_iff_eq_none,
    lookup_eq_none_iff]

theorem lookup_map (f : α → β) : lookup k (ms.map fun m => (m.1, f m.2)) = (lookup k ms).map f := by
  induction ms with
  | nil => rfl
  | cons m ms ih =>
      rw [List.map_cons, lookup_cons, lookup_cons, ih]
      split <;> rfl

theorem lookup_append_singleton {m : κ × α} (h : m.1 ∉ ms.map Prod.fst) :
    lookup k (ms ++ [m]) = if m.1 = k then some m.2 else lookup k ms := by
  induction ms with
  | nil => rfl
  | cons n ms ih =>
      rw [List.map_cons, List.mem_cons, not_or] at h
      rw [List.cons_append, lookup_cons, lookup_cons, ih h.2]
      by_cases hn : n.1 = k
      · rw [if_pos hn, if_pos hn, if_neg fun hm => h.1 (hm.trans hn.symm)]
      · rw [if_neg hn, if_neg hn]

theorem mem_of_lookup (h : lookup k ms = some x) : (k, x) ∈ ms := by
  induction ms with
  | nil => cases h
  | cons m ms ih =>
      rw [lookup_cons] at h
      split at h
      · next hk =>
          cases h
          rw [← hk]
          simp
      · exact List.mem_cons_of_mem _ (ih h)

@[simp] theorem map_fst_replace : (replace k x ms).map Prod.fst = ms.map Prod.fst := by
  simp only [replace, List.map_map]
  refine List.map_congr_left fun m _ => ?_
  simp only [Function.comp_apply]
  split
  · next h => exact h.symm
  · rfl

theorem lookup_replace :
    lookup l (replace k x ms) = if k = l then (lookup k ms).map fun _ => x else lookup l ms := by
  induction ms with
  | nil => simp [replace]
  | cons m ms ih =>
      simp only [replace, List.map_cons] at ih ⊢
      rw [lookup_cons, ih, lookup_cons, lookup_cons]
      by_cases hm : m.1 = k
      · subst hm
        by_cases hl : m.1 = l <;> simp [hl]
      · by_cases hl : k = l
        · subst hl; simp [hm]
        · simp [hm, hl]

theorem mem_insertNew {m : κ × α} : m ∈ insertNew rank k x ms ↔ m = (k, x) ∨ m ∈ ms := by
  induction ms with
  | nil => simp [insertNew]
  | cons n ms ih =>
      rw [insertNew]
      split
      · simp
      · simp only [List.mem_cons, ih]
        tauto

theorem lookup_insertNew (hk : k ∉ ms.map Prod.fst) :
    lookup l (insertNew rank k x ms) = if k = l then some x else lookup l ms := by
  induction ms with
  | nil => rfl
  | cons m ms ih =>
      simp only [List.map_cons, List.mem_cons, not_or] at hk
      rw [insertNew]
      split
      · rfl
      · rw [lookup_cons, ih hk.2, lookup_cons]
        by_cases hl : k = l
        · subst hl; simp [Ne.symm hk.1]
        · simp [hl]

theorem lookup_set : lookup l (set rank k x ms) = if k = l then some x else lookup l ms := by
  unfold set
  split
  · next hk =>
      rw [lookup_replace]
      obtain ⟨y, hy⟩ := Option.isSome_iff_exists.1 (lookup_isSome_iff.2 hk)
      simp [hy]
  · next hk => exact lookup_insertNew hk

@[simp] theorem lookup_set_self : lookup k (set rank k x ms) = some x := by simp [lookup_set]

theorem lookup_set_of_ne (h : k ≠ l) : lookup l (set rank k x ms) = lookup l ms := by
  simp [lookup_set, h]

theorem erase_cons (m : κ × α) :
    erase k (m :: ms) = if m.1 = k then erase k ms else m :: erase k ms := by
  by_cases h : m.1 = k <;> simp [erase, h]

theorem lookup_erase : lookup l (erase k ms) = if k = l then none else lookup l ms := by
  induction ms with
  | nil => simp [erase]
  | cons m ms ih =>
      rw [erase_cons]
      by_cases hm : m.1 = k
      · rw [if_pos hm, ih, lookup_cons, hm]
        by_cases hl : k = l <;> simp [hl]
      · rw [if_neg hm, lookup_cons, ih, lookup_cons]
        by_cases hl : k = l
        · subst hl; simp [hm]
        · simp [hl]

/-! ## The order is kept -/

theorem ordered_insertNew (h : Ordered rank (ms.map Prod.fst)) (hk : k ∉ ms.map Prod.fst) :
    Ordered rank ((insertNew rank k x ms).map Prod.fst) := by
  induction ms with
  | nil => simp [insertNew, Ordered]
  | cons m ms ih =>
      simp only [List.map_cons, List.mem_cons, not_or] at hk
      obtain ⟨hm, hms⟩ := List.pairwise_cons.1 h
      rw [insertNew]
      split
      · next hpre =>
          refine List.pairwise_cons.2 ⟨?_, h⟩
          intro b hb
          rcases List.mem_cons.1 hb with rfl | hb
          · exact ⟨hk.1, hpre.asymm⟩
          · refine ⟨?_, fun hbk => (hm b hb).2 (hbk.trans hpre)⟩
            rintro rfl
            exact hk.2 hb
      · next hpre =>
          refine List.pairwise_cons.2 ⟨?_, ih hms hk.2⟩
          intro b hb
          obtain ⟨n, hn, rfl⟩ := List.mem_map.1 hb
          rcases mem_insertNew.1 hn with rfl | hn
          · exact ⟨Ne.symm hk.1, hpre⟩
          · exact hm _ (List.mem_map_of_mem hn)

theorem ordered_set (h : Ordered rank (ms.map Prod.fst)) :
    Ordered rank ((set rank k x ms).map Prod.fst) := by
  unfold set
  split
  · rwa [map_fst_replace]
  · next hk => exact ordered_insertNew h hk

theorem ordered_erase (h : Ordered rank (ms.map Prod.fst)) :
    Ordered rank ((erase k ms).map Prod.fst) :=
  h.sublist (List.filter_sublist.map _)

theorem ordered_foldl_set {acc : List (κ × α)} (h : Ordered rank (acc.map Prod.fst)) :
    Ordered rank ((ms.foldl (fun acc m => set rank m.1 m.2 acc) acc).map Prod.fst) := by
  induction ms generalizing acc with
  | nil => exact h
  | cons m ms ih => exact ih (ordered_set h)

theorem ordered_collapse : Ordered rank ((collapse rank ms).map Prod.fst) :=
  ordered_foldl_set List.Pairwise.nil

omit [DecidableEq κ] in
theorem insertNew_eq_append (h : ∀ m ∈ ms, ¬ Precedes rank k m.1) :
    insertNew rank k x ms = ms ++ [(k, x)] := by
  induction ms with
  | nil => rfl
  | cons m ms ih =>
      rw [insertNew, if_neg (h m (by simp)), ih fun n hn => h n (by simp [hn])]
      rfl

theorem foldl_set_of_ordered {acc : List (κ × α)}
    (h : Ordered rank ((acc ++ ms).map Prod.fst)) :
    ms.foldl (fun acc m => set rank m.1 m.2 acc) acc = acc ++ ms := by
  induction ms generalizing acc with
  | nil => simp
  | cons m ms ih =>
      have hm : ∀ n ∈ acc, n.1 ≠ m.1 ∧ ¬ Precedes rank m.1 n.1 := by
        intro n hn
        rw [List.map_append, Ordered, List.pairwise_append] at h
        exact h.2.2 n.1 (List.mem_map_of_mem hn) m.1 (by simp)
      have hnew : m.1 ∉ acc.map Prod.fst := by
        intro hmem
        obtain ⟨n, hn, hnm⟩ := List.mem_map.1 hmem
        exact (hm n hn).1 hnm
      have hset : set rank m.1 m.2 acc = acc ++ [m] := by
        rw [set, if_neg hnew, insertNew_eq_append fun n hn => (hm n hn).2]
      rw [List.foldl_cons, hset, ih (by simpa using h), List.append_assoc]
      rfl

/-- Members that are in order already are left as they are. -/
theorem collapse_of_ordered (h : Ordered rank (ms.map Prod.fst)) : collapse rank ms = ms := by
  have := @foldl_set_of_ordered _ _ _ _ ms [] h
  simpa [collapse] using this

/-! ## Values and writing -/

theorem mem_set {m : κ × α} (h : m ∈ set rank k x ms) : m = (k, x) ∨ m ∈ ms := by
  unfold set at h
  split at h
  · obtain ⟨n, hn, rfl⟩ := List.mem_map.1 h
    split
    · exact Or.inl rfl
    · exact Or.inr hn
  · exact mem_insertNew.1 h

/-- A collapsed member is a member of the text. -/
theorem mem_of_mem_collapse {m : κ × α} (h : m ∈ collapse rank ms) : m ∈ ms := by
  have haux : ∀ acc : List (κ × α),
      m ∈ ms.foldl (fun acc m => set rank m.1 m.2 acc) acc → m ∈ acc ∨ m ∈ ms := by
    clear h
    induction ms with
    | nil => exact fun acc h => Or.inl h
    | cons n ms ih =>
        intro acc h
        rcases ih _ h with h | h
        · rcases mem_set h with h | h
          · exact Or.inr (by simp [h])
          · exact Or.inl h
        · exact Or.inr (by simp [h])
  simpa using haux [] h

omit [DecidableEq κ] in
theorem insertNew_map (f : α → β) :
    (insertNew rank k x ms).map (fun m => (m.1, f m.2))
      = insertNew rank k (f x) (ms.map fun m => (m.1, f m.2)) := by
  induction ms with
  | nil => rfl
  | cons m ms ih =>
      rw [insertNew, List.map_cons, insertNew]
      split
      · rfl
      · rw [List.map_cons, ih]

/-- Mapping over values commutes with writing. -/
theorem set_map (f : α → β) :
    (set rank k x ms).map (fun m => (m.1, f m.2))
      = set rank k (f x) (ms.map fun m => (m.1, f m.2)) := by
  have hkeys : (ms.map fun m => (m.1, f m.2)).map Prod.fst = ms.map Prod.fst := by simp
  unfold set
  rw [hkeys]
  split
  · simp only [replace, List.map_map]
    refine List.map_congr_left fun m _ => ?_
    simp only [Function.comp_apply]
    split <;> rfl
  · exact insertNew_map f

/-- The order of names without an index does not depend on the order of indices. -/
theorem collapse_congr_rank (h : ∀ m ∈ ms, rank m.1 = none) :
    collapse rank ms = collapse (fun _ => none) ms := by
  have hset : ∀ (m : κ × α) (acc : List (κ × α)), rank m.1 = none →
      set rank m.1 m.2 acc = set (fun _ => none) m.1 m.2 acc := by
    intro m acc hm
    unfold set
    split
    · rfl
    · rw [insertNew_eq_append fun n _ => not_precedes_of_rank_eq_none hm,
        insertNew_eq_append fun n _ => not_precedes_of_rank_eq_none rfl]
  have haux : ∀ acc : List (κ × α), ms.foldl (fun acc m => set rank m.1 m.2 acc) acc
      = ms.foldl (fun acc m => set (fun _ => none) m.1 m.2 acc) acc := by
    induction ms with
    | nil => exact fun acc => rfl
    | cons m ms ih =>
        intro acc
        rw [List.foldl_cons, List.foldl_cons, hset m acc (h m (by simp)),
          ih fun n hn => h n (by simp [hn])]
  exact haux []

/-- Renaming the names of members that keep their order, in a way that can be undone. -/
theorem collapse_map_key {κ' : Type} [DecidableEq κ'] {f : κ → κ'} {g : κ' → κ} {v : α → β}
    (h : ∀ m ∈ ms, g (f m.1) = m.1) :
    collapse (fun _ => none) (ms.map fun m => (f m.1, v m.2))
      = (collapse (fun _ => none) ms).map fun m => (f m.1, v m.2) := by
  have hset : ∀ (m : κ × α) (acc : List (κ × α)), g (f m.1) = m.1 →
      (∀ n ∈ acc, g (f n.1) = n.1) →
      set (fun _ => none) (f m.1) (v m.2) (acc.map fun n => (f n.1, v n.2))
        = (set (fun _ => none) m.1 m.2 acc).map fun n => (f n.1, v n.2) := by
    intro m acc hm hacc
    have hmem : f m.1 ∈ (acc.map fun n => (f n.1, v n.2)).map Prod.fst ↔ m.1 ∈ acc.map Prod.fst := by
      simp only [List.map_map, List.mem_map, Function.comp_apply]
      constructor
      · rintro ⟨n, hn, heq⟩
        exact ⟨n, hn, by rw [← hacc n hn, heq, hm]⟩
      · rintro ⟨n, hn, heq⟩
        exact ⟨n, hn, by rw [heq]⟩
    unfold set
    by_cases hin : m.1 ∈ acc.map Prod.fst
    · rw [if_pos hin, if_pos (hmem.2 hin), replace, replace, List.map_map, List.map_map]
      refine List.map_congr_left fun n hn => ?_
      have heq : f n.1 = f m.1 ↔ n.1 = m.1 :=
        ⟨fun h => by rw [← hacc n hn, h, hm], fun h => by rw [h]⟩
      by_cases hnm : n.1 = m.1
      · simp [hnm]
      · simp [hnm, heq]
    · rw [if_neg hin, if_neg (hmem.not.2 hin),
        insertNew_eq_append fun n _ => not_precedes_of_rank_eq_none rfl,
        insertNew_eq_append fun n _ => not_precedes_of_rank_eq_none rfl]
      simp
  have haux : ∀ acc : List (κ × α), (∀ n ∈ acc, g (f n.1) = n.1) →
      (ms.map fun m => (f m.1, v m.2)).foldl (fun acc m => set (fun _ => none) m.1 m.2 acc)
          (acc.map fun m => (f m.1, v m.2))
        = (ms.foldl (fun acc m => set (fun _ => none) m.1 m.2 acc) acc).map
            fun m => (f m.1, v m.2) := by
    induction ms with
    | nil => exact fun acc _ => rfl
    | cons m ms ih =>
        intro acc hacc
        have hm := h m (by simp)
        rw [List.map_cons, List.foldl_cons, List.foldl_cons, hset m acc hm hacc]
        refine ih (fun n hn => h n (by simp [hn])) _ fun n hn => ?_
        rcases mem_set hn with rfl | hn
        · exact hm
        · exact hacc n hn
  exact haux [] (by simp)

/-! ## Writing back what was removed -/

omit [DecidableEq κ] in
theorem Ordered.not_mem_of_cons {m : κ × α} (h : Ordered rank ((m :: ms).map Prod.fst)) :
    m.1 ∉ ms.map Prod.fst := fun hmem =>
  ((List.pairwise_cons.1 h).1 m.1 hmem).1 rfl

theorem erase_of_not_mem (h : k ∉ ms.map Prod.fst) : erase k ms = ms := by
  refine List.filter_eq_self.2 fun m hm => ?_
  simpa using fun hmk : m.1 = k => h (hmk ▸ List.mem_map_of_mem hm)

/-- A removed member whose name has an index comes back to its place. -/
theorem set_erase_of_rank (hinj : ∀ a b n, rank a = some n → rank b = some n → a = b)
    (h : Ordered rank (ms.map Prod.fst)) (hx : lookup k ms = some x) {n : ℕ}
    (hn : rank k = some n) : set rank k x (erase k ms) = ms := by
  have hnew : k ∉ (erase k ms).map Prod.fst := by
    rw [← lookup_eq_none_iff, lookup_erase, if_pos rfl]
  rw [set, if_neg hnew]
  clear hnew
  induction ms with
  | nil => cases hx
  | cons m ms ih =>
      rw [lookup_cons] at hx
      rw [erase_cons]
      by_cases hm : m.1 = k
      · obtain ⟨l, y⟩ := m
        obtain rfl : l = k := hm
        obtain rfl : y = x := by simpa using hx
        rw [if_pos rfl, erase_of_not_mem h.not_mem_of_cons]
        cases ms with
        | nil => rfl
        | cons m' ms' =>
            obtain ⟨hne, hpre⟩ := (List.pairwise_cons.1 h).1 m'.1 (by simp)
            have : Precedes rank l m'.1 := by
              cases hr : rank m'.1 with
              | none => exact precedes_of_none hn hr
              | some n' =>
                  have hnn : n ≠ n' := by
                    rintro rfl
                    exact hne (hinj l m'.1 n hn hr)
                  exact (precedes_or_precedes hn hr hnn).resolve_right hpre
            rw [insertNew, if_pos this]
      · rw [if_neg hm] at hx ⊢
        have hk : k ∈ ms.map Prod.fst := lookup_isSome_iff.1 (by rw [hx]; rfl)
        have hpre := ((List.pairwise_cons.1 h).1 k hk).2
        rw [insertNew, if_neg hpre, ih (List.pairwise_cons.1 h).2 hx]

/-- A removed member whose name has no index comes back at the end. -/
theorem set_erase_of_rank_none (hr : rank k = none) :
    set rank k x (erase k ms) = erase k ms ++ [(k, x)] := by
  have hnew : k ∉ (erase k ms).map Prod.fst := by
    rw [← lookup_eq_none_iff, lookup_erase, if_pos rfl]
  rw [set, if_neg hnew, insertNew_eq_append fun m _ => not_precedes_of_rank_eq_none hr]

theorem erase_append_eq_iff (h : Ordered rank (ms.map Prod.fst)) (hx : lookup k ms = some x) :
    erase k ms ++ [(k, x)] = ms ↔ (ms.map Prod.fst).getLast? = some k := by
  constructor
  · intro heq
    rw [← heq]
    simp
  · intro hlast
    obtain ⟨ks, hks⟩ := List.getLast?_eq_some_iff.1 hlast
    obtain ⟨ns, m, rfl, rfl, hm⟩ : ∃ ns m, ms = ns ++ [m] ∧ ns.map Prod.fst = ks ∧ m.1 = k := by
      obtain ⟨ns, rest, rfl, hns, hrest⟩ := List.map_eq_append_iff.1 hks
      obtain ⟨m, rest', rfl, hm, hnil⟩ := List.map_eq_cons_iff.1 hrest
      obtain rfl := List.map_eq_nil_iff.1 hnil
      exact ⟨ns, m, rfl, hns, hm⟩
    have hns : k ∉ ns.map Prod.fst := by
      intro hmem
      rw [List.map_append, Ordered, List.pairwise_append] at h
      exact (h.2.2 k hmem k (by simp [hm])).1 rfl
    have hxm : m.2 = x := by
      rw [lookup_append_singleton (hm ▸ hns), if_pos hm] at hx
      exact Option.some.inj hx
    have hfilter : erase k (ns ++ [m]) = ns := by
      have := erase_of_not_mem hns
      simp only [erase] at this ⊢
      rw [List.filter_append, this]
      simp [hm]
    rw [hfilter, ← hm, ← hxm]

end

/-! ## Writing back what was written -/

section

variable [DecidableEq κ] {rank : κ → Option ℕ} {k : κ} {x y : α} {ms : List (κ × α)}

theorem replace_of_not_mem (h : k ∉ ms.map Prod.fst) : replace k x ms = ms := by
  refine (List.map_congr_left fun m hm => ?_).trans (List.map_id _)
  rw [if_neg fun hmk : m.1 = k => h (hmk ▸ List.mem_map_of_mem hm)]
  rfl

theorem replace_replace (h : lookup k ms = some y) (hnodup : (ms.map Prod.fst).Nodup) :
    replace k y (replace k x ms) = ms := by
  induction ms with
  | nil => cases h
  | cons m ms ih =>
      rw [List.map_cons, List.nodup_cons] at hnodup
      simp only [replace, List.map_cons] at ih ⊢
      rw [lookup_cons] at h
      by_cases hm : m.1 = k
      · rw [if_pos hm] at h
        obtain ⟨l, z⟩ := m
        obtain rfl : l = k := hm
        cases h
        have hms := replace_of_not_mem (x := x) hnodup.1
        have hms' := replace_of_not_mem (x := z) hnodup.1
        simp only [replace] at hms hms'
        simp only [if_true, hms, hms']
      · rw [if_neg hm] at h
        simp only [if_neg hm, ih h hnodup.2]

theorem erase_insertNew (h : k ∉ ms.map Prod.fst) : erase k (insertNew rank k x ms) = ms := by
  induction ms with
  | nil => simp [insertNew, erase]
  | cons m ms ih =>
      have hms := erase_of_not_mem h
      simp only [List.map_cons, List.mem_cons, not_or] at h
      rw [insertNew]
      split
      · rw [erase_cons, if_pos rfl, hms]
      · rw [erase_cons, if_neg (Ne.symm h.1), ih h.2]

end

/-! ## Member sequences -/

/-- Members with distinct names, in enumeration order. -/
@[ext] structure Members (rank : κ → Option ℕ) (α : Type) where
  entries : List (κ × α)
  ordered : Ordered rank (entries.map Prod.fst)

namespace Members

variable {rank : κ → Option ℕ}

/-- The names, in enumeration order. -/
def keys (d : Members rank α) : List κ := d.entries.map Prod.fst

theorem nodup_keys (d : Members rank α) : d.keys.Nodup :=
  d.ordered.imp fun h => h.1

variable [DecidableEq κ]

/-- No members. -/
def empty : Members rank α := ⟨[], List.Pairwise.nil⟩

/-- The members an object text leaves. -/
def ofList (ms : List (κ × α)) : Members rank α := ⟨collapse rank ms, ordered_collapse⟩

/-- The value at a name. -/
def get (d : Members rank α) (k : κ) : Option α := lookup k d.entries

/-- Write a member. -/
def set (d : Members rank α) (k : κ) (x : α) : Members rank α :=
  ⟨Json.set rank k x d.entries, ordered_set d.ordered⟩

/-- Remove a member. -/
def erase (d : Members rank α) (k : κ) : Members rank α :=
  ⟨Json.erase k d.entries, ordered_erase d.ordered⟩

variable {d : Members rank α} {k l : κ} {x : α}

theorem get_set : (d.set k x).get l = if k = l then some x else d.get l := lookup_set

@[simp] theorem get_set_self : (d.set k x).get k = some x := lookup_set_self

theorem get_set_of_ne (h : k ≠ l) : (d.set k x).get l = d.get l := lookup_set_of_ne h

theorem get_erase : (d.erase k).get l = if k = l then none else d.get l := lookup_erase

/-- A write updates the document as a function. -/
theorem get_set_eq_update (d : Members rank α) (k : κ) (x : α) :
    (d.set k x).get = Function.update d.get k (some x) := by
  funext l
  rw [get_set, Function.update_apply]
  exact if_congr eq_comm rfl rfl

theorem get_erase_eq_update (d : Members rank α) (k : κ) :
    (d.erase k).get = Function.update d.get k none := by
  funext l
  rw [get_erase, Function.update_apply]
  exact if_congr eq_comm rfl rfl

@[simp] theorem get_empty : (empty : Members rank α).get k = none := rfl

theorem get_eq_none_iff : d.get k = none ↔ k ∉ d.keys := lookup_eq_none_iff

theorem get_of_mem {m : κ × α} (h : m ∈ d.entries) : d.get m.1 = some m.2 := by
  obtain ⟨ms, hms⟩ := d
  simp only [get] at h ⊢
  induction ms with
  | nil => cases h
  | cons n ms ih =>
      rw [lookup_cons]
      rcases List.mem_cons.1 h with rfl | h
      · rw [if_pos rfl]
      · have hne : n.1 ≠ m.1 := fun heq => hms.not_mem_of_cons (heq ▸ List.mem_map_of_mem h)
        rw [if_neg hne, ih (List.pairwise_cons.1 hms).2 h]

theorem get_isSome_iff : (d.get k).isSome ↔ k ∈ d.keys := lookup_isSome_iff

/-- Keep the members whose names pass. -/
def retain (d : Members rank α) (p : κ → Bool) : Members rank α :=
  ⟨d.entries.filter fun m => p m.1, d.ordered.sublist (List.filter_sublist.map _)⟩

theorem get_eq_some_iff {y : α} : d.get k = some y ↔ (k, y) ∈ d.entries :=
  ⟨mem_of_lookup, fun h => get_of_mem h⟩

theorem get_retain {p : κ → Bool} : (d.retain p).get k = if p k then d.get k else none := by
  refine Option.ext fun y => ?_
  have h : (d.retain p).get k = some y ↔ (k, y) ∈ d.entries ∧ p k = true :=
    get_eq_some_iff.trans List.mem_filter
  rw [h]
  cases p k with
  | true => simp [get_eq_some_iff]
  | false => simp

theorem get_of_get_retain {p : κ → Bool} {y : α} (h : (d.retain p).get k = some y) :
    d.get k = some y :=
  get_eq_some_iff.2 (List.mem_filter.1 (get_eq_some_iff.1 h)).1

/-! ### Undoing a write -/

/-- What a host is left with when it writes a member and then undoes the write: the
previous value is written back, or the new member removed. -/
def undoSet (d : Members rank α) (k : κ) (x : α) : Members rank α :=
  match d.get k with
  | some previous => (d.set k x).set k previous
  | none => (d.set k x).erase k

/-- What a host is left with when it removes a member and then writes it back. -/
def undoErase (d : Members rank α) (k : κ) : Members rank α :=
  match d.get k with
  | some previous => (d.erase k).set k previous
  | none => d.erase k

theorem entries_set_of_mem (h : k ∈ d.keys) : (d.set k x).entries = replace k x d.entries :=
  if_pos h

/-- Undoing a write of a member gives the members there were. -/
theorem undoSet_eq (d : Members rank α) (k : κ) (x : α) : d.undoSet k x = d := by
  unfold undoSet
  split
  · next previous hprevious =>
      have hmem : k ∈ d.keys := get_isSome_iff.1 (by rw [hprevious]; rfl)
      have hmem' : k ∈ (d.set k x).keys := get_isSome_iff.1 (by rw [get_set_self]; rfl)
      ext1
      rw [entries_set_of_mem hmem', entries_set_of_mem hmem]
      exact replace_replace hprevious d.nodup_keys
  · next hnone =>
      ext1
      have hmem := get_eq_none_iff.1 hnone
      exact (congrArg (Json.erase k) (if_neg hmem)).trans (erase_insertNew hmem)

theorem erase_of_get_eq_none (h : d.get k = none) : d.erase k = d := by
  ext1
  exact erase_of_not_mem (get_eq_none_iff.1 h)

/-- Undoing a removal gives the members there were, unless the name was there, has no
index, and was not the last one. -/
theorem undoErase_eq_iff (hinj : ∀ a b n, rank a = some n → rank b = some n → a = b)
    (d : Members rank α) (k : κ) :
    d.undoErase k = d ↔ k ∉ d.keys ∨ (rank k).isSome ∨ d.keys.getLast? = some k := by
  unfold undoErase
  split
  · next previous hprevious =>
      have hmem : k ∈ d.keys := get_isSome_iff.1 (by rw [hprevious]; rfl)
      cases hr : rank k with
      | some n =>
          have : (d.erase k).set k previous = d := by
            ext1
            exact set_erase_of_rank hinj d.ordered hprevious hr
          simp [this]
      | none =>
          have hset : (d.erase k).set k previous = d ↔
              Json.erase k d.entries ++ [(k, previous)] = d.entries := by
            rw [Members.ext_iff, ← set_erase_of_rank_none hr]
            rfl
          rw [hset, erase_append_eq_iff d.ordered hprevious]
          constructor
          · exact fun h => Or.inr (Or.inr h)
          · rintro (h | h | h)
            · exact absurd hmem h
            · cases h
            · exact h
  · next hnone =>
      have hmem := get_eq_none_iff.1 hnone
      exact iff_of_true (erase_of_get_eq_none hnone) (Or.inl hmem)

/-- Undoing a removal keeps every value. -/
theorem get_undoErase : (d.undoErase k).get l = d.get l := by
  unfold undoErase
  split
  · next previous hprevious =>
      rw [get_set, get_erase]
      by_cases h : k = l
      · subst h; simp [hprevious]
      · simp [h]
  · next hnone => rw [erase_of_get_eq_none hnone]

/-! ### Members that satisfy a condition -/

theorem mem_map_filter {p : κ → α → Bool} (h : d.get k = some x) :
    k ∈ (d.entries.filter fun m => p m.1 m.2).map Prod.fst ↔ p k x := by
  rw [List.mem_map]
  constructor
  · rintro ⟨m, hm, rfl⟩
    obtain ⟨hentry, hpass⟩ := List.mem_filter.1 hm
    rw [get_of_mem hentry] at h
    cases h
    exact hpass
  · exact fun hpass => ⟨(k, x), List.mem_filter.2 ⟨mem_of_lookup h, hpass⟩, rfl⟩

/-- Their names, each once. -/
theorem count_map_filter [BEq κ] [LawfulBEq κ] (p : κ → α → Bool) (h : d.get k = some x) :
    ((d.entries.filter fun m => p m.1 m.2).map Prod.fst).count k = if p k x then 1 else 0 := by
  have hnodup : ((d.entries.filter fun m => p m.1 m.2).map Prod.fst).Nodup :=
    d.nodup_keys.sublist (List.filter_sublist.map _)
  split_ifs with hpass
  · exact List.count_eq_one_of_mem hnodup ((mem_map_filter h).2 hpass)
  · exact List.count_eq_zero.2 fun hmem => hpass ((mem_map_filter h).1 hmem)

omit [DecidableEq κ] in
theorem mem_keys_of_mem_filter {p : κ → α → Bool}
    (h : k ∈ (d.entries.filter fun m => p m.1 m.2).map Prod.fst) : k ∈ d.keys := by
  obtain ⟨m, hm, rfl⟩ := List.mem_map.1 h
  exact List.mem_map_of_mem (List.mem_filter.1 hm).1

/-! ### Members that agree off a name -/

theorem keys_set (d : Members rank α) (k : κ) (x : α) :
    (d.set k x).keys = (Json.set rank k () (d.keys.map fun l => (l, ()))).map Prod.fst := by
  have h : (Json.set rank k x d.entries).map (fun m => (m.1, ()))
      = Json.set rank k () (d.entries.map fun m => (m.1, ())) := set_map fun _ => ()
  replace h := congrArg (List.map Prod.fst) h
  simpa [keys, set, Function.comp_def] using h

theorem keys_erase (d : Members rank α) (k : κ) : (d.erase k).keys = d.keys.filter (· ≠ k) := by
  simp only [keys, erase, Json.erase, List.filter_map]
  rfl

/-- The same names in the same order, and the same value at every name but one. -/
structure AgreeOff (k : κ) (d d' : Members rank α) : Prop where
  keys : d.keys = d'.keys
  get : ∀ l, l ≠ k → d.get l = d'.get l

variable {d' : Members rank α}

theorem AgreeOff.set (h : AgreeOff k d d') (l : κ) (x : α) :
    AgreeOff k (d.set l x) (d'.set l x) where
  keys := by rw [keys_set, keys_set, h.keys]
  get := fun m hm => by rw [get_set, get_set, h.get m hm]

theorem AgreeOff.erase (h : AgreeOff k d d') (l : κ) : AgreeOff k (d.erase l) (d'.erase l) where
  keys := by rw [keys_erase, keys_erase, h.keys]
  get := fun m hm => by rw [get_erase, get_erase, h.get m hm]

theorem AgreeOff.undoErase (h : AgreeOff k d d') (hl : l ≠ k) :
    AgreeOff k (d.undoErase l) (d'.undoErase l) := by
  unfold Members.undoErase
  rw [h.get l hl]
  cases d'.get l with
  | none => exact h.erase l
  | some x => exact (h.erase l).set l x

end Members

end Json
