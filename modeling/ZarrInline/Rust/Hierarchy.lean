import ZarrInline.Json.Results
import ZarrInline.Rust.Lenient
import ZarrInline.Text.Directory
import ZarrInline.Text.Splitting

/-!
# The hierarchy that the Rust store lists

`list_dir` derives directories from flat keys.  It suppresses a prefix only if it was found
last, which is enough in sorted keys: `listDir_eq` reads off what a directory holds, and
`listing_faithful` says that the directories, from the root down, hold each key once.
-/

namespace Rust

variable {Z : Zarrs} {s : Store} {key dir q : RustString}

/-- In ascending order of bytes, and so without repetition. -/
def Ascending (keys : List RustString) : Prop := keys.Pairwise fun a b => asBytes a < asBytes b

theorem ascending_iff {keys : List RustString} : Ascending keys ↔ keys.Pairwise (· < ·) := by
  simp only [Ascending, asBytes_lt_iff]

/-! ## What `zarrs` accepts -/

/-- The well-formed keys, and the prefixes of such keys that end in `/`, are accepted. -/
structure Zarrs.Accepts (Z : Zarrs) : Prop where
  storeKey : ∀ key, checkKey key = none → Z.storeKey key = true
  storePrefix : ∀ key dir, checkKey key = none → dir ++ ['/'] <+: key →
    Z.storePrefix (dir ++ ['/']) = true

/-- Keys without a `/` at an end and without two in a row, and prefixes that end in `/` and do
not begin with it. -/
def zarrs : Zarrs where
  storeKey := fun key =>
    !"/".toList.isPrefixOf key && !"/".toList.isSuffixOf key && !decide ("//".toList <:+: key)
  storePrefix := fun dir =>
    dir.isEmpty || (!"/".toList.isPrefixOf dir && "/".toList.isSuffixOf dir)

/-- A well-formed key has no `/` at an end and no two in a row. -/
theorem of_checkKey (h : checkKey key = none) :
    "/".toList.isPrefixOf key = false ∧ "/".toList.isSuffixOf key = false ∧
      ¬ "//".toList <:+: key := by
  have hmessage : Rules.keyMessage? id key = none := by
    rw [checkKey, Rules.checkKey] at h
    exact Option.map_eq_none_iff.1 h
  rw [Rules.keyMessage?] at hmessage
  split at hmessage
  · next hkey =>
      subst hkey
      decide
  · split at hmessage
    · cases hmessage
    · next hends =>
        obtain ⟨hfirst, hlast⟩ := not_or.1 hends
        refine ⟨Bool.eq_false_iff.2 hfirst, Bool.eq_false_iff.2 hlast, ?_⟩
        rintro ⟨before, after, hkey⟩
        have hempty : [] ∈ key.splitOn '/' := by
          rw [← hkey]
          exact List.mem_of_mem_tail (Text.nil_mem_tail_splitOn before after)
        exact Rules.nil_notMem_of_segmentMessage? hmessage hempty

theorem zarrs_accepts : zarrs.Accepts where
  storeKey := by
    intro key hkey
    obtain ⟨hfirst, hlast, hinner⟩ := of_checkKey hkey
    simp only [zarrs, hfirst, hlast, hinner, decide_false, Bool.not_false, Bool.and_self]
  storePrefix := by
    intro key dir hkey hdir
    obtain ⟨hfirst, -, -⟩ := of_checkKey hkey
    have hdirfirst : "/".toList.isPrefixOf (dir ++ ['/']) = false := by
      refine Bool.eq_false_iff.2 fun h => Bool.eq_false_iff.1 hfirst ?_
      exact List.isPrefixOf_iff_prefix.2 ((List.isPrefixOf_iff_prefix.1 h).trans hdir)
    have hdirlast : "/".toList.isSuffixOf (dir ++ ['/']) = true :=
      List.isSuffixOf_iff_suffix.2 (List.suffix_append dir ['/'])
    simp only [zarrs, hdirfirst, hdirlast, Bool.not_false, Bool.and_self, Bool.or_true]

/-! ## The lists -/

theorem mem_sortedKeys : key ∈ s.sortedKeys ↔ key ∈ s.keys := Text.mem_sortStrings

theorem sortedKeys_ascending (s : Store) : s.sortedKeys.Pairwise (· < ·) := by
  have hnodup : s.sortedKeys.Nodup := (Text.sortStrings_perm s.keys).nodup_iff.2 (nodup_keys s)
  exact ((Text.sortStrings_sorted s.keys).and hnodup).imp fun h => lt_of_le_of_ne h.1 h.2

section

variable (hZ : Z.Accepts) (hs : ∀ key ∈ s.keys, checkKey key = none)
include hZ hs

theorem list_eq : s.list Z = s.sortedKeys :=
  List.filter_eq_self.2 fun key hkey => hZ.storeKey key (hs key (mem_sortedKeys.1 hkey))

theorem mem_listPrefix : key ∈ s.listPrefix Z dir ↔ key ∈ s.keys ∧ dir <+: key := by
  rw [Store.listPrefix, List.mem_filter, List.mem_filter, mem_sortedKeys, List.isPrefixOf_iff_prefix]
  exact ⟨And.left, fun h => ⟨h, hZ.storeKey key (hs key h.1)⟩⟩

omit hZ hs in
theorem nodup_listPrefix (s : Store) (dir : RustString) : (s.listPrefix Z dir).Nodup :=
  (((sortedKeys_ascending s).imp fun h => h.ne).filter _).filter _

omit hs in
/-- One round of `list_dir`. -/
theorem listDirStep_eq (hkey : checkKey key = none) (found : List RustString × List RustString) :
    Store.listDirStep Z dir found key
      = (if Text.isDirect '/' dir key then found.1 ++ [key] else found.1,
          (Text.child? '/' dir key).elim found.2 (Text.pushNew found.2)) := by
  rw [Store.listDirStep, stripPrefix]
  by_cases hdir : dir.isPrefixOf key = true
  · by_cases hsep : '/' ∈ key.drop dir.length
    · have hchild : Text.child? '/' dir key
          = some (dir ++ (key.drop dir.length).takeWhile (· ≠ '/') ++ ['/']) := by
        rw [List.append_assoc]
        exact if_pos ⟨hdir, hsep⟩
      have hdirect : Text.isDirect '/' dir key = false := by simp [Text.isDirect, hsep]
      obtain ⟨child, -, hq, hpre⟩ := Text.child?_eq_some_iff.1 hchild
      have haccept := hZ.storePrefix key _ hkey hpre
      simp only [hdir, if_true, hsep, haccept, hchild, hdirect, true_and, Bool.false_eq_true,
        if_false, Option.elim_some, Text.pushNew, ne_eq, ite_not]
      split <;> rfl
    · have hchild : Text.child? '/' dir key = none := if_neg fun h => hsep h.2
      have hdirect : Text.isDirect '/' dir key = true := by simp [Text.isDirect, hdir, hsep]
      simp only [hdir, if_true, hsep, if_false, hZ.storeKey key hkey, hchild, hdirect,
        Option.elim_none]
  · have hchild : Text.child? '/' dir key = none := if_neg fun h => hdir h.1
    have hdirect : Text.isDirect '/' dir key = false := by simp [Text.isDirect, hdir]
    simp only [hdir, Bool.false_eq_true, if_false, hchild, hdirect, Option.elim_none]

/-- The loop of `list_dir`. -/
theorem foldl_listDirStep {keys : List RustString} (hkeys : ∀ key ∈ keys, key ∈ s.keys)
    (found : List RustString × List RustString) :
    keys.foldl (Store.listDirStep Z dir) found
      = (found.1 ++ keys.filter (Text.isDirect '/' dir),
          (keys.filterMap (Text.child? '/' dir)).foldl Text.pushNew found.2) := by
  induction keys generalizing found with
  | nil => simp
  | cons key keys ih =>
      have hkey := hs key (hkeys key List.mem_cons_self)
      rw [List.foldl_cons, ih fun k hk => hkeys k (List.mem_cons_of_mem _ hk), listDirStep_eq hZ hkey,
        List.filter_cons, List.filterMap_cons]
      cases Text.isDirect '/' dir key <;> cases Text.child? '/' dir key <;> simp

/-- What `list_dir` finds. -/
theorem listDir_eq : s.listDir Z dir = (s.sortedKeys.filter (Text.isDirect '/' dir),
    (s.sortedKeys.filterMap (Text.child? '/' dir)).foldl Text.pushNew []) := by
  rw [Store.listDir, foldl_listDirStep hZ hs (fun _ => mem_sortedKeys.1), List.nil_append]

theorem mem_listDir_keys : key ∈ (s.listDir Z dir).1 ↔
    key ∈ s.keys ∧ ∃ rest, '/' ∉ rest ∧ key = dir ++ rest := by
  rw [listDir_eq hZ hs, List.mem_filter, mem_sortedKeys, Text.isDirect_iff]

theorem mem_listDir_prefixes : q ∈ (s.listDir Z dir).2 ↔
    ∃ key ∈ s.keys, Text.child? '/' dir key = some q := by
  rw [listDir_eq hZ hs, Text.mem_foldl_pushNew, List.mem_filterMap]
  simp only [List.not_mem_nil, false_or, mem_sortedKeys]

theorem listDir_ascending : (s.listDir Z dir).1.Pairwise (· < ·) ∧
    (s.listDir Z dir).2.Pairwise (· < ·) := by
  rw [listDir_eq hZ hs]
  refine ⟨(sortedKeys_ascending s).filter _, ?_⟩
  exact Text.foldl_pushNew (Text.children_sorted ((sortedKeys_ascending s).imp le_of_lt))
    List.Pairwise.nil fun _ h => by cases h

/-- The keys below a directory are those in it and those below its children. -/
theorem listPrefix_perm : (s.listPrefix Z dir).Perm
    ((s.listDir Z dir).1 ++ (s.listDir Z dir).2.flatMap (s.listPrefix Z)) := by
  obtain ⟨hkeys, hprefixes⟩ : (s.listDir Z dir).1.Pairwise (· < ·) ∧
      (s.listDir Z dir).2.Pairwise (· < ·) := listDir_ascending hZ hs
  have hbelow : ∀ {key q}, q ∈ (s.listDir Z dir).2 → key ∈ s.listPrefix Z q →
      Text.child? '/' dir key = some q := by
    intro key q hq hkey
    obtain ⟨k, -, hk⟩ := (mem_listDir_prefixes hZ hs).1 hq
    obtain ⟨child, hchild, rfl, -⟩ := Text.child?_eq_some_iff.1 hk
    exact Text.child?_eq_some_iff.2 ⟨child, hchild, rfl, ((mem_listPrefix hZ hs).1 hkey).2⟩
  refine (List.perm_ext_iff_of_nodup (nodup_listPrefix s dir) ?_).2 fun key => ?_
  · refine List.nodup_append.2 ⟨hkeys.imp fun h => h.ne, List.nodup_flatMap.2
      ⟨fun q _ => nodup_listPrefix s q, ?_⟩, fun a ha b hb => ?_⟩
    · refine hprefixes.imp_of_mem fun {q r} hq hr hlt key hkq hkr => hlt.ne ?_
      exact Option.some.inj ((hbelow hq hkq).symm.trans (hbelow hr hkr))
    · rintro rfl
      obtain ⟨q, hq, hkey⟩ := List.mem_flatMap.1 hb
      obtain ⟨-, rest, hrest, rfl⟩ := (mem_listDir_keys hZ hs).1 ha
      have hnone : Text.child? '/' dir (dir ++ rest) = none :=
        Text.child?_of_isDirect (Text.isDirect_iff.2 ⟨rest, hrest, rfl⟩)
      exact Option.some_ne_none _ ((hbelow hq hkey).symm.trans hnone)
  · have hchild : ∀ key : RustString, dir.isPrefixOf key = true ↔
        Text.isDirect '/' dir key = true ∨ ∃ q, Text.child? '/' dir key = some q :=
      fun key => Text.isPrefixOf_iff_child
    rw [mem_listPrefix hZ hs, List.mem_append, List.mem_flatMap, mem_listDir_keys hZ hs,
      ← Text.isDirect_iff, ← List.isPrefixOf_iff_prefix, hchild key]
    constructor
    · rintro ⟨hkey, hdirect | ⟨q, hq⟩⟩
      · exact Or.inl ⟨hkey, hdirect⟩
      · obtain ⟨child, hchild, rfl, hpre⟩ := Text.child?_eq_some_iff.1 hq
        exact Or.inr ⟨_, (mem_listDir_prefixes hZ hs).2 ⟨key, hkey, hq⟩,
          (mem_listPrefix hZ hs).2 ⟨hkey, hpre⟩⟩
    · rintro (⟨hkey, hdirect⟩ | ⟨q, hq, hkey⟩)
      · exact ⟨hkey, Or.inl hdirect⟩
      · exact ⟨((mem_listPrefix hZ hs).1 hkey).1, Or.inr ⟨q, hbelow hq hkey⟩⟩

end

/-! ## The tree -/

/-- The keys of `list_dir`, then those of its prefixes in turn, at most `n` deep. -/
def Store.expand (Z : Zarrs) (s : Store) : ℕ → RustString → Option (List RustString)
  | 0, _ => none
  | n + 1, dir => do
      let below ← (s.listDir Z dir).2.mapM (s.expand Z n)
      return (s.listDir Z dir).1 ++ below.flatten

/-- The expansion of a directory ends at the depth of its longest key, and finds its keys. -/
theorem exists_expand (hZ : Z.Accepts) (hs : ∀ key ∈ s.keys, checkKey key = none) {n : ℕ}
    (hn : ∀ key ∈ s.keys, dir <+: key → key.length ≤ dir.length + n) :
    ∃ keys, keys.Perm (s.listPrefix Z dir) ∧ ∀ m, n < m → s.expand Z m dir = some keys := by
  induction n generalizing dir with
  | zero =>
      have hnone : (s.listDir Z dir).2 = [] := by
        refine List.eq_nil_iff_forall_not_mem.2 fun q hq => ?_
        obtain ⟨key, hkey, hchild⟩ := (mem_listDir_prefixes hZ hs).1 hq
        obtain ⟨child, -, rfl, hpre⟩ := Text.child?_eq_some_iff.1 hchild
        have hlen := hn key hkey ((List.prefix_append dir (child ++ ['/'])).trans
          (List.append_assoc dir child ['/'] ▸ hpre))
        have hle := hpre.length_le
        simp only [List.length_append, List.length_singleton] at hle
        omega
      refine ⟨(s.listDir Z dir).1, ?_, fun m hm => ?_⟩
      · have hperm : (s.listPrefix Z dir).Perm _ := listPrefix_perm hZ hs
        rw [hnone, List.flatMap_nil, List.append_nil] at hperm
        exact hperm.symm
      · obtain ⟨m, rfl⟩ := Nat.exists_eq_succ_of_ne_zero (Nat.ne_of_gt hm)
        rw [Store.expand, hnone, List.mapM_nil]
        exact congrArg some (List.append_nil _)
  | succ n ih =>
      have hbelow : ∀ q, ∃ keys, q ∈ (s.listDir Z dir).2 → keys.Perm (s.listPrefix Z q) ∧
          ∀ m, n < m → s.expand Z m q = some keys := by
        intro q
        by_cases hq : q ∈ (s.listDir Z dir).2
        · obtain ⟨k, -, hchild⟩ := (mem_listDir_prefixes hZ hs).1 hq
          obtain ⟨child, -, rfl, -⟩ := Text.child?_eq_some_iff.1 hchild
          obtain ⟨keys, hkeys⟩ := @ih (dir ++ child ++ ['/']) fun key hkey hpre => by
            have hlen := hn key hkey ((List.prefix_append dir (child ++ ['/'])).trans
              (List.append_assoc dir child ['/'] ▸ hpre))
            simp only [List.length_append, List.length_singleton]
            omega
          exact ⟨keys, fun _ => hkeys⟩
        · exact ⟨[], fun h => absurd h hq⟩
      choose below hbelow using hbelow
      refine ⟨(s.listDir Z dir).1 ++ (s.listDir Z dir).2.flatMap below, ?_, fun m hm => ?_⟩
      · refine List.Perm.trans (List.Perm.append_left _ ?_) (listPrefix_perm hZ hs).symm
        exact List.Perm.flatMap_left _ fun q hq => (hbelow q hq).1
      · obtain ⟨m, rfl⟩ := Nat.exists_eq_succ_of_ne_zero (Nat.ne_of_gt (Nat.zero_lt_of_lt hm))
        rw [Store.expand, Json.mapM_eq_some fun q hq => (hbelow q hq).2 m (Nat.succ_lt_succ_iff.1 hm)]
        rfl

/-- What `list_dir` and `list_prefix` are to find below `dir`: the keys that are `dir` and a
name without a separator, a prefix for each name with a key below it, and all keys. -/
structure ListsDirectory (Z : Zarrs) (s : Store) (dir : RustString) : Prop where
  keys : ∀ key, key ∈ (s.listDir Z dir).1 ↔ key ∈ s.keys ∧ ∃ rest, '/' ∉ rest ∧ key = dir ++ rest
  prefixes : ∀ q, q ∈ (s.listDir Z dir).2 ↔
    ∃ child, '/' ∉ child ∧ q = dir ++ child ++ ['/'] ∧ ∃ key ∈ s.keys, q <+: key
  keys_ascending : Ascending (s.listDir Z dir).1
  prefixes_ascending : Ascending (s.listDir Z dir).2
  below : ∀ key, key ∈ s.listPrefix Z dir ↔ key ∈ s.keys ∧ dir <+: key
  union : (s.listPrefix Z dir).Perm
    ((s.listDir Z dir).1 ++ (s.listDir Z dir).2.flatMap (s.listPrefix Z))
  disjoint : ((s.listDir Z dir).1 ++ (s.listDir Z dir).2.flatMap (s.listPrefix Z)).Nodup

theorem listsDirectory (hZ : Z.Accepts) (hs : ∀ key ∈ s.keys, checkKey key = none)
    (dir : RustString) : ListsDirectory Z s dir where
  keys := fun _ => mem_listDir_keys hZ hs
  prefixes := by
    intro q
    rw [mem_listDir_prefixes hZ hs]
    simp only [Text.child?_eq_some_iff]
    constructor
    · rintro ⟨key, hkey, child, hchild, rfl, hpre⟩
      exact ⟨child, hchild, rfl, key, hkey, hpre⟩
    · rintro ⟨child, hchild, rfl, key, hkey, hpre⟩
      exact ⟨key, hkey, child, hchild, rfl, hpre⟩
  keys_ascending := ascending_iff.2 (listDir_ascending hZ hs).1
  prefixes_ascending := ascending_iff.2 (listDir_ascending hZ hs).2
  below := fun _ => mem_listPrefix hZ hs
  union := listPrefix_perm hZ hs
  disjoint := (listPrefix_perm hZ hs).nodup_iff.1 (nodup_listPrefix s dir)

/-- The directories of a store with well-formed keys are a tree.  From the root down, they
hold each key of `list` once. -/
theorem listing_faithful (Z : Zarrs) (hZ : Z.Accepts) (s : Store)
    (hs : ∀ key ∈ s.keys, checkKey key = none) :
    (∃ n keys, (∀ m, n ≤ m → s.expand Z m [] = some keys) ∧ keys.Nodup ∧
      keys.Perm (s.list Z) ∧ ∀ key, key ∈ keys ↔ key ∈ s.keys) ∧
    ∀ dir, ListsDirectory Z s dir := by
  refine ⟨?_, listsDirectory hZ hs⟩
  have hbound : ∀ key ∈ s.keys, ([] : RustString) <+: key →
      key.length ≤ ([] : RustString).length + (s.keys.map List.length).sum := by
    intro key hkey _
    rw [List.length_nil, Nat.zero_add]
    exact List.le_sum_of_mem (List.mem_map_of_mem hkey)
  obtain ⟨keys, hperm, hkeys⟩ := exists_expand hZ hs hbound
  have hroot : s.listPrefix Z [] = s.list Z := by
    rw [Store.listPrefix, Store.list]
    exact congrArg _ (List.filter_eq_self.2 fun _ _ => rfl)
  rw [hroot] at hperm
  refine ⟨_, keys, fun m hm => hkeys m hm, hperm.nodup_iff.2 (hroot ▸ nodup_listPrefix s []), hperm,
    fun key => ?_⟩
  rw [hperm.mem_iff, list_eq hZ hs, mem_sortedKeys]

/-- Keys whose names extend each other. -/
def siblings : Store :=
  ⟨.ofList (["a-b/c", "a/b", "a", "a.b/c", ""].map fun key => (key.toList, .str [])), ∅⟩

theorem listing_faithful_siblings :
    (∃ n keys, (∀ m, n ≤ m → siblings.expand zarrs m [] = some keys) ∧ keys.Nodup ∧
      keys.Perm (siblings.list zarrs) ∧ ∀ key, key ∈ keys ↔ key ∈ siblings.keys) ∧
    ∀ dir, ListsDirectory zarrs siblings dir :=
  listing_faithful zarrs zarrs_accepts siblings (by decide +kernel)

end Rust
