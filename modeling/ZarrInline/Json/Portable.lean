import ZarrInline.Json.Writer
import ZarrInline.Numeric.Shortest
import ZarrInline.Text.Unicode

/-!
# What hosts agree on

Hosts differ in their strings, in their numbers and in the order of members.  What they
agree on is the tree of code points and number tokens that a text leaves (`read`), and
its canonical text (`canonicalText`), in which a number token stands in its canonical
form (`canonicalToken`).

A host whose strings are the code points in another form, and which keeps the order of
members, makes of a text a renaming of that tree (`load_comp`).
-/

namespace Json

open Numeric (Text Double NumberToken)

variable {κ κ' ν : Type}

/-! ## Strings -/

/-- The code points a string token stands for: an escaped surrogate joins the
escaped surrogate after it, if they are a pair. -/
def unescape : List StrItem → Text
  | [] => []
  | .raw c :: items => c :: unescape items
  | .esc c :: items => c :: unescape items
  | .unit u :: .unit v :: items =>
      if Unicode.IsHigh u.toNat ∧ Unicode.IsLow v.toNat then
        Unicode.combine u.toNat v.toNat :: unescape items
      else u.toNat :: unescape (.unit v :: items)
  | .unit u :: items => u.toNat :: unescape items

/-- The characters and the escapes of a text stand for code points. -/
theorem lt_of_mem_unescape {items : List StrItem} (h : ∀ i ∈ items, i.OfText (· < 0x110000)) :
    ∀ c ∈ unescape items, c < 0x110000 := by
  have hunit : ∀ u : UInt16, u.toNat < 0x110000 := fun u => u.toNat_lt.trans (by norm_num)
  induction items using unescape.induct with
  | case1 => simp [unescape]
  | case2 c items ih =>
      obtain ⟨hc, hitems⟩ := List.forall_mem_cons.1 h
      exact List.forall_mem_cons.2 ⟨hc, ih hitems⟩
  | case3 c items ih =>
      obtain ⟨hc, hitems⟩ := List.forall_mem_cons.1 h
      have hlt : c < 128 := hc
      exact List.forall_mem_cons.2 ⟨hlt.trans (by norm_num), ih hitems⟩
  | case4 u v items hpair ih =>
      have hitems := (List.forall_mem_cons.1 (List.forall_mem_cons.1 h).2).2
      rw [unescape, if_pos hpair]
      exact List.forall_mem_cons.2 ⟨(Unicode.combine_units hpair.1 hpair.2).2.1, ih hitems⟩
  | case5 u v items hpair ih =>
      rw [unescape, if_neg hpair]
      exact List.forall_mem_cons.2 ⟨hunit u, ih (List.forall_mem_cons.1 h).2⟩
  | case6 u items hnext ih =>
      rw [unescape]
      · exact List.forall_mem_cons.2 ⟨hunit u, ih (List.forall_mem_cons.1 h).2⟩
      · exact hnext

/-- The canonical form of a string stands for the string. -/
theorem unescape_canonicalItems (cs : Text) : unescape (canonicalItems cs) = cs := by
  induction cs with
  | nil => rfl
  | cons c cs ih =>
      rw [canonicalItems, List.map_cons, ← canonicalItems]
      unfold canonicalItem
      split_ifs with hesc hlt
      · rw [unescape, ih]
      · have hu : (UInt16.ofNat c).toNat = c := UInt16.toNat_ofNat_of_lt' (hlt.trans (by decide))
        have hhigh : ¬ Unicode.IsHigh (UInt16.ofNat c).toNat := by
          rw [hu]
          exact fun h => by have := h.1; omega
        cases hcs : canonicalItems cs with
        | nil => rw [hcs] at ih; rw [unescape, ih, hu]; simp
        | cons i is =>
            rw [hcs] at ih
            cases i with
            | unit v => rw [unescape, if_neg fun h => hhigh h.1, ih, hu]
            | raw d => rw [unescape, ih, hu]; simp
            | esc d => rw [unescape, ih, hu]; simp
      · rw [unescape, ih]

/-! ## Renaming what was read -/

section Load

variable [DecidableEq κ] [DecidableEq κ']

/-- The order in which names first occur. -/
def noRank (_ : κ) : Option ℕ := none

/-- Names without an index are not reordered. -/
theorem load_noRank {name : List StrItem → κ} {rank : κ → Option ℕ} {v : Json (List StrItem) ν}
    (h : v.Every (fun _ => True) (fun _ => True) (fun ks => ∀ k ∈ ks, rank (name k) = none)) :
    v.load name rank = v.load name noRank := by
  induction v using Json.inductionOn with
  | null => rfl
  | bool b => rfl
  | str s => rfl
  | num n => rfl
  | arr xs ih =>
      rw [load_arr, load_arr]
      exact congrArg _ (List.map_congr_left fun x hx => ih x hx ((every_arr xs).1 h x hx))
  | obj ms ih =>
      obtain ⟨hnames, hms⟩ := (every_obj ms).1 h
      have hmap : ms.map (fun m => (name m.1, m.2.load name rank))
          = ms.map fun m => (name m.1, m.2.load name noRank) :=
        List.map_congr_left fun m hm => by rw [ih m hm (hms m hm).2]
      rw [load_obj, load_obj, hmap]
      refine congrArg _ (collapse_congr_rank fun m hm => ?_)
      obtain ⟨n, hn, rfl⟩ := List.mem_map.1 hm
      exact hnames n.1 (List.mem_map_of_mem hn)

/-- Reading with renamed strings renames what is read, if the renaming can be undone. -/
theorem load_comp {name : List StrItem → κ} {f : κ → κ'} {g : κ' → κ} {v : Json (List StrItem) ν}
    (h : v.Every (fun s => g (f (name s)) = name s) (fun _ => True) (fun _ => True)) :
    v.load (fun s => f (name s)) noRank = (v.load name noRank).map f id := by
  induction v using Json.inductionOn with
  | null => rfl
  | bool b => rfl
  | str s => rfl
  | num n => rfl
  | arr xs ih =>
      rw [load_arr, load_arr, map_arr, List.map_map]
      exact congrArg _ (List.map_congr_left fun x hx => ih x hx ((every_arr xs).1 h x hx))
  | obj ms ih =>
      obtain ⟨-, hms⟩ := (every_obj ms).1 h
      have hmap : ms.map (fun m => (f (name m.1), m.2.load (fun s => f (name s)) noRank))
          = (ms.map fun m => (name m.1, m.2.load name noRank)).map
              fun m => (f m.1, m.2.map f id) := by
        rw [List.map_map]
        refine List.map_congr_left fun m hm => ?_
        simp only [Function.comp_apply, ih m hm (hms m hm).2]
      rw [load_obj, load_obj, map_obj, hmap]
      refine congrArg _ (collapse_map_key (g := g) fun m hm => ?_)
      obtain ⟨n, hn, rfl⟩ := List.mem_map.1 hm
      exact (hms n hn).1

end Load

/-- The tree of code points and number tokens that a text leaves. -/
def read (raw : Raw) : Json Text NumberToken := raw.load unescape noRank

/-- The strings of a text have no lone surrogates. -/
def HasScalars (raw : Raw) : Prop :=
  raw.Every (fun s => ∀ c ∈ unescape s, Unicode.IsScalar c) (fun _ => True) (fun _ => True)

instance : DecidablePred HasScalars := fun raw => inferInstanceAs (Decidable (raw.Every _ _ _))

/-! ## Numbers -/

/-- The number tokens that every host represents: the integers and what is finite in
binary64. -/
def InRange (n : NumberToken) : Prop := n.IsInteger ∨ (Double.ofToken n).IsFinite

instance : DecidablePred InRange := fun _ => inferInstanceAs (Decidable (_ ∨ _))

/-- The numbers of a tree are in range. -/
def HasNumbers (v : Json κ NumberToken) : Prop := v.Every (fun _ => True) InRange (fun _ => True)

instance : DecidablePred (@HasNumbers κ) := fun v => inferInstanceAs (Decidable (v.Every _ _ _))

theorem hasNumbers_map {f : κ → κ'} {v : Json κ NumberToken} :
    (v.map f id).HasNumbers ↔ v.HasNumbers :=
  every_map

/-- The canonical form of a number token: the digits of an integer, else the ECMAScript
notation of the nearest binary64 number. -/
def canonicalToken (n : NumberToken) : NumberToken :=
  if n.IsInteger then .ofInt n.intValue else (Double.ofToken n).toToken

/-- A canonical token is in its canonical form. -/
theorem canonicalToken_canonicalToken {n : NumberToken} (h : InRange n) :
    canonicalToken (canonicalToken n) = canonicalToken n := by
  unfold canonicalToken
  by_cases hn : n.IsInteger
  · rw [if_pos hn, if_pos (NumberToken.isInteger_ofInt _), NumberToken.intValue_ofInt]
  · rw [if_neg hn]
    by_cases hint : (Double.ofToken n).toToken.IsInteger
    · rw [if_pos hint, ← Double.toToken_eq_ofInt hint]
    · rw [if_neg hint, Double.ofToken_toToken (h.resolve_left hn), Double.toToken_dropNegZero]

/-- A tree converts if and only if each of its atoms does. -/
theorem isOk_traverse {μ ε : Type} {f : ν → Except ε μ} {v : Json κ ν} :
    IsOk (v.traverse f) ↔ v.Every (fun _ => True) (fun n => IsOk (f n)) (fun _ => True) := by
  induction v using Json.inductionOn with
  | null => simp [traverse]
  | bool b => simp [traverse]
  | str s => simp [traverse]
  | num n => simp [traverse, isOk_map]
  | arr xs ih =>
      rw [traverse_arr, isOk_map, isOk_sequence, every_arr]
      exact forall₂_congr ih
  | obj ms ih =>
      rw [traverse_obj, isOk_map, isOk_sequenceMembers, every_obj]
      simp only [true_and]
      exact forall₂_congr ih

theorem exists_of_sequenceMembers_eq_error {α β σ ε : Type} {g : α → Except ε β} {ms : List (σ × α)}
    {e : ε} (h : sequenceMembers (ms.map fun m => (m.1, g m.2)) = .error e) :
    ∃ m ∈ ms, g m.2 = .error e := by
  induction ms with
  | nil => cases h
  | cons m ms ih =>
      rw [List.map_cons, sequenceMembers] at h
      cases hm : g m.2 with
      | error e' =>
          rw [hm] at h
          cases h
          exact ⟨m, List.mem_cons_self .., hm⟩
      | ok y =>
          rw [hm] at h
          cases hms : sequenceMembers (ms.map fun m => (m.1, g m.2)) with
          | error e' =>
              rw [hms] at h
              cases h
              obtain ⟨n, hn, hgn⟩ := ih hms
              exact ⟨n, List.mem_cons_of_mem _ hn, hgn⟩
          | ok ns => rw [hms] at h; cases h

/-- The errors of a conversion are those of the atoms. -/
theorem exists_of_traverse_eq_error {μ ε : Type} {f : ν → Except ε μ} {v : Json κ ν} {e : ε}
    (h : v.traverse f = .error e) : ∃ n, f n = .error e := by
  induction v using Json.inductionOn with
  | null => cases h
  | bool b => cases h
  | str s => cases h
  | num n => exact ⟨n, exists_of_map_eq_error h⟩
  | arr xs ih =>
      rw [traverse_arr] at h
      obtain ⟨x, hx, hxe⟩ := exists_of_sequence_eq_error (exists_of_map_eq_error h)
      exact ih x hx hxe
  | obj ms ih =>
      rw [traverse_obj] at h
      obtain ⟨m, hm, hme⟩ := exists_of_sequenceMembers_eq_error (exists_of_map_eq_error h)
      exact ih m hm hme

/-- The canonical text of a tree. -/
def canonicalText (v : Json Text NumberToken) : Text :=
  (v.map canonicalItems canonicalToken).text

end Json
