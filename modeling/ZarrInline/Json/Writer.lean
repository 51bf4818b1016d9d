import ZarrInline.Json.Members
import ZarrInline.Json.Parser

/-!
# Hosts: reading into values and writing canonical text

A host turns the tree of a text into its own value by decoding strings and by
collapsing repeated names (`load`).  It writes a value as compact text by a
`Script`, which says how a string and an atom are written and which of them cannot
be (`write`).

The round trip through a host comes in two halves.  What `write` gives is the
compact text of the tree of quoted strings and number tokens (`write_eq_text`), so
that the grammar reads it back (`parse_text`).  Loading that tree gives the value,
if its objects are in the host's order (`load_map`).
-/

namespace Json

open Numeric (Text NumberToken)

variable {κ ν χ ε : Type}

/-! ## Reading into a host -/

/-- The value a host makes of a tree: strings decoded, repeated names collapsed. -/
def load [DecidableEq κ] (name : List StrItem → κ) (rank : κ → Option ℕ) :
    Json (List StrItem) ν → Json κ ν :=
  fold {
    null := .null
    bool := .bool
    str := fun s => .str (name s)
    num := .num
    arr := .arr
    obj := fun ms => .obj (collapse rank (ms.map fun m => (name m.1, m.2))) }

section Load

variable [DecidableEq κ] {name : List StrItem → κ} {rank : κ → Option ℕ}

@[simp] theorem load_arr (xs : List (Json (List StrItem) ν)) :
    load name rank (.arr xs) = .arr (xs.map (load name rank)) := by
  simp [load]

@[simp] theorem load_obj (ms : List (List StrItem × Json (List StrItem) ν)) :
    load name rank (.obj ms)
      = .obj (collapse rank (ms.map fun m => (name m.1, m.2.load name rank))) := by
  simp [load, Function.comp_def]

/-- Loading a tree of quoted strings gives the value they were quoted from. -/
theorem load_map {quote : κ → List StrItem} {tok : ν → NumberToken} {v : Json κ ν}
    (h : v.Every (fun k => name (quote k) = k) (fun _ => True) (Ordered rank)) :
    (v.map quote tok).load name rank = v.map id tok := by
  induction v using Json.inductionOn with
  | null => rfl
  | bool b => rfl
  | str s =>
      have hs : name (quote s) = s := by simpa using h
      exact congrArg Json.str hs
  | num n => rfl
  | arr xs ih =>
      rw [map_arr, load_arr, map_arr, List.map_map]
      exact congrArg _ (List.map_congr_left fun x hx => ih x hx ((every_arr xs).1 h x hx))
  | obj ms ih =>
      obtain ⟨hord, hms⟩ := (every_obj ms).1 h
      have hmap : (ms.map fun m => (quote m.1, m.2.map quote tok)).map
          (fun m => (name m.1, m.2.load name rank)) = ms.map fun m => (m.1, m.2.map id tok) := by
        rw [List.map_map]
        refine List.map_congr_left fun m hm => ?_
        simp only [Function.comp_apply, (hms m hm).1, ih m hm (hms m hm).2]
      have hord' : Ordered rank ((ms.map fun m => (m.1, m.2.map id tok)).map Prod.fst) := by
        rw [List.map_map]
        exact hord
      rw [map_obj, load_obj, map_obj, hmap, collapse_of_ordered hord']
      rfl

theorem depth_load_le (v : Json (List StrItem) ν) : (v.load name rank).depth ≤ v.depth := by
  induction v using Json.inductionOn with
  | null => exact le_rfl
  | bool b => exact le_rfl
  | str s => exact le_rfl
  | num n => exact le_rfl
  | arr xs ih =>
      obtain ⟨n, hn⟩ : ∃ n, (Json.arr xs).depth = n + 1 := ⟨_, depth_arr xs⟩
      rw [load_arr, hn, depth_arr_le_iff]
      rintro _ hmem
      obtain ⟨x, hx, rfl⟩ := List.mem_map.1 hmem
      exact (ih x hx).trans (depth_arr_le_iff.1 hn.le x hx)
  | obj ms ih =>
      obtain ⟨n, hn⟩ : ∃ n, (Json.obj ms).depth = n + 1 := ⟨_, depth_obj ms⟩
      rw [load_obj, hn, depth_obj_le_iff]
      intro m' hmem
      obtain ⟨m, hm, rfl⟩ := List.mem_map.1 (mem_of_mem_collapse hmem)
      exact (ih m hm).trans (depth_obj_le_iff.1 hn.le m hm)

/-- The objects of a loaded value are in the host's order. -/
theorem every_load {p : κ → Prop} {q : ν → Prop} [DecidablePred p] [DecidablePred q]
    {v : Json (List StrItem) ν} (h : v.Every (fun s => p (name s)) q (fun _ => True)) :
    (v.load name rank).Every p q (Ordered rank) := by
  induction v using Json.inductionOn with
  | null => trivial
  | bool b => trivial
  | str s => exact (every_str _).2 ((every_str s).1 h)
  | num n => exact (every_num _).2 ((every_num n).1 h)
  | arr xs ih =>
      rw [load_arr, every_arr]
      rintro _ hmem
      obtain ⟨x, hx, rfl⟩ := List.mem_map.1 hmem
      exact ih x hx ((every_arr xs).1 h x hx)
  | obj ms ih =>
      rw [load_obj, every_obj]
      refine ⟨ordered_collapse, fun m' hmem => ?_⟩
      obtain ⟨m, hm, rfl⟩ := List.mem_map.1 (mem_of_mem_collapse hmem)
      have hm' := ((every_obj ms).1 h).2 m hm
      exact ⟨hm'.1, ih m hm hm'.2⟩

end Load

/-! ## Writing from a host -/

/-- How a host writes text over characters `χ`: an ASCII character, a string with its
quotation marks, an atom. -/
structure Script (κ ν χ ε : Type) where
  ascii : ℕ → χ
  str : κ → Except ε (List χ)
  num : ν → Except ε (List χ)

/-- The text of a member, from the text of its value. -/
def writeMember (w : Script κ ν χ ε) (k : κ) (x : Except ε (List χ)) : Except ε (List χ) := do
  let k ← w.str k
  let x ← x
  return k ++ w.ascii ':'.toNat :: x

/-- Write a value, up to the first string or atom that cannot be written. -/
def write (w : Script κ ν χ ε) : Json κ ν → Except ε (List χ) :=
  fold {
    null := .ok ((lit "null").map w.ascii)
    bool := fun b => .ok ((if b then lit "true" else lit "false").map w.ascii)
    str := w.str
    num := w.num
    arr := fun xs => (sequence xs).map fun xs =>
      w.ascii '['.toNat :: (sepBy (w.ascii ','.toNat) xs ++ [w.ascii ']'.toNat])
    obj := fun ms => (sequence (ms.map fun m => writeMember w m.1 m.2)).map fun ms =>
      w.ascii '\x7b'.toNat :: (sepBy (w.ascii ','.toNat) ms ++ [w.ascii '\x7d'.toNat]) }

/-- A result is there. -/
def IsOk {α : Type} : Except ε α → Prop
  | .ok _ => True
  | .error _ => False

instance {α : Type} : DecidablePred (IsOk (ε := ε) (α := α))
  | .ok _ => inferInstanceAs (Decidable True)
  | .error _ => inferInstanceAs (Decidable False)

@[simp] theorem isOk_ok {α : Type} (a : α) : IsOk (.ok a : Except ε α) := trivial

@[simp] theorem not_isOk_error {α : Type} (e : ε) : ¬ IsOk (.error e : Except ε α) := id

theorem isOk_iff {α : Type} {x : Except ε α} : IsOk x ↔ ∃ a, x = .ok a := by
  cases x <;> simp

section Write

variable {w : Script κ ν χ ε}

theorem write_arr (xs : List (Json κ ν)) :
    write w (.arr xs) = (sequence (xs.map (write w))).map fun xs =>
      w.ascii '['.toNat :: (sepBy (w.ascii ','.toNat) xs ++ [w.ascii ']'.toNat]) := by
  rw [write, fold_arr]

theorem write_obj (ms : List (κ × Json κ ν)) :
    write w (.obj ms) = (sequence (ms.map fun m => writeMember w m.1 (write w m.2))).map fun ms =>
      w.ascii '\x7b'.toNat :: (sepBy (w.ascii ','.toNat) ms ++ [w.ascii '\x7d'.toNat]) := by
  rw [write, fold_obj]
  simp only [List.map_map]
  rfl

theorem writeMember_eq_ok {k : κ} {x : Except ε (List χ)} {t : List χ} :
    writeMember w k x = .ok t ↔
      ∃ k' x', w.str k = .ok k' ∧ x = .ok x' ∧ t = k' ++ w.ascii ':'.toNat :: x' := by
  unfold writeMember
  cases w.str k with
  | error e => simp [bind, Except.bind]
  | ok k =>
      cases x with
      | error e => simp [bind, Except.bind]
      | ok x => simp [bind, Except.bind, pure, Except.pure, eq_comm]

theorem isOk_sequence {α β : Type} {g : α → Except ε β} {xs : List α} :
    IsOk (sequence (xs.map g)) ↔ ∀ x ∈ xs, IsOk (g x) := by
  induction xs with
  | nil => simp [sequence]
  | cons x xs ih =>
      rw [List.map_cons, sequence, List.forall_mem_cons, ← ih]
      cases g x with
      | error e => simp [bind, Except.bind]
      | ok y => cases sequence (xs.map g) <;> simp [bind, Except.bind, pure, Except.pure]

theorem exists_of_sequence_eq_ok {α β : Type} {g : α → Except ε β} {xs : List α} {ys : List β}
    (h : sequence (xs.map g) = .ok ys) {x : α} (hx : x ∈ xs) : ∃ y, g x = .ok y :=
  isOk_iff.1 (isOk_sequence.1 (isOk_iff.2 ⟨ys, h⟩) x hx)

theorem isOk_sequenceMembers {α β : Type} {g : α → Except ε β} {ms : List (κ × α)} :
    IsOk (sequenceMembers (ms.map fun m => (m.1, g m.2))) ↔ ∀ m ∈ ms, IsOk (g m.2) := by
  induction ms with
  | nil => simp [sequenceMembers]
  | cons m ms ih =>
      rw [List.map_cons, sequenceMembers, List.forall_mem_cons, ← ih]
      cases g m.2 with
      | error e => simp [bind, Except.bind]
      | ok y =>
          cases sequenceMembers (ms.map fun m => (m.1, g m.2)) <;>
            simp [bind, Except.bind, pure, Except.pure]

theorem isOk_map {α β : Type} {f : α → β} {x : Except ε α} : IsOk (x.map f) ↔ IsOk x := by
  cases x <;> rfl

theorem isOk_writeMember {k : κ} {x : Except ε (List χ)} :
    IsOk (writeMember w k x) ↔ IsOk (w.str k) ∧ IsOk x := by
  simp only [isOk_iff, writeMember_eq_ok]
  constructor
  · rintro ⟨t, k, x, hk, hx, -⟩
    exact ⟨⟨k, hk⟩, x, hx⟩
  · rintro ⟨⟨k, hk⟩, x, hx⟩
    exact ⟨_, k, x, hk, hx, rfl⟩

/-- A value is written if and only if each of its strings and atoms is. -/
theorem isOk_write {v : Json κ ν} :
    IsOk (write w v) ↔ v.Every (fun k => IsOk (w.str k)) (fun n => IsOk (w.num n)) (fun _ => True) := by
  induction v using Json.inductionOn with
  | null => simp [write]
  | bool b => simp [write]
  | str s => simp [write]
  | num n => simp [write]
  | arr xs ih =>
      rw [write_arr, isOk_map, isOk_sequence, every_arr]
      exact forall₂_congr ih
  | obj ms ih =>
      rw [write_obj, isOk_map, isOk_sequence, every_obj]
      simp only [true_and, isOk_writeMember]
      exact forall₂_congr fun m hm => and_congr_right fun _ => ih m hm

theorem exists_of_map_eq_error {α β : Type} {f : α → β} {x : Except ε α} {e : ε}
    (h : x.map f = .error e) : x = .error e := by
  cases x with
  | error e' => cases h; rfl
  | ok a => cases h

/-- The errors of a value are those of its strings and atoms. -/
theorem write_error {q : ν → Prop} [DecidablePred q] {P : ε → Prop}
    (hstr : ∀ k e, w.str k = .error e → P e) (hnum : ∀ n e, q n → w.num n = .error e → P e)
    {v : Json κ ν} (hv : v.Every (fun _ => True) q (fun _ => True)) {e : ε}
    (h : write w v = .error e) : P e := by
  induction v using Json.inductionOn with
  | null => cases h
  | bool b => cases h
  | str s => exact hstr s e h
  | num n => exact hnum n e ((every_num n).1 hv) h
  | arr xs ih =>
      rw [write_arr] at h
      obtain ⟨x, hx, hwx⟩ := exists_of_sequence_eq_error (exists_of_map_eq_error h)
      exact ih x hx ((every_arr xs).1 hv x hx) hwx
  | obj ms ih =>
      rw [write_obj] at h
      obtain ⟨m, hm, hwm⟩ := exists_of_sequence_eq_error (exists_of_map_eq_error h)
      have hmv := (((every_obj ms).1 hv).2 m hm).2
      rw [writeMember] at hwm
      cases hk : w.str m.1 with
      | error e' => rw [hk] at hwm; cases hwm; exact hstr m.1 _ hk
      | ok k =>
          cases hx : write w m.2 with
          | error e' => rw [hk, hx] at hwm; cases hwm; exact ih m hm hmv hx
          | ok x => rw [hk, hx] at hwm; cases hwm

/-- Atoms that are written alike may be exchanged. -/
theorem write_map {g : ν → ν} (hg : ∀ n, w.num (g n) = w.num n) (v : Json κ ν) :
    write w (v.map id g) = write w v := by
  simp [write, fold_map, hg]

end Write

/-- What is written over code points is the compact text of the tree of quoted
strings and number tokens. -/
theorem write_eq_text {w : Script κ ν ℕ ε} (hascii : w.ascii = id) {quote : κ → List StrItem}
    {tok : ν → NumberToken} (hstr : ∀ k t, w.str k = .ok t → t = strText (quote k))
    (hnum : ∀ n t, w.num n = .ok t → t = (tok n).render) {v : Json κ ν} {t : Text}
    (h : write w v = .ok t) : t = text (v.map quote tok) := by
  induction v using Json.inductionOn generalizing t with
  | null => cases h; simp [text, hascii]
  | bool b => cases h; simp [text, hascii]
  | str s => exact hstr s t h
  | num n => exact hnum n t h
  | arr xs ih =>
      rw [write_arr] at h
      obtain ⟨ys, hys, rfl⟩ := exists_of_map_eq_ok h
      have hmap : ys = xs.map fun x => text (x.map quote tok) := by
        rw [sequence_eq_ok] at hys
        clear h
        induction hys with
        | nil => rfl
        | cons hxy _ ihs =>
            rw [List.map_cons, ← ih _ (by simp) hxy, ihs fun x hx => ih x (by simp [hx])]
      rw [map_arr, text, fold_arr, ← text, hascii, hmap, List.map_map]
      rfl
  | obj ms ih =>
      rw [write_obj] at h
      obtain ⟨ys, hys, rfl⟩ := exists_of_map_eq_ok h
      have hmap : ys = ms.map fun m => strText (quote m.1) ++ ':'.toNat :: text (m.2.map quote tok) := by
        rw [sequence_eq_ok] at hys
        clear h
        induction hys with
        | nil => rfl
        | cons hxy _ ihs =>
            obtain ⟨k, x, hk, hx, rfl⟩ := writeMember_eq_ok.1 hxy
            rw [List.map_cons, hstr _ _ hk, ih _ (by simp) hx, ihs fun x hx => ih x (by simp [hx]),
              hascii]
            rfl
      rw [map_obj, text, fold_obj, ← text, hascii, hmap]
      simp only [List.map_map]
      rfl

/-- Writing over two kinds of characters, the second encoding the first. -/
theorem write_flatMap {χ' : Type} {w : Script κ ν χ ε} {w' : Script κ ν χ' ε} {g : χ → List χ'}
    {lits : ℕ → Prop} (hlits : ∀ s ∈ ["null", "true", "false", "[]\x7b\x7d,:"], ∀ c ∈ lit s, lits c)
    (hascii : ∀ c, lits c → g (w.ascii c) = [w'.ascii c])
    (hstr : ∀ k, w'.str k = (w.str k).map (·.flatMap g))
    (hnum : ∀ n, w'.num n = (w.num n).map (·.flatMap g)) (v : Json κ ν) :
    write w' v = (write w v).map (·.flatMap g) := by
  have hlit : ∀ s ∈ ["null", "true", "false"], (lit s).map w'.ascii
      = ((lit s).map w.ascii).flatMap g := by
    intro s hs
    have hall : ∀ c ∈ lit s, lits c := hlits s (by simp at hs ⊢; tauto)
    generalize lit s = t at hall
    induction t with
    | nil => rfl
    | cons c t ih =>
        rw [List.map_cons, List.map_cons, List.flatMap_cons, hascii c (hall c (by simp)),
          ih fun d hd => hall d (by simp [hd])]
        rfl
  have hpunct : ∀ c ∈ lit "[]\x7b\x7d,:", g (w.ascii c) = [w'.ascii c] := fun c hc =>
    hascii c (hlits _ (by simp) c hc)
  have hsep : ∀ ts : List (List χ), sepBy (w'.ascii ','.toNat) (ts.map (·.flatMap g))
      = (sepBy (w.ascii ','.toNat) ts).flatMap g := by
    intro ts
    cases ts with
    | nil => rfl
    | cons t ts =>
        simp only [List.map_cons, sepBy, List.flatMap_append, List.flatMap_map, List.flatMap_assoc,
          List.flatMap_cons, hpunct ','.toNat (by decide), List.singleton_append]
  have hseq : ∀ {α : Type} (f : α → Except ε (List χ)) (f' : α → Except ε (List χ')) (xs : List α),
      (∀ x ∈ xs, f' x = (f x).map (·.flatMap g)) →
        sequence (xs.map f') = (sequence (xs.map f)).map fun ts => ts.map (·.flatMap g) := by
    intro α f f' xs hxs
    induction xs with
    | nil => rfl
    | cons x xs ih =>
        rw [List.map_cons, List.map_cons, sequence, sequence, hxs x (by simp),
          ih fun y hy => hxs y (by simp [hy])]
        cases f x with
        | error e => rfl
        | ok t => cases sequence (xs.map f) <;> rfl
  induction v using Json.inductionOn with
  | null => exact congrArg _ (hlit "null" (by simp))
  | bool b => cases b <;> exact congrArg _ (hlit _ (by simp))
  | str s => exact hstr s
  | num n => exact hnum n
  | arr xs ih =>
      rw [write_arr, write_arr, hseq _ _ xs ih]
      cases sequence (xs.map (write w)) with
      | error e => rfl
      | ok ts =>
          simp only [Except.map, hsep, List.flatMap_cons, List.flatMap_append, List.flatMap_nil,
            hpunct '['.toNat (by decide), hpunct ']'.toNat (by decide)]
          rfl
  | obj ms ih =>
      have hmember : ∀ m ∈ ms, writeMember w' m.1 (write w' m.2)
          = (writeMember w m.1 (write w m.2)).map (·.flatMap g) := by
        intro m hm
        rw [writeMember, writeMember, hstr, ih m hm]
        cases w.str m.1 with
        | error e => rfl
        | ok k =>
            cases write w m.2 with
            | error e => rfl
            | ok x =>
                simp only [Except.map, bind, Except.bind, pure, Except.pure, List.flatMap_append,
                  List.flatMap_cons, hpunct ':'.toNat (by decide)]
                rfl
      rw [write_obj, write_obj, hseq _ _ ms hmember]
      cases sequence (ms.map fun m => writeMember w m.1 (write w m.2)) with
      | error e => rfl
      | ok ts =>
          simp only [Except.map, hsep, List.flatMap_cons, List.flatMap_append, List.flatMap_nil,
            hpunct '\x7b'.toNat (by decide), hpunct '\x7d'.toNat (by decide)]
          rfl

/-! ## Canonical strings -/

/-- A character in the canonical form: one of the short escapes, else the escape of a
control character, else the character itself. -/
def canonicalItem (c : ℕ) : StrItem :=
  if (escapeLetter? c).isSome then .esc c
  else if c < 0x20 then .unit (UInt16.ofNat c)
  else .raw c

/-- The canonical form of a string of code points. -/
def canonicalItems (cs : Text) : List StrItem := cs.map canonicalItem

theorem canonicalItem_of_ge {c : ℕ} (h : 0x60 ≤ c) : canonicalItem c = .raw c := by
  have hne : ∀ d < 0x60, c ≠ d := fun d hd => by omega
  have hesc : escapeLetter? c = none := by
    unfold escapeLetter?
    rw [if_neg (hne _ (by decide)), if_neg (hne _ (by decide)), if_neg (hne _ (by decide)),
      if_neg (hne _ (by decide)), if_neg (hne _ (by decide)), if_neg (hne _ (by decide)),
      if_neg (hne _ (by decide))]
  rw [canonicalItem, hesc, if_neg (by simp), if_neg (by omega)]

theorem eq_of_canonicalItem_raw {c d : ℕ} (h : canonicalItem c = .raw d) : d = c := by
  unfold canonicalItem at h
  split_ifs at h
  cases h
  rfl

theorem valid_canonicalItem (c : ℕ) : (canonicalItem c).Valid := by
  unfold canonicalItem
  split_ifs with h1 h2
  · exact h1
  · trivial
  · refine ⟨Nat.le_of_not_lt h2, ?_, ?_⟩ <;> rintro rfl <;> exact h1 (by decide)

theorem valid_canonicalItems (cs : Text) : ∀ i ∈ canonicalItems cs, i.Valid := by
  intro i hi
  obtain ⟨c, -, rfl⟩ := List.mem_map.1 hi
  exact valid_canonicalItem c

/-- The text of a canonical character is ASCII or the character itself, and never NUL. -/
theorem itemText_canonicalItem (c : ℕ) :
    (∀ d ∈ itemText (canonicalItem c), 0 < d ∧ d < 128) ∨ 0 < c ∧ canonicalItem c = .raw c := by
  have hsmall : ∀ c < 0x60, (∀ d ∈ itemText (canonicalItem c), 0 < d ∧ d < 128) := by decide
  rcases Nat.lt_or_ge c 0x60 with h | h
  · exact Or.inl (hsmall c h)
  · exact Or.inr ⟨by omega, canonicalItem_of_ge h⟩

/-- The code points of a canonical text are ASCII or belong to a string. -/
theorem forall_mem_text_canonical {P : ℕ → Prop} [DecidablePred P]
    (hP : ∀ c, 0 < c → c < 128 → P c) {quote : κ → Text} {tok : ν → NumberToken} {v : Json κ ν}
    (h : v.Every (fun k => ∀ c ∈ quote k, 0 < c → P c) (fun _ => True) (fun _ => True)) :
    ∀ c ∈ (v.map (fun k => canonicalItems (quote k)) tok).text, P c := by
  refine forall_mem_text hP ?_
  rw [every_map]
  refine h.imp ?_ (fun _ _ => trivial) (fun _ _ => trivial)
  intro k hk i hi d hd
  obtain ⟨c, hc, rfl⟩ := List.mem_map.1 hi
  rcases itemText_canonicalItem c with hascii | ⟨hpos, hraw⟩
  · exact hP d (hascii d hd).1 (hascii d hd).2
  · rw [hraw] at hd
    obtain rfl := List.mem_singleton.1 hd
    exact hk d hc hpos

/-- The characters of the strings from `0x60` on are in the canonical text. -/
theorem every_of_text_canonical {P : ℕ → Prop} [DecidablePred P] {quote : κ → Text}
    {tok : ν → NumberToken} {v : Json κ ν}
    (h : ∀ c ∈ (v.map (fun k => canonicalItems (quote k)) tok).text, P c) :
    v.Every (fun k => ∀ c ∈ quote k, 0x60 ≤ c → P c) (fun _ => True) (fun _ => True) := by
  have hitems := every_of_text h
  rw [every_map] at hitems
  refine hitems.imp (fun k hk c hc hlarge => ?_) (fun _ => id) fun _ _ => trivial
  refine hk (canonicalItem c) (List.mem_map_of_mem hc) c ?_
  rw [canonicalItem_of_ge hlarge]
  exact List.mem_singleton_self c

/-- A tree whose strings are in canonical form can be written. -/
theorem writable_map {quote : κ → Text} {tok : ν → NumberToken} (v : Json κ ν) :
    Writable (v.map (fun k => canonicalItems (quote k)) tok) := by
  induction v using Json.inductionOn with
  | null => trivial
  | bool b => trivial
  | str s => exact (every_str _).2 (valid_canonicalItems _)
  | num n => exact (every_num _).2 trivial
  | arr xs ih =>
      rw [map_arr]
      refine (every_arr _).2 fun x hx => ?_
      obtain ⟨y, hy, rfl⟩ := List.mem_map.1 hx
      exact ih y hy
  | obj ms ih =>
      rw [map_obj]
      refine (every_obj _).2 ⟨trivial, fun m hm => ?_⟩
      obtain ⟨n, hn, rfl⟩ := List.mem_map.1 hm
      exact ⟨valid_canonicalItems _, ih n hn⟩

end Json
