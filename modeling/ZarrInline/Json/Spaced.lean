import ZarrInline.Json.Indent
import ZarrInline.Json.Results

/-!
# Text on one line

The text of a tree on one line, with a space after every comma and colon, as `json.dumps` writes
it without `indent`.  It reads as the tokens of the tree (`lex_spaced`).

`writeSpaced` is a host that writes so, with atoms it may refuse and nesting it may give up at.
It succeeds if it refuses no atom and the value nests no deeper (`writeSpaced_eq_ok_iff`).
-/

namespace Json

open Numeric (Text NumberToken)

variable {κ ν ε : Type}

/-- Items with a comma and a space between them. -/
def listed : List Text → Text
  | [] => []
  | item :: items => item ++ items.flatMap fun item => ','.toNat :: ' '.toNat :: item

/-- Items between brackets. -/
def bracketed (opening closing : ℕ) (items : List Text) : Text := opening :: (listed items ++ [closing])

/-- The text of a tree. -/
def spaced : Raw → Text :=
  fold {
    null := lit "null"
    bool := fun b => if b then lit "true" else lit "false"
    str := strText
    num := NumberToken.render
    arr := bracketed '['.toNat ']'.toNat
    obj := fun ms => bracketed '\x7b'.toNat '\x7d'.toNat
      (ms.map fun m => strText m.1 ++ ':'.toNat :: ' '.toNat :: m.2) }

theorem spaced_arr (xs : List Raw) : spaced (.arr xs) = bracketed '['.toNat ']'.toNat (xs.map spaced) := by
  rw [spaced, fold_arr]

theorem spaced_obj (ms : List (List StrItem × Raw)) :
    spaced (.obj ms) = bracketed '\x7b'.toNat '\x7d'.toNat
      (ms.map fun m => strText m.1 ++ ':'.toNat :: ' '.toNat :: spaced m.2) := by
  rw [spaced, fold_obj]
  simp only [List.map_map]
  rfl

/-! ## Reading it -/

/-- White space before a text says nothing. -/
theorem Lexes.space {t : Text} {tokens : List Token} (h : Lexes t tokens) :
    Lexes (' '.toNat :: t) tokens := by
  intro rest hrest
  rw [List.cons_append, lexFrom_space (by decide), h rest hrest]

/-- Bracketed items read as the items between brackets. -/
theorem lexes_bracketed {ι : Type} {f : ι → Text} {g : ι → List Token} {xs : List ι}
    (h : ∀ x ∈ xs, Lexes (f x) (g x)) {opening closing : ℕ} {o c : Token}
    (ho : structural? opening = some o) (hc : structural? closing = some c)
    (hos : ¬ IsSpace opening) (hcs : ¬ IsSpace closing) (hcd : IsDelimiter closing) :
    Lexes (bracketed opening closing (xs.map f)) (o :: (sepBy .comma (xs.map g) ++ [c])) := by
  intro rest hrest
  have hclosing : Delimited (closing :: rest) := delimited_cons hcd _
  have hitems : lexFrom .start (listed (xs.map f) ++ (closing :: rest))
      = sepBy .comma (xs.map g) ++ lexFrom .start (closing :: rest) := by
    cases xs with
    | nil => rfl
    | cons x xs =>
        have hspaced : ∀ y ∈ xs, Lexes (' '.toNat :: f y) (g y) := fun y hy =>
          (h y (List.mem_cons_of_mem _ hy)).space
        obtain ⟨hdelimited, hlex⟩ := Lexes.flatMap hspaced hclosing
        simp only [List.map_cons, listed, sepBy, List.flatMap_map, List.append_assoc]
        rw [h x List.mem_cons_self _ hdelimited, hlex]
  rw [bracketed, List.cons_append, List.append_assoc, lexFrom_structural ho hos]
  show o :: lexFrom .start (listed (xs.map f) ++ (closing :: rest)) = _
  rw [hitems, lexFrom_structural hc hcs]
  simp

theorem lexes_spaced {v : Raw} (hv : v.Writable) : Lexes v.spaced v.tokens := by
  induction v using Json.inductionOn with
  | null => exact lexes_text hv
  | bool b => exact lexes_text hv
  | str s => exact lexes_text hv
  | num n => exact lexes_text hv
  | arr xs ih =>
      rw [spaced_arr, tokens, fold_arr, ← tokens]
      exact lexes_bracketed (fun x hx => ih x hx ((every_arr xs).1 hv x hx)) (by decide) (by decide)
        (by decide) (by decide) (by decide)
  | obj ms ih =>
      have hcolon : structural? ':'.toNat = some .colon := by decide
      rw [spaced_obj, tokens, fold_obj, ← tokens]
      simp only [List.map_map, Function.comp_def]
      refine lexes_bracketed (fun m hm rest hrest => ?_) (by decide) (by decide) (by decide)
        (by decide) (by decide)
      obtain ⟨hname, hvalue⟩ := ((every_obj ms).1 hv).2 m hm
      rw [List.append_assoc, lexFrom_strText hname, List.cons_append, List.cons_append,
        lexFrom_structural hcolon (by decide), lexFrom_space (by decide), ih m hm hvalue rest hrest]
      rfl

/-- The text of a tree reads as its tokens. -/
theorem lex_spaced {v : Raw} (hv : v.Writable) : lex v.spaced = v.tokens := by
  simpa [lex, lexFrom, flush] using lexes_spaced hv [] delimited_nil

/-- The text of a tree within the limits parses to the tree. -/
theorem parse_spaced {l : Limits} {v : Raw} (hw : v.Writable) (hv : Within l v) :
    parse l v.spaced = .ok v :=
  parse_eq_ok_iff.2 ⟨lex_spaced hw, hv⟩

/-! ## Writing it from a host -/

/-- Write a value that stands at a level, up to the first atom that cannot be written or the first
array or object that stands too deep. -/
def writeSpaced (str : κ → Text) (num : ν → Except ε Text) (enter : ℕ → Except ε Unit) :
    Json κ ν → ℕ → Except ε Text :=
  fold {
    null := fun _ => .ok (lit "null")
    bool := fun b _ => .ok (if b then lit "true" else lit "false")
    str := fun s _ => .ok (str s)
    num := fun n _ => num n
    arr := fun xs level => do
      enter level
      let xs ← sequence (xs.map fun x => x (level + 1))
      return bracketed '['.toNat ']'.toNat xs
    obj := fun ms level => do
      enter level
      let ms ← sequence (ms.map fun m =>
        (m.2 (level + 1)).map fun x => str m.1 ++ ':'.toNat :: ' '.toNat :: x)
      return bracketed '\x7b'.toNat '\x7d'.toNat ms }

section Write

variable {str : κ → Text} {num : ν → Except ε Text} {enter : ℕ → Except ε Unit}

theorem writeSpaced_arr (xs : List (Json κ ν)) (level : ℕ) :
    writeSpaced str num enter (.arr xs) level = (do
      enter level
      let ts ← sequence (xs.map fun x => writeSpaced str num enter x (level + 1))
      return bracketed '['.toNat ']'.toNat ts) := by
  rw [writeSpaced, fold_arr, ← writeSpaced]
  simp only [List.map_map, Function.comp_def]

theorem writeSpaced_obj (ms : List (κ × Json κ ν)) (level : ℕ) :
    writeSpaced str num enter (.obj ms) level = (do
      enter level
      let ts ← sequence (ms.map fun m => (writeSpaced str num enter m.2 (level + 1)).map
        fun x => str m.1 ++ ':'.toNat :: ' '.toNat :: x)
      return bracketed '\x7b'.toNat '\x7d'.toNat ts) := by
  rw [writeSpaced, fold_obj, ← writeSpaced]
  simp only [List.map_map, Function.comp_def]

/-- Each item gives its own text, under a condition. -/
theorem sequence_eq_ok_iff_of_forall {ι β : Type} {write : ι → Except ε β} {Writes : ι → Prop} {f : ι → β}
    {xs : List ι} (h : ∀ x ∈ xs, ∀ t, write x = .ok t ↔ Writes x ∧ t = f x) {ts : List β} :
    sequence (xs.map write) = .ok ts ↔ (∀ x ∈ xs, Writes x) ∧ ts = xs.map f := by
  rw [sequence_eq_ok]
  induction xs generalizing ts with
  | nil => simp
  | cons x xs ih =>
      have hxs : ∀ ts : List β, List.Forall₂ (fun x t => write x = .ok t) xs ts ↔
          (∀ x ∈ xs, Writes x) ∧ ts = xs.map f := fun ts => ih fun y hy => h y (List.mem_cons_of_mem _ hy)
      rw [List.forall_mem_cons, List.map_cons, List.forall₂_cons_left_iff]
      constructor
      · rintro ⟨t, ts', ht, hts, rfl⟩
        obtain ⟨hx, rfl⟩ := (h x List.mem_cons_self t).1 ht
        obtain ⟨hall, rfl⟩ := (hxs ts').1 hts
        exact ⟨⟨hx, hall⟩, rfl⟩
      · rintro ⟨⟨hx, hall⟩, rfl⟩
        exact ⟨_, _, (h x List.mem_cons_self _).2 ⟨hx, rfl⟩, (hxs _).2 ⟨hall, rfl⟩, rfl⟩

/-- Items that may be entered are written between brackets, each as its own text. -/
theorem bracketed_eq_ok_iff {ι : Type} {write : ι → Except ε Text} {Writes : ι → Prop} {f : ι → Text}
    {xs : List ι} {opening closing level : ℕ} {t : Text} (henter : enter level = .ok ())
    (h : ∀ x ∈ xs, ∀ t, write x = .ok t ↔ Writes x ∧ t = f x) :
    (do
      enter level
      let ts ← sequence (xs.map write)
      return bracketed opening closing ts : Except ε Text) = .ok t ↔
      (∀ x ∈ xs, Writes x) ∧ t = bracketed opening closing (xs.map f) := by
  rw [henter]
  constructor
  · intro hwrite
    obtain ⟨u, -, hwrite⟩ := bind_eq_ok hwrite
    obtain ⟨ts, hts, ht⟩ := bind_eq_ok hwrite
    obtain ⟨hall, rfl⟩ := (sequence_eq_ok_iff_of_forall h).1 hts
    exact ⟨hall, (Except.ok.inj ht).symm⟩
  · rintro ⟨hall, rfl⟩
    show (sequence (xs.map write) >>= fun ts => pure (bracketed opening closing ts)) = _
    rw [(sequence_eq_ok_iff_of_forall h).2 ⟨hall, rfl⟩]
    rfl

/-- A value is written if and only if its atoms are and it nests no deeper than the limit.  What is
written is the text of the tree of quoted strings and number tokens. -/
theorem writeSpaced_eq_ok_iff {quote : κ → List StrItem} {tok : ν → NumberToken} {q : ν → Prop}
    [DecidablePred q] {limit : ℕ} (hstr : ∀ k, str k = strText (quote k))
    (hnum : ∀ n t, num n = .ok t ↔ q n ∧ t = (tok n).render)
    (henter : ∀ level, enter level = .ok () ↔ level < limit) {v : Json κ ν} {level : ℕ}
    (hlevel : level ≤ limit) {t : Text} :
    writeSpaced str num enter v level = .ok t ↔
      (v.Every (fun _ => True) q (fun _ => True) ∧ level + v.depth ≤ limit) ∧
        t = (v.map quote tok).spaced := by
  have hleaf : ∀ {P : Prop} {level : ℕ} {x t : Text}, P → level ≤ limit →
      ((Except.ok x : Except ε Text) = .ok t ↔ (P ∧ level + 0 ≤ limit) ∧ t = x) := by
    intro P level x t hP hlevel
    rw [Except.ok.injEq, eq_comm]
    exact (and_iff_right ⟨hP, hlevel⟩).symm
  -- An array or object that stands at the limit is refused, and nests one level further.
  have hrefused : ∀ {level n : ℕ} {rest : Except ε Text} {P : Prop} {x t : Text}, ¬ level < limit →
      ((do enter level; rest) = .ok t ↔ (P ∧ level + (n + 1) ≤ limit) ∧ t = x) := by
    intro level n rest P x t hlt
    refine iff_of_false (fun hwrite => ?_) fun h => hlt (by omega)
    obtain ⟨u, hu, -⟩ := bind_eq_ok hwrite
    exact hlt ((henter level).1 hu)
  induction v using Json.inductionOn generalizing level t with
  | null => exact hleaf every_null hlevel
  | bool b => exact hleaf (every_bool b) hlevel
  | str s =>
      show (Except.ok (str s) : Except ε Text) = .ok t ↔ _
      rw [hstr]
      exact hleaf ((every_str s).2 trivial) hlevel
  | num n =>
      show num n = .ok t ↔ _
      rw [hnum, every_num]
      exact and_congr_left' (and_iff_left hlevel).symm
  | arr xs ih =>
      rw [writeSpaced_arr, map_arr, spaced_arr, List.map_map]
      by_cases hlt : level < limit
      · obtain ⟨room, hroom⟩ := Nat.exists_eq_add_of_lt hlt
        have hnests : level + (arr xs).depth ≤ limit ↔ ∀ x ∈ xs, level + 1 + x.depth ≤ limit := by
          rw [hroom, show level + room + 1 = level + (room + 1) from rfl, Nat.add_le_add_iff_left,
            depth_arr_le_iff]
          exact forall₂_congr fun x _ => by omega
        rw [bracketed_eq_ok_iff ((henter level).2 hlt) fun x hx t => ih x hx hlt, every_arr, hnests,
          forall₂_and]
        rfl
      · rw [depth_arr]
        exact hrefused hlt
  | obj ms ih =>
      rw [writeSpaced_obj, map_obj, spaced_obj, List.map_map]
      by_cases hlt : level < limit
      · obtain ⟨room, hroom⟩ := Nat.exists_eq_add_of_lt hlt
        have hnests : level + (obj ms).depth ≤ limit ↔ ∀ m ∈ ms, level + 1 + m.2.depth ≤ limit := by
          rw [hroom, show level + room + 1 = level + (room + 1) from rfl, Nat.add_le_add_iff_left,
            depth_obj_le_iff]
          exact forall₂_congr fun m _ => by omega
        have hmember : ∀ m ∈ ms, ∀ t,
            (writeSpaced str num enter m.2 (level + 1)).map (fun x => str m.1 ++ ':'.toNat :: ' '.toNat :: x)
                = .ok t ↔
              (m.2.Every (fun _ => True) q (fun _ => True) ∧ level + 1 + m.2.depth ≤ limit) ∧
                t = strText (quote m.1) ++ ':'.toNat :: ' '.toNat :: spaced (m.2.map quote tok) := by
          intro m hm t
          constructor
          · intro hmap
            obtain ⟨x, hx, rfl⟩ := exists_of_map_eq_ok hmap
            obtain ⟨hwrites, rfl⟩ := (ih m hm hlt).1 hx
            exact ⟨hwrites, by rw [hstr]⟩
          · rintro ⟨hwrites, rfl⟩
            rw [(ih m hm hlt).2 ⟨hwrites, rfl⟩, hstr]
            rfl
        rw [bracketed_eq_ok_iff ((henter level).2 hlt) hmember, every_obj, hnests, forall₂_and]
        simp only [true_and]
        rfl
      · rw [depth_obj]
        exact hrefused hlt

/-- Writing depends on the atoms of the value. -/
theorem writeSpaced_congr {num' : ν → Except ε Text} {q : ν → Prop} [DecidablePred q]
    (hnum : ∀ n, q n → num n = num' n) {v : Json κ ν} (hv : v.Every (fun _ => True) q (fun _ => True))
    (level : ℕ) : writeSpaced str num enter v level = writeSpaced str num' enter v level := by
  induction v using Json.inductionOn generalizing level with
  | null => rfl
  | bool b => rfl
  | str s => rfl
  | num n => exact hnum n ((every_num n).1 hv)
  | arr xs ih =>
      have hxs : (xs.map fun x => writeSpaced str num enter x (level + 1))
          = xs.map fun x => writeSpaced str num' enter x (level + 1) :=
        List.map_congr_left fun x hx => ih x hx ((every_arr xs).1 hv x hx) (level + 1)
      rw [writeSpaced_arr, writeSpaced_arr, hxs]
  | obj ms ih =>
      have hms : (ms.map fun m => (writeSpaced str num enter m.2 (level + 1)).map
          fun x => str m.1 ++ ':'.toNat :: ' '.toNat :: x)
            = ms.map fun m => (writeSpaced str num' enter m.2 (level + 1)).map
                fun x => str m.1 ++ ':'.toNat :: ' '.toNat :: x :=
        List.map_congr_left fun m hm => by
          rw [ih m hm (((every_obj ms).1 hv).2 m hm).2 (level + 1)]
      rw [writeSpaced_obj, writeSpaced_obj, hms]

end Write

end Json
