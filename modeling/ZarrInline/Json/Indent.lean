import ZarrInline.Json.Writer

/-!
# Indented text

The text of a tree with one element or member a line, as `json.dumps` lays it out with
`indent=2`.  White space says nothing, so the text reads as the tokens of the tree
(`lex_indented`).

`writeIndented` is a host that writes so, with numbers it may refuse and nesting it may give
up at.
-/

namespace Json

open Numeric (Text NumberToken)

variable {κ ν ε : Type}

/-- A line break and the indentation of a level. -/
def newline (level : ℕ) : Text := '\n'.toNat :: List.replicate (2 * level) ' '.toNat

/-- Items between brackets, each on a line of its own; nothing stands between the brackets
when there are none. -/
def block (opening closing level : ℕ) : List Text → Text
  | [] => [opening, closing]
  | items =>
      opening :: (sepBy ','.toNat (items.map fun item => newline (level + 1) ++ item) ++
        newline level ++ [closing])

theorem block_cons (opening closing level : ℕ) (item : Text) (items : List Text) :
    block opening closing level (item :: items)
      = opening :: (sepBy ','.toNat ((item :: items).map fun item => newline (level + 1) ++ item) ++
          newline level ++ [closing]) := rfl

/-- The text of a tree that stands at a level. -/
def indented : Raw → ℕ → Text :=
  fold {
    null := fun _ => lit "null"
    bool := fun b _ => if b then lit "true" else lit "false"
    str := fun s _ => strText s
    num := fun n _ => n.render
    arr := fun xs level => block '['.toNat ']'.toNat level (xs.map fun x => x (level + 1))
    obj := fun ms level => block '\x7b'.toNat '\x7d'.toNat level
      (ms.map fun m => strText m.1 ++ ':'.toNat :: ' '.toNat :: m.2 (level + 1)) }

theorem indented_arr (xs : List Raw) (level : ℕ) :
    indented (.arr xs) level
      = block '['.toNat ']'.toNat level (xs.map fun x => indented x (level + 1)) := by
  rw [indented, fold_arr]
  simp only [List.map_map]
  rfl

theorem indented_obj (ms : List (List StrItem × Raw)) (level : ℕ) :
    indented (.obj ms) level = block '\x7b'.toNat '\x7d'.toNat level
      (ms.map fun m => strText m.1 ++ ':'.toNat :: ' '.toNat :: indented m.2 (level + 1)) := by
  rw [indented, fold_obj]
  simp only [List.map_map]
  rfl

/-! ## Reading it -/

theorem lexFrom_space {c : ℕ} (h : IsSpace c) (t : Text) :
    lexFrom .start (c :: t) = lexFrom .start t := by
  simp [startChar, h]

theorem lexFrom_spaces {s : Text} (h : ∀ c ∈ s, IsSpace c) (t : Text) :
    lexFrom .start (s ++ t) = lexFrom .start t := by
  induction s with
  | nil => rfl
  | cons c s ih =>
      rw [List.cons_append, lexFrom_space (h c (by simp)), ih fun d hd => h d (by simp [hd])]

theorem isSpace_of_mem_newline {level : ℕ} : ∀ c ∈ newline level, IsSpace c := by
  intro c hc
  rcases List.mem_cons.1 hc with rfl | hc
  · decide
  · rw [List.eq_of_mem_replicate hc]
    decide

/-- A block reads as its items between its brackets. -/
theorem lexes_block {ι : Type} {f : ι → Text} {g : ι → List Token} {xs : List ι}
    (h : ∀ x ∈ xs, Lexes (f x) (g x)) {opening closing : ℕ} {o c : Token}
    (ho : structural? opening = some o) (hc : structural? closing = some c)
    (hos : ¬ IsSpace opening) (hcs : ¬ IsSpace closing) (level : ℕ) :
    Lexes (block opening closing level (xs.map f)) (o :: (sepBy .comma (xs.map g) ++ [c])) := by
  intro rest hrest
  cases hxs : xs with
  | nil =>
      show lexFrom .start (opening :: closing :: rest) = _
      rw [lexFrom_structural ho hos, lexFrom_structural hc hcs]
      rfl
  | cons x xs' =>
      rw [← hxs]
      have hitems : Lexes (sepBy ','.toNat (xs.map fun x => newline (level + 1) ++ f x))
          (sepBy .comma (xs.map g)) := by
        refine Lexes.sepBy fun x hx rest hrest => ?_
        rw [List.append_assoc, lexFrom_spaces isSpace_of_mem_newline, h x hx rest hrest]
      have hblock : block opening closing level (xs.map f)
          = opening :: (sepBy ','.toNat (xs.map fun x => newline (level + 1) ++ f x) ++
              newline level ++ [closing]) := by
        rw [hxs, List.map_cons, block_cons, List.map_cons, List.map_cons, List.map_map]
        rfl
      have hdelimited : Delimited (newline level ++ ([closing] ++ rest)) :=
        delimited_cons (by decide) _
      rw [hblock, List.cons_append, List.append_assoc, List.append_assoc,
        lexFrom_structural ho hos, hitems _ hdelimited, lexFrom_spaces isSpace_of_mem_newline,
        List.singleton_append, lexFrom_structural hc hcs]
      simp

theorem lexes_indented {v : Raw} (hv : v.Writable) (level : ℕ) :
    Lexes (v.indented level) v.tokens := by
  induction v using Json.inductionOn generalizing level with
  | null => exact lexes_text hv
  | bool b => exact lexes_text hv
  | str s => exact lexes_text hv
  | num n => exact lexes_text hv
  | arr xs ih =>
      rw [indented_arr, tokens, fold_arr, ← tokens]
      exact lexes_block (fun x hx => ih x hx ((every_arr xs).1 hv x hx) (level + 1)) (by decide)
        (by decide) (by decide) (by decide) level
  | obj ms ih =>
      have hcolon : structural? ':'.toNat = some .colon := by decide
      rw [indented_obj, tokens, fold_obj, ← tokens]
      simp only [List.map_map, Function.comp_def]
      refine lexes_block (fun m hm rest hrest => ?_) (by decide) (by decide) (by decide) (by decide)
        level
      obtain ⟨h1, h2⟩ := ((every_obj ms).1 hv).2 m hm
      rw [List.append_assoc, lexFrom_strText h1, List.cons_append, List.cons_append,
        lexFrom_structural hcolon (by decide), lexFrom_space (by decide),
        ih m hm h2 (level + 1) rest hrest]
      rfl

/-- The indented text of a tree reads as its tokens. -/
theorem lex_indented {v : Raw} (hv : v.Writable) (level : ℕ) : lex (v.indented level) = v.tokens := by
  simpa [lex, lexFrom, flush] using lexes_indented hv level [] delimited_nil

/-- The indented text of a tree within the limits parses to the tree. -/
theorem parse_indented {l : Limits} {v : Raw} (hw : v.Writable) (hv : Within l v) (level : ℕ) :
    parse l (v.indented level) = .ok v :=
  parse_eq_ok_iff.2 ⟨lex_indented hw level, hv⟩

/-! ## Its characters -/

/-- A line feed, or no control character. -/
def IsPrinted (c : ℕ) : Prop := c = '\n'.toNat ∨ 0x20 ≤ c

instance : DecidablePred IsPrinted := fun _ => inferInstanceAs (Decidable (_ ∨ _))

theorem isPrinted_block {opening closing level : ℕ} {items : List Text} (ho : IsPrinted opening)
    (hclose : IsPrinted closing) (hitems : ∀ item ∈ items, ∀ c ∈ item, IsPrinted c) :
    ∀ c ∈ block opening closing level items, IsPrinted c := by
  have hnewline : ∀ {level}, ∀ c ∈ newline level, IsPrinted c := by
    intro level c hc
    rcases List.mem_cons.1 hc with rfl | hc
    · exact Or.inl rfl
    · exact Or.inr (List.eq_of_mem_replicate hc).ge
  intro c hc
  cases items with
  | nil =>
      rcases List.mem_cons.1 hc with rfl | hc
      · exact ho
      · rwa [List.mem_singleton.1 hc]
  | cons item items =>
      rw [block_cons, List.mem_cons, List.mem_append, List.mem_append, List.mem_singleton] at hc
      rcases hc with rfl | (hc | hc) | rfl
      · exact ho
      · rcases eq_or_mem_of_mem_sepBy hc with rfl | ⟨line, hline, hc⟩
        · decide
        · obtain ⟨i, hi, rfl⟩ := List.mem_map.1 hline
          rcases List.mem_append.1 hc with hc | hc
          · exact hnewline c hc
          · exact hitems i hi c hc
      · exact hnewline c hc
      · exact hclose

theorem isPrinted_strText {items : List StrItem} (h : ∀ i ∈ items, i.Valid) :
    ∀ c ∈ strText items, IsPrinted c := by
  have hletter : ∀ c e, escapeLetter? c = some e → IsPrinted e := by
    intro c e he
    unfold escapeLetter? at he
    split_ifs at he <;> cases he <;> decide
  have hhex : ∀ d, IsPrinted (hexChar d) := by decide
  intro c hc
  rw [strText, List.mem_cons, List.mem_append, List.mem_flatMap, List.mem_singleton] at hc
  rcases hc with rfl | ⟨i, hi, hc⟩ | rfl
  · decide
  · have hvalid := h i hi
    cases i with
    | raw d =>
        rw [List.mem_singleton.1 hc]
        exact Or.inr hvalid.1
    | esc d =>
        obtain ⟨e, he⟩ := Option.isSome_iff_exists.1 hvalid
        rw [itemText, he] at hc
        rcases List.mem_cons.1 hc with rfl | hc
        · decide
        · rw [List.mem_singleton.1 hc]
          exact hletter d e he
    | unit u =>
        rcases List.mem_cons.1 hc with rfl | hc
        · decide
        · rcases List.mem_cons.1 hc with rfl | hc
          · decide
          · obtain ⟨d, -, rfl⟩ := List.mem_map.1 hc
            exact hhex d
  · decide

/-- The only control characters of an indented text are line feeds. -/
theorem isPrinted_indented {v : Raw} (hv : v.Writable) (level : ℕ) :
    ∀ c ∈ v.indented level, IsPrinted c := by
  induction v using Json.inductionOn generalizing level with
  | null => show ∀ c ∈ lit "null", IsPrinted c; decide
  | bool b => cases b <;> (show ∀ c ∈ lit _, IsPrinted c; decide)
  | str s => exact isPrinted_strText (by simpa [Writable] using hv)
  | num n => exact NumberToken.forall_mem_render n (by decide) (by decide)
  | arr xs ih =>
      rw [indented_arr]
      refine isPrinted_block (by decide) (by decide) fun item hitem => ?_
      obtain ⟨x, hx, rfl⟩ := List.mem_map.1 hitem
      exact ih x hx ((every_arr xs).1 hv x hx) (level + 1)
  | obj ms ih =>
      rw [indented_obj]
      refine isPrinted_block (by decide) (by decide) fun item hitem => ?_
      obtain ⟨m, hm, rfl⟩ := List.mem_map.1 hitem
      obtain ⟨h1, h2⟩ := ((every_obj ms).1 hv).2 m hm
      intro c hc
      rw [List.mem_append, List.mem_cons, List.mem_cons] at hc
      rcases hc with hc | rfl | rfl | hc
      · exact isPrinted_strText h1 c hc
      · decide
      · decide
      · exact ih m hm h2 (level + 1) c hc

/-! ## Writing it from a host -/

/-- Write a value that stands at a level, up to the first number that cannot be written or
the first array or object that stands too deep. -/
def writeIndented (str : κ → Text) (num : ν → Except ε Text) (enter : ℕ → Except ε Unit) :
    Json κ ν → ℕ → Except ε Text :=
  fold {
    null := fun _ => .ok (lit "null")
    bool := fun b _ => .ok (if b then lit "true" else lit "false")
    str := fun s _ => .ok (str s)
    num := fun n _ => num n
    arr := fun xs level => do
      enter level
      let xs ← sequence (xs.map fun x => x (level + 1))
      return block '['.toNat ']'.toNat level xs
    obj := fun ms level => do
      enter level
      let ms ← sequence (ms.map fun m =>
        (m.2 (level + 1)).map fun x => str m.1 ++ ':'.toNat :: ' '.toNat :: x)
      return block '\x7b'.toNat '\x7d'.toNat level ms }

section Write

variable {str : κ → Text} {num : ν → Except ε Text} {enter : ℕ → Except ε Unit}

theorem writeIndented_arr_eq_ok {xs : List (Json κ ν)} {level : ℕ} {t : Text}
    (h : writeIndented str num enter (.arr xs) level = .ok t) :
    ∃ ts, List.Forall₂ (fun x t => writeIndented str num enter x (level + 1) = .ok t) xs ts ∧
      t = block '['.toNat ']'.toNat level ts := by
  rw [writeIndented, fold_arr, ← writeIndented] at h
  simp only [List.map_map, Function.comp_def] at h
  cases henter : enter level with
  | error e => rw [henter] at h; cases h
  | ok u =>
      rw [henter] at h
      cases hseq : sequence (xs.map fun x => writeIndented str num enter x (level + 1)) with
      | error e => rw [hseq] at h; cases h
      | ok ts =>
          rw [hseq] at h
          cases h
          exact ⟨ts, sequence_eq_ok.1 hseq, rfl⟩

theorem writeIndented_obj_eq_ok {ms : List (κ × Json κ ν)} {level : ℕ} {t : Text}
    (h : writeIndented str num enter (.obj ms) level = .ok t) :
    ∃ ts, List.Forall₂ (fun m t => ∃ x, writeIndented str num enter m.2 (level + 1) = .ok x ∧
        t = str m.1 ++ ':'.toNat :: ' '.toNat :: x) ms ts ∧
      t = block '\x7b'.toNat '\x7d'.toNat level ts := by
  rw [writeIndented, fold_obj, ← writeIndented] at h
  simp only [List.map_map, Function.comp_def] at h
  cases henter : enter level with
  | error e => rw [henter] at h; cases h
  | ok u =>
      rw [henter] at h
      cases hseq : sequence (ms.map fun m => (writeIndented str num enter m.2 (level + 1)).map
          fun x => str m.1 ++ ':'.toNat :: ' '.toNat :: x) with
      | error e => rw [hseq] at h; cases h
      | ok ts =>
          rw [hseq] at h
          cases h
          refine ⟨ts, (sequence_eq_ok.1 hseq).imp fun m t ht => ?_, rfl⟩
          obtain ⟨x, hx, rfl⟩ := exists_of_map_eq_ok ht
          exact ⟨x, hx, rfl⟩

/-- What is written is the indented text of the tree of quoted strings and number tokens. -/
theorem writeIndented_eq {quote : κ → List StrItem} {tok : ν → NumberToken}
    (hstr : ∀ k, str k = strText (quote k)) (hnum : ∀ n t, num n = .ok t → t = (tok n).render)
    {v : Json κ ν} {level : ℕ} {t : Text} (h : writeIndented str num enter v level = .ok t) :
    t = (v.map quote tok).indented level := by
  induction v using Json.inductionOn generalizing level t with
  | null => cases h; rfl
  | bool b => cases h; rfl
  | str s => cases h; exact hstr s
  | num n => exact hnum n t h
  | arr xs ih =>
      obtain ⟨ts, hts, rfl⟩ := writeIndented_arr_eq_ok h
      have hmap : ts = xs.map fun x => indented (x.map quote tok) (level + 1) := by
        clear h
        induction hts with
        | nil => rfl
        | cons hxt _ ihs =>
            rw [List.map_cons, ← ih _ (by simp) hxt, ihs fun x hx => ih x (by simp [hx])]
      rw [map_arr, indented_arr, hmap, List.map_map]
      rfl
  | obj ms ih =>
      obtain ⟨ts, hts, rfl⟩ := writeIndented_obj_eq_ok h
      have hmap : ts = ms.map fun m =>
          strText (quote m.1) ++ ':'.toNat :: ' '.toNat :: indented (m.2.map quote tok) (level + 1) := by
        clear h
        induction hts with
        | nil => rfl
        | cons hmt _ ihs =>
            obtain ⟨x, hx, rfl⟩ := hmt
            rw [List.map_cons, ihs fun m hm => ih m (by simp [hm]), hstr, ih _ (by simp) hx]
      rw [map_obj, indented_obj, hmap, List.map_map]
      rfl

/-- Only values whose numbers can be written are written. -/
theorem every_of_writeIndented {v : Json κ ν} {level : ℕ} {t : Text}
    (h : writeIndented str num enter v level = .ok t) :
    v.Every (fun _ => True) (fun n => IsOk (num n)) (fun _ => True) := by
  have hforall : ∀ {ι : Type} {R : ι → Text → Prop} {xs : List ι} {ts : List Text},
      List.Forall₂ R xs ts → ∀ x ∈ xs, ∃ t, R x t := by
    intro ι R xs ts hts x hx
    induction hts with
    | nil => cases hx
    | cons hxt _ ih =>
        rcases List.mem_cons.1 hx with rfl | hx
        · exact ⟨_, hxt⟩
        · exact ih hx
  induction v using Json.inductionOn generalizing level t with
  | null => trivial
  | bool b => trivial
  | str s => trivial
  | num n => exact (every_num n).2 (isOk_iff.2 ⟨t, h⟩)
  | arr xs ih =>
      obtain ⟨ts, hts, -⟩ := writeIndented_arr_eq_ok h
      refine (every_arr xs).2 fun x hx => ?_
      obtain ⟨t, ht⟩ := hforall hts x hx
      exact ih x hx ht
  | obj ms ih =>
      obtain ⟨ts, hts, -⟩ := writeIndented_obj_eq_ok h
      refine (every_obj ms).2 ⟨trivial, fun m hm => ⟨trivial, ?_⟩⟩
      obtain ⟨t, x, hx, -⟩ := hforall hts m hm
      exact ih m hm hx

end Write

end Json
