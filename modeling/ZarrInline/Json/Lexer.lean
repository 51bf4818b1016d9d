import ZarrInline.Json.Tree
import ZarrInline.Numeric.Token

/-!
# The lexical grammar of JSON

The lexer is a transducer: `stepChar` reads one code point in one of six modes
and emits the tokens that end there, `flush` emits what the end of the text
ends.  A run of characters that are not white space, structural or a quotation
mark is one `word`; whether it is a literal, a number token or an error is left to
the parser.  Anything the string grammar refuses is the token `bad`, after which
nothing is read.

A string token keeps how each character was written, since hosts with different
string types read the escapes of surrogates differently.

`lexFrom_text` is the round trip: the compact text of a tree reads as its tokens.
-/

namespace Json

open Numeric (Text NumberToken digitChar)

/-- One character of a string token, as written. -/
inductive StrItem where
  /-- A code point standing for itself. -/
  | raw (c : ℕ)
  /-- A two-character escape, given by the code point it stands for. -/
  | esc (c : ℕ)
  /-- An escape `\u` of four hexadecimal digits. -/
  | unit (u : UInt16)
deriving DecidableEq

/-- A lexical token. -/
inductive Token where
  | lbracket | rbracket | lbrace | rbrace | comma | colon
  | str (items : List StrItem)
  | word (w : Text)
  | bad
deriving DecidableEq

/-- A tree as written: strings as their items, numbers as their tokens, members in
the order of the text. -/
abbrev Raw := Json (List StrItem) NumberToken

/-- The code points of an ASCII text. -/
def lit (s : String) : Text := s.toList.map Char.toNat

/-! ## Characters -/

/-- White space. -/
def IsSpace (c : ℕ) : Prop := c = 0x20 ∨ c = 0x09 ∨ c = 0x0A ∨ c = 0x0D

instance : DecidablePred IsSpace := fun _ => inferInstanceAs (Decidable (_ ∨ _))

/-- The structural character a code point is, if any. -/
def structural? (c : ℕ) : Option Token :=
  if c = '['.toNat then some .lbracket
  else if c = ']'.toNat then some .rbracket
  else if c = '{'.toNat then some .lbrace
  else if c = '}'.toNat then some .rbrace
  else if c = ','.toNat then some .comma
  else if c = ':'.toNat then some .colon
  else none

/-- The quotation mark. -/
def quote : ℕ := '"'.toNat

/-- The reverse solidus. -/
def backslash : ℕ := '\\'.toNat

/-- A character that ends a word. -/
def IsDelimiter (c : ℕ) : Prop := IsSpace c ∨ (structural? c).isSome ∨ c = quote

instance : DecidablePred IsDelimiter := fun _ => inferInstanceAs (Decidable (_ ∨ _))

/-- The character a letter after a reverse solidus stands for. -/
def escaped? (c : ℕ) : Option ℕ :=
  if c = '"'.toNat then some '"'.toNat
  else if c = '\\'.toNat then some '\\'.toNat
  else if c = '/'.toNat then some '/'.toNat
  else if c = 'b'.toNat then some 0x08
  else if c = 'f'.toNat then some 0x0C
  else if c = 'n'.toNat then some 0x0A
  else if c = 'r'.toNat then some 0x0D
  else if c = 't'.toNat then some 0x09
  else none

/-- The letter that escapes a character. -/
def escapeLetter? (c : ℕ) : Option ℕ :=
  if c = '"'.toNat then some '"'.toNat
  else if c = '\\'.toNat then some '\\'.toNat
  else if c = 0x08 then some 'b'.toNat
  else if c = 0x09 then some 't'.toNat
  else if c = 0x0A then some 'n'.toNat
  else if c = 0x0C then some 'f'.toNat
  else if c = 0x0D then some 'r'.toNat
  else none

/-- A hexadecimal digit, in either case. -/
def hexDigit? (c : ℕ) : Option (Fin 16) :=
  if h : '0'.toNat ≤ c ∧ c ≤ '9'.toNat then some ⟨c - '0'.toNat, by simp at h ⊢; omega⟩
  else if h : 'a'.toNat ≤ c ∧ c ≤ 'f'.toNat then some ⟨c - 'a'.toNat + 10, by simp at h ⊢; omega⟩
  else if h : 'A'.toNat ≤ c ∧ c ≤ 'F'.toNat then some ⟨c - 'A'.toNat + 10, by simp at h ⊢; omega⟩
  else none

/-- A hexadecimal digit in lower case. -/
def hexChar (d : Fin 16) : ℕ := if d.val < 10 then '0'.toNat + d else 'a'.toNat + (d - 10)

/-- The four hexadecimal digits of a code unit. -/
def hexDigits (u : UInt16) : List (Fin 16) :=
  [Fin.ofNat 16 (u.toNat / 4096), Fin.ofNat 16 (u.toNat / 256), Fin.ofNat 16 (u.toNat / 16),
    Fin.ofNat 16 u.toNat]

/-- The code unit that hexadecimal digits write. -/
def ofHexDigits (ds : List (Fin 16)) : UInt16 :=
  UInt16.ofNat (ds.foldl (fun n d => 16 * n + d.val) 0)

/-! ## The transducer -/

/-- What the lexer is in the middle of. -/
inductive Mode where
  | start
  | word (w : Text)
  | str (items : List StrItem)
  | esc (items : List StrItem)
  | hex (items : List StrItem) (ds : List (Fin 16))
  | failed
deriving DecidableEq

/-- Read a character outside words and strings. -/
def startChar (c : ℕ) : List Token × Mode :=
  if IsSpace c then ([], .start)
  else
    match structural? c with
    | some t => ([t], .start)
    | none => if c = quote then ([], .str []) else ([], .word [c])

/-- Read a character: the tokens it ends, and the mode after it. -/
def stepChar : Mode → ℕ → List Token × Mode
  | .start, c => startChar c
  | .word w, c =>
      if IsDelimiter c then (.word w :: (startChar c).1, (startChar c).2) else ([], .word (w ++ [c]))
  | .str items, c =>
      if c = quote then ([.str items], .start)
      else if c = backslash then ([], .esc items)
      else if c < 0x20 then ([.bad], .failed)
      else ([], .str (items ++ [.raw c]))
  | .esc items, c =>
      if c = 'u'.toNat then ([], .hex items [])
      else
        match escaped? c with
        | some e => ([], .str (items ++ [.esc e]))
        | none => ([.bad], .failed)
  | .hex items ds, c =>
      match hexDigit? c with
      | none => ([.bad], .failed)
      | some d =>
          if ds.length = 3 then ([], .str (items ++ [.unit (ofHexDigits (ds ++ [d]))]))
          else ([], .hex items (ds ++ [d]))
  | .failed, _ => ([], .failed)

/-- The tokens the end of the text ends. -/
def flush : Mode → List Token
  | .start => []
  | .word w => [.word w]
  | .failed => []
  | _ => [.bad]

/-- The tokens of a text, read from a mode. -/
def lexFrom : Mode → Text → List Token
  | m, [] => flush m
  | m, c :: t => (stepChar m c).1 ++ lexFrom (stepChar m c).2 t

/-- The tokens of a text. -/
def lex (t : Text) : List Token := lexFrom .start t

/-! ## The tokens and the compact text of a tree -/

/-- Lists with a separator between them. -/
def sepBy {α : Type} (sep : α) : List (List α) → List α
  | [] => []
  | x :: xs => x ++ xs.flatMap (sep :: ·)

/-- The tokens of a tree. -/
def tokens : Raw → List Token :=
  fold {
    null := [.word (lit "null")]
    bool := fun b => [.word (if b then lit "true" else lit "false")]
    str := fun s => [.str s]
    num := fun n => [.word n.render]
    arr := fun xs => .lbracket :: (sepBy .comma xs ++ [.rbracket])
    obj := fun ms =>
      .lbrace :: (sepBy .comma (ms.map fun m => .str m.1 :: .colon :: m.2) ++ [.rbrace]) }

/-- The text of one character of a string. -/
def itemText : StrItem → Text
  | .raw c => [c]
  | .esc c => [backslash, (escapeLetter? c).getD c]
  | .unit u => backslash :: 'u'.toNat :: (hexDigits u).map hexChar

/-- The text of a string token. -/
def strText (items : List StrItem) : Text := quote :: (items.flatMap itemText ++ [quote])

/-- The text of a tree without white space. -/
def text : Raw → Text :=
  fold {
    null := lit "null"
    bool := fun b => if b then lit "true" else lit "false"
    str := strText
    num := NumberToken.render
    arr := fun xs => '['.toNat :: (sepBy ','.toNat xs ++ [']'.toNat])
    obj := fun ms =>
      '{'.toNat ::
        (sepBy ','.toNat (ms.map fun m => strText m.1 ++ ':'.toNat :: m.2) ++ ['}'.toNat]) }

/-- A character that may be written so in a string. -/
def StrItem.Valid : StrItem → Prop
  | .raw c => 0x20 ≤ c ∧ c ≠ quote ∧ c ≠ backslash
  | .esc c => (escapeLetter? c).isSome
  | .unit _ => True

instance : DecidablePred StrItem.Valid
  | .raw _ => inferInstanceAs (Decidable (_ ∧ _))
  | .esc _ => inferInstanceAs (Decidable (_ = true))
  | .unit _ => inferInstanceAs (Decidable True)

/-- Every string of a tree is written in valid characters. -/
def Writable (v : Raw) : Prop :=
  v.Every (fun items => ∀ i ∈ items, i.Valid) (fun _ => True) (fun _ => True)

instance : DecidablePred Writable := fun v => inferInstanceAs (Decidable (v.Every _ _ _))

/-- The code points of a compact text are ASCII or belong to a string. -/
theorem forall_mem_text {P : ℕ → Prop} [DecidablePred P] (hP : ∀ c, 0 < c → c < 128 → P c) {v : Raw}
    (hv : v.Every (fun items => ∀ i ∈ items, ∀ c ∈ itemText i, P c) (fun _ => True)
      (fun _ => True)) : ∀ c ∈ v.text, P c := by
  have hlit : ∀ t : Text, (∀ c ∈ t, 0 < c ∧ c < 128) → ∀ c ∈ t, P c := fun t ht c hc =>
    hP c (ht c hc).1 (ht c hc).2
  have hsep : ∀ {ι : Type} (f : ι → Text) (xs : List ι), (∀ x ∈ xs, ∀ c ∈ f x, P c) →
      ∀ c ∈ sepBy ','.toNat (xs.map f), P c := by
    intro ι f xs hxs c hc
    cases xs with
    | nil => cases hc
    | cons x xs =>
        rw [List.map_cons, sepBy, List.flatMap_map, List.mem_append, List.mem_flatMap] at hc
        rcases hc with hc | ⟨y, hy, hc⟩
        · exact hxs x (by simp) c hc
        · rcases List.mem_cons.1 hc with rfl | hc
          · exact hP _ (by decide) (by decide)
          · exact hxs y (by simp [hy]) c hc
  have hstr : ∀ items : List StrItem, (∀ i ∈ items, ∀ c ∈ itemText i, P c) →
      ∀ c ∈ strText items, P c := by
    intro items hitems c hc
    rw [strText, List.mem_cons, List.mem_append, List.mem_flatMap, List.mem_singleton] at hc
    rcases hc with rfl | ⟨i, hi, hc⟩ | rfl
    · exact hP _ (by decide) (by decide)
    · exact hitems i hi c hc
    · exact hP _ (by decide) (by decide)
  induction v using Json.inductionOn with
  | null => exact hlit _ (by decide)
  | bool b => cases b <;> exact hlit _ (by decide)
  | str s => exact hstr s ((every_str s).1 hv)
  | num n => exact hlit _ fun c hc =>
      ⟨NumberToken.pos_of_mem_render n c hc, NumberToken.lt_of_mem_render n c hc⟩
  | arr xs ih =>
      have hxs := hsep text xs fun x hx => ih x hx ((every_arr xs).1 hv x hx)
      rw [text, fold_arr, ← text]
      intro c hc
      rw [List.mem_cons, List.mem_append, List.mem_singleton] at hc
      rcases hc with rfl | hc | rfl
      · exact hP _ (by decide) (by decide)
      · exact hxs c hc
      · exact hP _ (by decide) (by decide)
  | obj ms ih =>
      have hms := hsep (fun m : List StrItem × Raw => strText m.1 ++ ':'.toNat :: m.2.text) ms
        fun m hm c hc => by
          obtain ⟨h1, h2⟩ := ((every_obj ms).1 hv).2 m hm
          rw [List.mem_append, List.mem_cons] at hc
          rcases hc with hc | rfl | hc
          · exact hstr m.1 h1 c hc
          · exact hP _ (by decide) (by decide)
          · exact ih m hm h2 c hc
      rw [text, fold_obj, ← text]
      intro c hc
      rw [List.mem_cons, List.mem_append, List.mem_singleton] at hc
      rcases hc with rfl | hc | rfl
      · exact hP _ (by decide) (by decide)
      · simp only [List.map_map] at hc
        exact hms c hc
      · exact hP _ (by decide) (by decide)

theorem mem_sepBy {α : Type} {sep : α} {xss : List (List α)} {xs : List α} (hxs : xs ∈ xss) {x : α}
    (hx : x ∈ xs) : x ∈ sepBy sep xss := by
  cases xss with
  | nil => cases hxs
  | cons ys xss =>
      rw [sepBy, List.mem_append, List.mem_flatMap]
      rcases List.mem_cons.1 hxs with rfl | hxs
      · exact Or.inl hx
      · exact Or.inr ⟨xs, hxs, List.mem_cons_of_mem _ hx⟩

theorem eq_or_mem_of_mem_sepBy {α : Type} {sep x : α} {xss : List (List α)}
    (hx : x ∈ sepBy sep xss) : x = sep ∨ ∃ xs ∈ xss, x ∈ xs := by
  cases xss with
  | nil => cases hx
  | cons ys xss =>
      rw [sepBy, List.mem_append, List.mem_flatMap] at hx
      rcases hx with hx | ⟨xs, hxs, hx⟩
      · exact Or.inr ⟨ys, by simp, hx⟩
      · rcases List.mem_cons.1 hx with rfl | hx
        · exact Or.inl rfl
        · exact Or.inr ⟨xs, by simp [hxs], hx⟩

/-- The strings of a tree are in its compact text. -/
theorem every_of_text {P : ℕ → Prop} [DecidablePred P] {v : Raw} (h : ∀ c ∈ v.text, P c) :
    v.Every (fun items => ∀ i ∈ items, ∀ c ∈ itemText i, P c) (fun _ => True) (fun _ => True) := by
  have hstr : ∀ items : List StrItem, (∀ c ∈ strText items, P c) →
      ∀ i ∈ items, ∀ c ∈ itemText i, P c := by
    intro items hitems i hi c hc
    refine hitems c (List.mem_cons_of_mem _ (List.mem_append_left _ ?_))
    exact List.mem_flatMap.2 ⟨i, hi, hc⟩
  induction v using Json.inductionOn with
  | null => trivial
  | bool b => trivial
  | num n => exact (every_num n).2 trivial
  | str s => exact (every_str s).2 (hstr s h)
  | arr xs ih =>
      rw [text, fold_arr, ← text] at h
      refine (every_arr xs).2 fun x hx => ih x hx fun c hc => h c ?_
      exact List.mem_cons_of_mem _ (List.mem_append_left _ (mem_sepBy (List.mem_map_of_mem hx) hc))
  | obj ms ih =>
      rw [text, fold_obj, ← text] at h
      simp only [List.map_map] at h
      have hmember : ∀ m ∈ ms, ∀ c ∈ strText m.1 ++ ':'.toNat :: m.2.text, P c := by
        intro m hm c hc
        refine h c (List.mem_cons_of_mem _ (List.mem_append_left _ (mem_sepBy ?_ hc)))
        exact List.mem_map_of_mem hm
      refine (every_obj ms).2 ⟨trivial, fun m hm => ⟨hstr m.1 fun c hc => ?_, ?_⟩⟩
      · exact hmember m hm c (List.mem_append_left _ hc)
      · exact ih m hm fun c hc =>
          hmember m hm c (List.mem_append_right _ (List.mem_cons_of_mem _ hc))

/-! ## Reading the text of a tree -/

/-- The end of the text, or a character that ends a word. -/
def Delimited (t : Text) : Prop := ∀ c rest, t = c :: rest → IsDelimiter c

theorem delimited_nil : Delimited [] := by
  intro c rest h; cases h

theorem delimited_cons {c : ℕ} (h : IsDelimiter c) (t : Text) : Delimited (c :: t) := by
  rintro c' rest heq
  cases heq
  exact h

@[simp] theorem lexFrom_start_cons (c : ℕ) (t : Text) :
    lexFrom .start (c :: t) = (startChar c).1 ++ lexFrom (startChar c).2 t := rfl

theorem lexFrom_structural {c : ℕ} {tok : Token} (h : structural? c = some tok)
    (hs : ¬ IsSpace c) (t : Text) : lexFrom .start (c :: t) = tok :: lexFrom .start t := by
  simp [startChar, hs, h]

theorem lexFrom_word {w w' rest : Text} (hw : ∀ c ∈ w', ¬ IsDelimiter c) (hrest : Delimited rest) :
    lexFrom (.word w) (w' ++ rest) = .word (w ++ w') :: lexFrom .start rest := by
  induction w' generalizing w with
  | nil =>
      cases rest with
      | nil => simp [lexFrom, flush]
      | cons c rest =>
          have hc := hrest c rest rfl
          simp [lexFrom, stepChar, hc]
  | cons c w' ih =>
      have hc := hw c (by simp)
      have := ih (w := w ++ [c]) fun d hd => hw d (by simp [hd])
      simp [lexFrom, stepChar, hc, this]

theorem lexFrom_start_word {w rest : Text} (hne : w ≠ []) (hw : ∀ c ∈ w, ¬ IsDelimiter c)
    (hrest : Delimited rest) : lexFrom .start (w ++ rest) = .word w :: lexFrom .start rest := by
  obtain ⟨c, w, rfl⟩ := List.exists_cons_of_ne_nil hne
  have hc := hw c (by simp)
  simp only [IsDelimiter, not_or, Option.not_isSome_iff_eq_none] at hc
  have := @lexFrom_word [c] w _ (fun d hd => hw d (by simp [hd])) hrest
  simp [startChar, hc, this]

@[simp] theorem hexDigit?_hexChar (d : Fin 16) : hexDigit? (hexChar d) = some d := by
  revert d; decide

theorem ofHexDigits_hexDigits (u : UInt16) : ofHexDigits (hexDigits u) = u := by
  have hu := u.toNat_lt
  have hval : (hexDigits u).foldl (fun n d => 16 * n + d.val) 0 = u.toNat := by
    simp only [hexDigits, List.foldl_cons, List.foldl_nil, Fin.ofNat]
    omega
  rw [ofHexDigits, hval, UInt16.ofNat_toNat]

theorem escaped?_escapeLetter? {c e : ℕ} (h : escapeLetter? c = some e) :
    escaped? e = some c ∧ e ≠ 'u'.toNat := by
  unfold escapeLetter? at h
  split_ifs at h with h1 h2 h3 h4 h5 h6 h7 <;> cases h <;> subst_vars <;> exact ⟨by decide, by decide⟩

theorem lexFrom_hex (items : List StrItem) (d e f g : Fin 16) (t : Text) :
    lexFrom (.hex items []) ([d, e, f, g].map hexChar ++ t)
      = lexFrom (.str (items ++ [.unit (ofHexDigits [d, e, f, g])])) t := by
  simp [lexFrom, stepChar]

theorem lexFrom_item {i : StrItem} (hi : i.Valid) (items : List StrItem) (t : Text) :
    lexFrom (.str items) (itemText i ++ t) = lexFrom (.str (items ++ [i])) t := by
  cases i with
  | raw c =>
      obtain ⟨h1, h2, h3⟩ := hi
      simp [itemText, lexFrom, stepChar, h2, h3, Nat.not_lt.2 h1]
  | esc c =>
      obtain ⟨e, he⟩ := Option.isSome_iff_exists.1 hi
      obtain ⟨hesc, hu⟩ := escaped?_escapeLetter? he
      have hq : backslash ≠ quote := by decide
      simp only [itemText, he, Option.getD_some, List.cons_append, List.nil_append, lexFrom, stepChar,
        if_neg hq, if_true, if_neg hu, hesc]
  | unit u =>
      have hq : backslash ≠ quote := by decide
      simp only [itemText, List.cons_append, lexFrom, stepChar, if_neg hq, if_true, List.nil_append]
      rw [hexDigits, lexFrom_hex, ← hexDigits, ofHexDigits_hexDigits]

theorem lexFrom_items {is : List StrItem} (his : ∀ i ∈ is, i.Valid) (items : List StrItem)
    (t : Text) :
    lexFrom (.str items) (is.flatMap itemText ++ quote :: t)
      = .str (items ++ is) :: lexFrom .start t := by
  induction is generalizing items with
  | nil => simp [lexFrom, stepChar]
  | cons i is ih =>
      rw [List.flatMap_cons, List.append_assoc, lexFrom_item (his i (by simp)),
        ih fun j hj => his j (by simp [hj])]
      simp

theorem lexFrom_strText {is : List StrItem} (his : ∀ i ∈ is, i.Valid) (t : Text) :
    lexFrom .start (strText is ++ t) = .str is :: lexFrom .start t := by
  have h1 : startChar quote = ([], .str []) := by decide
  have := lexFrom_items his [] t
  simp only [List.nil_append] at this
  rw [strText, List.cons_append, lexFrom_start_cons, h1, List.append_assoc]
  simpa using this

theorem not_isDelimiter_render (n : NumberToken) : ∀ c ∈ n.render, ¬ IsDelimiter c := by
  refine NumberToken.forall_mem_render n ?_ ?_
  · decide
  · intro d
    revert d
    decide

theorem render_ne_nil (n : NumberToken) : n.render ≠ [] := by
  intro h
  have := n.int_ne
  simp [NumberToken.render] at h
  exact this h.2.1

/-- A compact text starts with an ASCII character. -/
theorem exists_text_eq_cons (v : Raw) : ∃ c cs, c < 128 ∧ v.text = c :: cs := by
  cases v with
  | null => exact ⟨'n'.toNat, _, by decide, rfl⟩
  | bool b =>
      cases b with
      | false => exact ⟨'f'.toNat, _, by decide, rfl⟩
      | true => exact ⟨'t'.toNat, _, by decide, rfl⟩
  | num n =>
      obtain ⟨c, cs, htext⟩ := List.exists_cons_of_ne_nil (render_ne_nil n)
      exact ⟨c, cs, NumberToken.lt_of_mem_render n c (htext ▸ List.mem_cons_self ..), htext⟩
  | str items => exact ⟨quote, _, by decide, rfl⟩
  | arr xs => exact ⟨'['.toNat, _, by decide, by rw [text, fold_arr]⟩
  | obj ms => exact ⟨'\x7b'.toNat, _, by decide, by rw [text, fold_obj]⟩

/-- A text that reads as the given tokens wherever a delimiter follows. -/
def Lexes (t : Text) (toks : List Token) : Prop :=
  ∀ rest, Delimited rest → lexFrom .start (t ++ rest) = toks ++ lexFrom .start rest

theorem Lexes.flatMap {ι : Type} {f : ι → Text} {g : ι → List Token} {xs : List ι}
    (h : ∀ x ∈ xs, Lexes (f x) (g x)) {rest : Text} (hrest : Delimited rest) :
    Delimited (xs.flatMap (fun x => ','.toNat :: f x) ++ rest) ∧
      lexFrom .start (xs.flatMap (fun x => ','.toNat :: f x) ++ rest)
        = xs.flatMap (fun x => .comma :: g x) ++ lexFrom .start rest := by
  induction xs with
  | nil => exact ⟨by simpa using hrest, rfl⟩
  | cons x xs ih =>
      obtain ⟨hdel, hlex⟩ := ih fun y hy => h y (by simp [hy])
      have hcomma : structural? ','.toNat = some .comma := by decide
      refine ⟨delimited_cons (by decide) _, ?_⟩
      rw [List.flatMap_cons, List.cons_append, List.cons_append,
        lexFrom_structural hcomma (by decide), List.append_assoc, h x (by simp) _ hdel, hlex]
      simp

theorem Lexes.sepBy {ι : Type} {f : ι → Text} {g : ι → List Token} {xs : List ι}
    (h : ∀ x ∈ xs, Lexes (f x) (g x)) :
    Lexes (sepBy ','.toNat (xs.map f)) (Json.sepBy .comma (xs.map g)) := by
  intro rest hrest
  cases xs with
  | nil => rfl
  | cons x xs =>
      obtain ⟨hdel, hlex⟩ := @Lexes.flatMap _ f g xs
        (fun y hy => h y (by simp [hy])) _ hrest
      simp only [List.map_cons, Json.sepBy, List.flatMap_map, List.append_assoc]
      rw [h x (by simp) _ hdel, hlex]

theorem lexes_text {v : Raw} (hv : v.Writable) : Lexes v.text v.tokens := by
  intro rest hrest
  induction v using Json.inductionOn generalizing rest with
  | null => exact lexFrom_start_word (by decide) (by decide) hrest
  | bool b =>
      cases b
      · exact lexFrom_start_word (w := lit "false") (by decide) (by decide) hrest
      · exact lexFrom_start_word (w := lit "true") (by decide) (by decide) hrest
  | str s => exact lexFrom_strText (by simpa [Writable] using hv) rest
  | num n => exact lexFrom_start_word (render_ne_nil n) (not_isDelimiter_render n) hrest
  | arr xs ih =>
      have hopen : structural? '['.toNat = some .lbracket := by decide
      have hclose : structural? ']'.toNat = some .rbracket := by decide
      have hxs : Lexes (Json.sepBy ','.toNat (xs.map text)) (Json.sepBy .comma (xs.map tokens)) :=
        Lexes.sepBy fun x hx rest hrest => ih x hx ((every_arr xs).1 hv x hx) rest hrest
      rw [text, tokens, fold_arr, fold_arr, ← text, ← tokens]
      simp only [List.cons_append, List.append_assoc, List.nil_append]
      rw [lexFrom_structural hopen (by decide), hxs _ (delimited_cons (by decide) _),
        lexFrom_structural hclose (by decide)]
  | obj ms ih =>
      have hopen : structural? '{'.toNat = some .lbrace := by decide
      have hclose : structural? '}'.toNat = some .rbrace := by decide
      have hcolon : structural? ':'.toNat = some .colon := by decide
      have hms := @Lexes.sepBy _
        (fun m : List StrItem × Raw => strText m.1 ++ ':'.toNat :: m.2.text)
        (fun m => .str m.1 :: .colon :: m.2.tokens) ms fun m hm rest hrest => by
          obtain ⟨h1, h2⟩ := ((every_obj ms).1 hv).2 m hm
          rw [List.append_assoc, lexFrom_strText h1, List.cons_append,
            lexFrom_structural hcolon (by decide), ih m hm h2 rest hrest]
          rfl
      rw [text, tokens, fold_obj, fold_obj, ← text, ← tokens]
      simp only [List.cons_append, List.append_assoc, List.nil_append, List.map_map, Function.comp_def]
      rw [lexFrom_structural hopen (by decide), hms _ (delimited_cons (by decide) _),
        lexFrom_structural hclose (by decide)]

/-- The compact text of a tree reads as its tokens. -/
theorem lex_text {v : Raw} (hv : v.Writable) : lex v.text = v.tokens := by
  simpa [lex, lexFrom, flush] using lexes_text hv [] delimited_nil

/-! ## What the strings of a text hold -/

section OfText

variable {P : ℕ → Prop}

/-- A character that the text has, or an escape. -/
def StrItem.OfText (P : ℕ → Prop) : StrItem → Prop
  | .raw c => P c
  | .esc c => c < 128
  | .unit _ => True

instance [DecidablePred P] : DecidablePred (StrItem.OfText P)
  | .raw c => inferInstanceAs (Decidable (P c))
  | .esc c => inferInstanceAs (Decidable (c < 128))
  | .unit _ => inferInstanceAs (Decidable True)

/-- The string that is being read is of the text. -/
def Mode.OfText (P : ℕ → Prop) : Mode → Prop
  | .str items => ∀ i ∈ items, i.OfText P
  | .esc items => ∀ i ∈ items, i.OfText P
  | .hex items _ => ∀ i ∈ items, i.OfText P
  | _ => True

/-- A string token is of the text. -/
def Token.OfText (P : ℕ → Prop) : Token → Prop
  | .str items => ∀ i ∈ items, i.OfText P
  | _ => True

theorem escaped?_lt {c e : ℕ} (h : escaped? c = some e) : e < 128 := by
  unfold escaped? at h
  split_ifs at h <;> cases h <;> decide

theorem ofText_snoc {items : List StrItem} {i : StrItem} (h : ∀ i ∈ items, i.OfText P)
    (hi : i.OfText P) : ∀ j ∈ items ++ [i], j.OfText P := by
  intro j hj
  rcases List.mem_append.1 hj with hj | hj
  · exact h j hj
  · rw [List.mem_singleton.1 hj]
    exact hi

theorem ofText_startChar (c : ℕ) :
    (∀ t ∈ (startChar c).1, t.OfText P) ∧ (startChar c).2.OfText P := by
  have hstructural : ∀ t, structural? c = some t → t.OfText P := by
    intro t ht
    unfold structural? at ht
    split_ifs at ht <;> cases ht <;> trivial
  unfold startChar
  split
  · exact ⟨by simp, trivial⟩
  · split
    · next t ht => exact ⟨by simpa using hstructural t ht, trivial⟩
    · split
      · exact ⟨by simp, by simp [Mode.OfText]⟩
      · exact ⟨by simp, trivial⟩

/-- A character of the text keeps what is read of the text. -/
theorem ofText_stepChar {m : Mode} {c : ℕ} (hm : m.OfText P) (hc : P c) :
    (∀ t ∈ (stepChar m c).1, t.OfText P) ∧ (stepChar m c).2.OfText P := by
  cases m with
  | start => exact ofText_startChar c
  | word w =>
      obtain ⟨htokens, hmode⟩ := ofText_startChar (P := P) c
      simp only [stepChar]
      split
      · exact ⟨List.forall_mem_cons.2 ⟨trivial, htokens⟩, hmode⟩
      · exact ⟨by simp, trivial⟩
  | str items =>
      simp only [stepChar]
      split_ifs
      · exact ⟨List.forall_mem_singleton.2 hm, trivial⟩
      · exact ⟨by simp, hm⟩
      · exact ⟨by simp [Token.OfText], trivial⟩
      · exact ⟨by simp, ofText_snoc hm hc⟩
  | esc items =>
      simp only [stepChar]
      split
      · exact ⟨by simp, hm⟩
      · split
        · next e he => exact ⟨by simp, ofText_snoc hm (escaped?_lt he)⟩
        · exact ⟨by simp [Token.OfText], trivial⟩
  | hex items ds =>
      simp only [stepChar]
      split
      · exact ⟨by simp [Token.OfText], trivial⟩
      · split
        · exact ⟨by simp, ofText_snoc hm trivial⟩
        · exact ⟨by simp, hm⟩
  | failed => exact ⟨by simp [stepChar], trivial⟩

theorem ofText_lexFrom {m : Mode} {t : Text} (hm : m.OfText P) (ht : ∀ c ∈ t, P c) :
    ∀ token ∈ lexFrom m t, token.OfText P := by
  induction t generalizing m with
  | nil =>
      cases m with
      | start => simp [lexFrom, flush]
      | failed => simp [lexFrom, flush]
      | _ => simp [lexFrom, flush, Token.OfText]
  | cons c t ih =>
      obtain ⟨hc, ht⟩ := List.forall_mem_cons.1 ht
      obtain ⟨htokens, hmode⟩ := ofText_stepChar hm hc
      rw [lexFrom]
      intro token htoken
      rcases List.mem_append.1 htoken with h | h
      · exact htokens token h
      · exact ih hmode ht token h

/-- The strings of a tree are among its tokens. -/
theorem every_of_tokens [DecidablePred P] {v : Raw} (h : ∀ token ∈ v.tokens, token.OfText P) :
    v.Every (fun items => ∀ i ∈ items, i.OfText P) (fun _ => True) (fun _ => True) := by
  induction v using Json.inductionOn with
  | null => trivial
  | bool b => trivial
  | num n => exact (every_num n).2 trivial
  | str s => exact (every_str s).2 (h (.str s) (by simp [tokens]))
  | arr xs ih =>
      rw [tokens, fold_arr, ← tokens] at h
      refine (every_arr xs).2 fun x hx => ih x hx fun token htoken => h token ?_
      exact List.mem_cons_of_mem _
        (List.mem_append_left _ (mem_sepBy (List.mem_map_of_mem hx) htoken))
  | obj ms ih =>
      rw [tokens, fold_obj, ← tokens] at h
      simp only [List.map_map] at h
      have hmember : ∀ m ∈ ms, ∀ token ∈ Token.str m.1 :: .colon :: m.2.tokens, token.OfText P := by
        intro m hm token htoken
        refine h token (List.mem_cons_of_mem _ (List.mem_append_left _ (mem_sepBy ?_ htoken)))
        exact List.mem_map_of_mem hm
      refine (every_obj ms).2 ⟨trivial, fun m hm => ⟨hmember m hm (.str m.1) (List.mem_cons_self ..), ?_⟩⟩
      exact ih m hm fun token htoken =>
        hmember m hm token (List.mem_cons_of_mem _ (List.mem_cons_of_mem _ htoken))

end OfText

end Json
