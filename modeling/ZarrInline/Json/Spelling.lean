import ZarrInline.Json.Portable

/-!
# The characters of a text that parses

A text that parses has no character besides the ASCII characters, without the zero, and those
that stand in its strings (`forall_mem_of_parse`).
-/

namespace Json

open Numeric (Text NumberToken)

section Spelling

variable {P : ℕ → Prop} {m : Mode} {t : Text}

/-- A character that stands for itself in a string, control characters aside. -/
def StrItem.Spells (P : ℕ → Prop) : StrItem → Prop
  | .raw c => 0x20 ≤ c → P c
  | _ => True

instance [DecidablePred P] : DecidablePred (StrItem.Spells P)
  | .raw c => inferInstanceAs (Decidable (0x20 ≤ c → P c))
  | .esc _ => inferInstanceAs (Decidable True)
  | .unit _ => inferInstanceAs (Decidable True)

/-- The characters of a token. -/
def Token.Spells (P : ℕ → Prop) : Token → Prop
  | .word w => ∀ c ∈ w, P c
  | .str items => ∀ i ∈ items, i.Spells P
  | .bad => False
  | _ => True

/-- The characters of what is being read. -/
def Mode.Spells (P : ℕ → Prop) : Mode → Prop
  | .word w => ∀ c ∈ w, P c
  | .str items => ∀ i ∈ items, i.Spells P
  | .esc items => ∀ i ∈ items, i.Spells P
  | .hex items _ => ∀ i ∈ items, i.Spells P
  | .failed => False
  | .start => True

theorem spells_of_snoc {items : List StrItem} {i : StrItem} (h : ∀ j ∈ items ++ [i], j.Spells P) :
    (∀ j ∈ items, j.Spells P) ∧ i.Spells P :=
  ⟨fun j hj => h j (List.mem_append_left _ hj), h i (by simp)⟩

/-- What the end of the text ends is what is being read. -/
theorem spells_flush (hm : m ≠ .failed) (h : ∀ token ∈ flush m, token.Spells P) : m.Spells P := by
  cases m with
  | start => trivial
  | word w => exact h _ (List.mem_singleton_self _)
  | failed => exact absurd rfl hm
  | str items => exact (h .bad (List.mem_singleton_self _)).elim
  | esc items => exact (h .bad (List.mem_singleton_self _)).elim
  | hex items ds => exact (h .bad (List.mem_singleton_self _)).elim

theorem spells_startChar (hP : ∀ c, 0 < c → c < 128 → P c) {c : ℕ}
    (h : (startChar c).2.Spells P) : P c := by
  have hspace : IsSpace c → P c := by
    rintro (rfl | rfl | rfl | rfl) <;> exact hP _ (by decide) (by decide)
  have hstructural : ∀ token, structural? c = some token → P c := by
    intro token htoken
    unfold structural? at htoken
    split_ifs at htoken <;> subst_vars <;> exact hP _ (by decide) (by decide)
  unfold startChar at h
  split at h
  · next hc => exact hspace hc
  · split at h
    · next token htoken => exact hstructural token htoken
    · split at h
      · next hc => exact hc ▸ hP _ (by decide) (by decide)
      · exact h c (List.mem_singleton_self c)

theorem startChar_ne_failed (c : ℕ) : (startChar c).2 ≠ .failed := by
  unfold startChar
  split
  · exact Mode.noConfusion
  · split
    · exact Mode.noConfusion
    · split <;> exact Mode.noConfusion

theorem escaped?_range {c e : ℕ} (h : escaped? c = some e) : 0 < c ∧ c < 128 := by
  unfold escaped? at h
  split_ifs at h <;> subst_vars <;> exact ⟨by decide, by decide⟩

theorem hexDigit?_range {c : ℕ} {d : Fin 16} (h : hexDigit? c = some d) : 0 < c ∧ c < 128 := by
  have hbounds : '0'.toNat = 48 ∧ '9'.toNat = 57 ∧ 'a'.toNat = 97 ∧ 'f'.toNat = 102 ∧
      'A'.toNat = 65 ∧ 'F'.toNat = 70 := by decide
  unfold hexDigit? at h
  split_ifs at h with h09 haf hAF <;> omega

/-- A character at which the lexer fails ends a bad token. -/
theorem stepChar_ne_failed {c : ℕ} (hm : m ≠ .failed) (h : .bad ∉ (stepChar m c).1) :
    (stepChar m c).2 ≠ .failed := by
  cases m with
  | start => exact startChar_ne_failed c
  | failed => exact absurd rfl hm
  | word w =>
      rw [stepChar]
      split
      · exact startChar_ne_failed c
      · exact Mode.noConfusion
  | str items =>
      rw [stepChar] at h ⊢
      split_ifs at h ⊢
      · exact Mode.noConfusion
      · exact Mode.noConfusion
      · exact absurd (List.mem_singleton_self _) h
      · exact Mode.noConfusion
  | esc items =>
      rw [stepChar] at h ⊢
      split_ifs at h ⊢
      · exact Mode.noConfusion
      · cases hescaped : escaped? c with
        | some e => exact Mode.noConfusion
        | none =>
            rw [hescaped] at h
            exact absurd (List.mem_singleton_self _) h
  | hex items ds =>
      rw [stepChar] at h ⊢
      cases hdigit : hexDigit? c with
      | none =>
          rw [hdigit] at h
          exact absurd (List.mem_singleton_self _) h
      | some d =>
          show (if ds.length = 3 then _ else _ : List Token × Mode).2 ≠ .failed
          split <;> exact Mode.noConfusion

/-- The mode after a character is of the text only if the character and the mode before it
are. -/
theorem spells_stepChar (hP : ∀ c, 0 < c → c < 128 → P c) {c : ℕ} (hm : m ≠ .failed)
    (htokens : ∀ token ∈ (stepChar m c).1, token.Spells P) (h : (stepChar m c).2.Spells P) :
    m.Spells P ∧ P c := by
  cases m with
  | start => exact ⟨trivial, spells_startChar hP h⟩
  | failed => exact absurd rfl hm
  | word w =>
      rw [stepChar] at htokens h
      split at h
      · next hc =>
          rw [if_pos hc] at htokens
          exact ⟨htokens (.word w) (List.mem_cons_self ..), spells_startChar hP h⟩
      · have hword : ∀ d ∈ w ++ [c], P d := h
        exact ⟨fun d hd => hword d (List.mem_append_left _ hd), hword c (by simp)⟩
  | str items =>
      rw [stepChar] at htokens h
      split_ifs at htokens h with hquote hbackslash hcontrol
      · exact ⟨htokens _ (List.mem_singleton_self _), hquote ▸ hP _ (by decide) (by decide)⟩
      · exact ⟨h, hbackslash ▸ hP _ (by decide) (by decide)⟩
      · exact h.elim
      · obtain ⟨hitems, hc⟩ := spells_of_snoc h
        exact ⟨hitems, hc (not_lt.1 hcontrol)⟩
  | esc items =>
      rw [stepChar] at h
      split_ifs at h with hu
      · exact ⟨h, hu ▸ hP _ (by decide) (by decide)⟩
      · cases hescaped : escaped? c with
        | some e =>
            obtain ⟨hpos, hlt⟩ := escaped?_range hescaped
            rw [hescaped] at h
            exact ⟨(spells_of_snoc h).1, hP c hpos hlt⟩
        | none =>
            rw [hescaped] at h
            exact h.elim
  | hex items ds =>
      rw [stepChar] at h
      cases hdigit : hexDigit? c with
      | none =>
          rw [hdigit] at h
          exact h.elim
      | some d =>
          obtain ⟨hpos, hlt⟩ := hexDigit?_range hdigit
          rw [hdigit] at h
          replace h : (if ds.length = 3 then _ else _ : List Token × Mode).2.Spells P := h
          refine ⟨?_, hP c hpos hlt⟩
          split at h
          · exact (spells_of_snoc h).1
          · exact h

/-- The characters of a text without bad tokens are ASCII, or those of the tokens. -/
theorem spells_lexFrom (hP : ∀ c, 0 < c → c < 128 → P c) (hm : m ≠ .failed)
    (h : ∀ token ∈ lexFrom m t, token.Spells P) : m.Spells P ∧ ∀ c ∈ t, P c := by
  induction t generalizing m with
  | nil => exact ⟨spells_flush hm h, List.forall_mem_nil _⟩
  | cons c t ih =>
      rw [lexFrom, List.forall_mem_append] at h
      obtain ⟨hstep, hrest⟩ := h
      obtain ⟨hmode, ht⟩ := ih (stepChar_ne_failed hm fun hbad => hstep .bad hbad) hrest
      obtain ⟨hm', hc⟩ := spells_stepChar hP hm hstep hmode
      exact ⟨hm', List.forall_mem_cons.2 ⟨hc, ht⟩⟩

/-- The tokens of a tree are not bad, and those that are no strings are ASCII. -/
theorem spells_tokens [DecidablePred P] (hP : ∀ c, 0 < c → c < 128 → P c) {v : Raw}
    (hv : v.Every (fun items => ∀ i ∈ items, i.Spells P) (fun _ => True) (fun _ => True)) :
    ∀ token ∈ v.tokens, token.Spells P := by
  have hlit : ∀ w : Text, (∀ c ∈ w, 0 < c ∧ c < 128) → ∀ token ∈ [Token.word w], token.Spells P := by
    intro w hw token htoken
    rw [List.mem_singleton.1 htoken]
    exact fun c hc => hP c (hw c hc).1 (hw c hc).2
  have hsep : ∀ tss : List (List Token), (∀ ts ∈ tss, ∀ token ∈ ts, token.Spells P) →
      ∀ token ∈ sepBy .comma tss, token.Spells P := by
    intro tss htss token htoken
    rcases eq_or_mem_of_mem_sepBy htoken with rfl | ⟨ts, hts, htoken⟩
    · trivial
    · exact htss ts hts token htoken
  induction v using Json.inductionOn with
  | null => exact hlit _ (by decide)
  | bool b => cases b <;> exact hlit _ (by decide)
  | str s =>
      intro token htoken
      rw [List.mem_singleton.1 htoken]
      exact (every_str s).1 hv
  | num n => exact hlit _ fun c hc =>
      ⟨NumberToken.pos_of_mem_render n c hc, NumberToken.lt_of_mem_render n c hc⟩
  | arr xs ih =>
      have hxs := hsep (xs.map tokens)
        (List.forall_mem_map.2 fun x hx => ih x hx ((every_arr xs).1 hv x hx))
      rw [tokens, fold_arr, ← tokens, List.forall_mem_cons, List.forall_mem_append,
        List.forall_mem_singleton]
      exact ⟨trivial, hxs, trivial⟩
  | obj ms ih =>
      have hmember : ∀ m ∈ ms, ∀ token ∈ Token.str m.1 :: .colon :: m.2.tokens, token.Spells P := by
        intro m hm
        obtain ⟨hname, hvalue⟩ := ((every_obj ms).1 hv).2 m hm
        rw [List.forall_mem_cons, List.forall_mem_cons]
        exact ⟨hname, trivial, ih m hm hvalue⟩
      have hms := hsep (ms.map fun m => .str m.1 :: .colon :: m.2.tokens)
        (List.forall_mem_map.2 hmember)
      rw [tokens, fold_obj, ← tokens, List.forall_mem_cons, List.forall_mem_append,
        List.forall_mem_singleton]
      simp only [List.map_map]
      exact ⟨trivial, hms, trivial⟩

end Spelling

/-- A text that parses has no character besides ASCII and the characters of its strings. -/
theorem forall_mem_of_parse {P : ℕ → Prop} [DecidablePred P] (hP : ∀ c, 0 < c → c < 128 → P c)
    {l : Limits} {t : Text} {v : Raw} (h : parse l t = .ok v)
    (hv : v.Every (fun items => ∀ i ∈ items, i.Spells P) (fun _ => True) (fun _ => True)) :
    ∀ c ∈ t, P c := by
  have hlex : lex t = v.tokens := (parse_eq_ok_iff.1 h).1
  have hstart : Mode.start ≠ .failed := Mode.noConfusion
  refine (spells_lexFrom hP hstart ?_).2
  rw [← lex, hlex]
  exact spells_tokens hP hv

/-- No character of a text that parses is zero. -/
theorem pos_of_parse {l : Limits} {t : Text} {v : Raw} (h : parse l t = .ok v) : ∀ c ∈ t, 0 < c := by
  refine forall_mem_of_parse (fun c hc _ => hc) h (every_of_forall (fun items i _ => ?_) ?_ ?_ v)
  · cases i with
    | raw c => exact fun hc => lt_of_lt_of_le (by decide) hc
    | _ => trivial
  · exact fun _ => trivial
  · exact fun _ => trivial

theorem mem_unescape_of_raw {items : List StrItem} {c : ℕ} (h : .raw c ∈ items) :
    c ∈ unescape items := by
  have hunit : ∀ (u : UInt16) (rest : List StrItem), .raw c ∈ .unit u :: rest → .raw c ∈ rest := by
    intro u rest hmem
    rcases List.mem_cons.1 hmem with heq | hmem
    · cases heq
    · exact hmem
  induction items using unescape.induct with
  | case1 => cases h
  | case2 d items ih =>
      rcases List.mem_cons.1 h with heq | h
      · cases heq
        exact List.mem_cons_self ..
      · exact List.mem_cons_of_mem _ (ih h)
  | case3 d items ih =>
      rcases List.mem_cons.1 h with heq | h
      · cases heq
      · exact List.mem_cons_of_mem _ (ih h)
  | case4 u v items hpair ih =>
      rw [unescape, if_pos hpair]
      exact List.mem_cons_of_mem _ (ih (hunit v _ (hunit u _ h)))
  | case5 u v items hpair ih =>
      rw [unescape, if_neg hpair]
      exact List.mem_cons_of_mem _ (ih (hunit u _ h))
  | case6 u items hnext ih =>
      rw [unescape]
      · exact List.mem_cons_of_mem _ (ih (hunit u _ h))
      · exact hnext

/-- A text whose strings have no lone surrogates has none itself. -/
theorem isScalar_of_parse {l : Limits} {t : Text} {v : Raw} (h : parse l t = .ok v)
    (hscalars : HasScalars v) : ∀ c ∈ t, Unicode.IsScalar c := by
  refine forall_mem_of_parse (fun c _ hc => Unicode.isScalar_of_lt (hc.trans (by decide))) h
    (hscalars.imp (fun items hitems i hi => ?_) (fun _ => id) fun _ => id)
  cases i with
  | raw c => exact fun _ => hitems c (mem_unescape_of_raw hi)
  | _ => trivial

end Json
