import ZarrInline.Json.Portable

/-!
# Trees and their canonical bytes

A tree is what hosts agree that a text says: strings of code points, number tokens, members
with distinct names.  Its canonical bytes parse to a tree in canonical form, and that form has
the same canonical bytes.
-/

namespace Json

open Numeric (Text Double NumberToken)

/-- What a text says. -/
abbrev Tree := Json Text NumberToken

/-- The strings have no lone surrogates, the numbers are in range, and the names of an object
are distinct. -/
def WellFormed (t : Tree) : Prop :=
  t.Every (fun s => ∀ c ∈ s, Unicode.IsScalar c) InRange (Ordered noRank)

instance : DecidablePred WellFormed := fun t => inferInstanceAs (Decidable (t.Every _ _ _))

/-- The tree with its number tokens in canonical form. -/
def canonicalForm (t : Tree) : Tree := t.map id canonicalToken

/-- The tree as it is written. -/
def canonicalRaw (t : Tree) : Raw := t.map canonicalItems canonicalToken

/-- The canonical bytes. -/
def canonicalBytes (t : Tree) : List UInt8 := Unicode.encodeUtf8 (canonicalText t)

variable {t : Tree}

theorem WellFormed.scalars (h : WellFormed t) :
    t.Every (fun s => ∀ c ∈ s, Unicode.IsScalar c) (fun _ => True) (fun _ => True) :=
  h.imp (fun _ => id) (fun _ _ => trivial) fun _ _ => trivial

theorem WellFormed.hasNumbers (h : WellFormed t) : t.HasNumbers :=
  h.imp (fun _ _ => trivial) (fun _ => id) fun _ _ => trivial

/-- A text without lone surrogates says a tree, if its numbers are in range. -/
theorem wellFormed_read {raw : Raw} (hscalars : HasScalars raw) (hnumbers : (read raw).HasNumbers) :
    WellFormed (read raw) :=
  have hread : (read raw).Every (fun s => ∀ c ∈ s, Unicode.IsScalar c) (fun _ => True) (Ordered noRank) :=
    every_load hscalars
  (hread.and hnumbers).imp (fun _ h => h.1) (fun _ h => h.2) fun _ h => h.1

/-- What holds of the strings of a value holds of the names of its objects. -/
theorem Every.and_names {κ ν : Type} {p : κ → Prop} {q : ν → Prop} {r : List κ → Prop} [DecidablePred p]
    [DecidablePred q] [DecidablePred r] {v : Json κ ν} (h : v.Every p q r) :
    v.Every p q fun ks => r ks ∧ ∀ k ∈ ks, p k := by
  induction v using Json.inductionOn with
  | null => trivial
  | bool b => trivial
  | str s => exact h
  | num n => exact h
  | arr xs ih => exact (every_arr xs).2 fun x hx => ih x hx ((every_arr xs).1 h x hx)
  | obj ms ih =>
      obtain ⟨hnames, hms⟩ := (every_obj ms).1 h
      refine (every_obj ms).2 ⟨⟨hnames, List.forall_mem_map.2 fun m hm => (hms m hm).1⟩, ?_⟩
      intro m hm
      exact ⟨(hms m hm).1, ih m hm (hms m hm).2⟩

/-- Names that stay distinct are in the order in which they occur. -/
theorem ordered_noRank_map {κ κ' : Type} {rank : κ → Option ℕ} {f : κ → κ'} {ks : List κ}
    (h : Ordered rank ks)
    (hf : ∀ k ∈ ks, ∀ l ∈ ks, f k = f l → k = l) : Ordered noRank (ks.map f) := by
  refine List.pairwise_map.2 (h.imp_of_mem fun hk hl hkl => ⟨fun heq => hkl.1 (hf _ hk _ hl heq), ?_⟩)
  exact not_precedes_of_rank_eq_none rfl

/-! ## Reading canonical bytes -/

theorem canonicalRaw_text (t : Tree) : (canonicalRaw t).text = canonicalText t := rfl

theorem writable_canonicalRaw (t : Tree) : (canonicalRaw t).Writable := writable_map t

theorem parse_canonicalText (t : Tree) : parse .none (canonicalText t) = .ok (canonicalRaw t) :=
  parse_none_text (writable_canonicalRaw t)

theorem read_canonicalRaw (h : WellFormed t) : read (canonicalRaw t) = canonicalForm t :=
  load_map (h.imp (fun s _ => unescape_canonicalItems s) (fun _ _ => trivial) fun _ => id)

theorem hasScalars_canonicalRaw (h : WellFormed t) : HasScalars (canonicalRaw t) := by
  rw [HasScalars, canonicalRaw, every_map]
  refine h.scalars.imp (fun s hs => ?_) (fun _ => id) fun _ _ => trivial
  rw [unescape_canonicalItems]
  exact hs

theorem depth_canonicalRaw (t : Tree) : (canonicalRaw t).depth = t.depth := depth_map _ _ t

theorem depth_canonicalForm (t : Tree) : (canonicalForm t).depth = t.depth := depth_map _ _ t

/-- The code points of canonical text are scalars. -/
theorem isScalar_canonicalText (h : WellFormed t) : ∀ c ∈ canonicalText t, Unicode.IsScalar c :=
  forall_mem_text_canonical (fun _ _ hc => Unicode.isScalar_of_lt (hc.trans (by norm_num)))
    (h.imp (fun _ hs c hc _ => hs c hc) (fun _ _ => trivial) fun _ _ => trivial)

theorem decodeUtf8_canonicalBytes (h : WellFormed t) :
    Unicode.decodeUtf8 false (canonicalBytes t) = some (canonicalText t) :=
  Unicode.decodeUtf8_encodeUtf8 fun c hc =>
    ⟨(isScalar_canonicalText h c hc).1, .inr (isScalar_canonicalText h c hc).2⟩

/-! ## Canonical form -/

/-- The canonical form of a number in range is in range. -/
theorem inRange_canonicalToken {n : NumberToken} (h : InRange n) : InRange (canonicalToken n) := by
  unfold canonicalToken
  split
  · exact Or.inl (NumberToken.isInteger_ofInt _)
  · next hn =>
      have hfin := h.resolve_left hn
      rw [InRange, Double.ofToken_toToken hfin]
      exact Or.inr (Double.isFinite_dropNegZero.2 hfin)

theorem canonicalToken_ofInt (i : ℤ) : canonicalToken (.ofInt i) = .ofInt i := by
  rw [canonicalToken, if_pos (NumberToken.isInteger_ofInt i), NumberToken.intValue_ofInt]

/-- A printed number is in canonical form. -/
theorem canonicalToken_toToken {x : Double} (h : x.IsFinite) : canonicalToken x.toToken = x.toToken := by
  unfold canonicalToken
  split
  · next hint => exact (Double.toToken_eq_ofInt hint).symm
  · rw [Double.ofToken_toToken h, Double.toToken_dropNegZero]

theorem WellFormed.canonicalForm (h : WellFormed t) : WellFormed t.canonicalForm := by
  rw [WellFormed, Json.canonicalForm, every_map]
  exact h.imp (fun _ => id) (fun _ => inRange_canonicalToken) fun ks hks => by rwa [List.map_id]

theorem canonicalRaw_canonicalForm (h : WellFormed t) : canonicalRaw (canonicalForm t) = canonicalRaw t := by
  rw [canonicalRaw, canonicalForm, map_map]
  exact map_congr h (fun _ _ => rfl) fun n hn => canonicalToken_canonicalToken hn

theorem canonicalBytes_canonicalForm (h : WellFormed t) :
    canonicalBytes (canonicalForm t) = canonicalBytes t := by
  rw [canonicalBytes, ← canonicalRaw_text, canonicalRaw_canonicalForm h]
  rfl

end Json
