import ZarrInline.TypeScript.Inlining

/-!
# Portable texts in TypeScript

A number is a double or a big integer here, and an object enumerates its index names
first.  For a text without index names and without lone surrogates neither shows: the text
is accepted if its numbers are in range (`exists_strictParse_iff`), and the canonical text
of what it parses to is that of the tree it left (`canonicalStringify_strictParse`).
-/

namespace TypeScript

open Numeric (Text Double NumberToken)

/-! ## Numbers -/

/-- A safe integer is printed as it was written, save for the spelling `-0`. -/
theorem toToken_ofToken {n : NumberToken} (hn : n.IsInteger) (hsafe : (Double.ofToken n).IsSafeInteger) :
    (Double.ofToken n).toToken = .ofInt n.intValue := by
  rw [Double.ofToken, NumberToken.magnitude_of_isInteger hn] at hsafe ⊢
  have hlt := (Double.isSafeInteger_ofMagnitude _ _).1 hsafe
  rw [← Double.toToken_ofInt hlt, Double.ofInt]
  by_cases h0 : n.intValue = 0
  · rw [h0, Int.natAbs_zero, Nat.cast_zero, Double.ofMagnitude_zero, Double.ofMagnitude_zero]
    simp [Double.toToken]
  · have hneg : n.neg = decide (n.intValue < 0) := by
      unfold NumberToken.intValue at h0 ⊢
      cases n.neg with
      | false => simp
      | true =>
          simp at h0 ⊢
          omega
    rw [hneg]

/-- The reviver accepts the numbers in range, and the atom it gives is printed in the
canonical form of the token. -/
theorem revive_eq (n : NumberToken) :
    (∃ a, revive {} n = .ok a ∧ atomToken a = Json.canonicalToken n) ∧ Json.InRange n ∨
      revive {} n = .error .overflow ∧ ¬ Json.InRange n := by
  unfold revive Json.canonicalToken Json.InRange
  simp only [Bool.false_eq_true, false_or]
  by_cases hn : n.IsInteger
  · refine Or.inl ⟨?_, Or.inl hn⟩
    rw [if_pos hn]
    by_cases hsafe : (Double.ofToken n).IsSafeInteger
    · refine ⟨.number (Double.ofToken n), ?_, toToken_ofToken hn hsafe⟩
      simp [hsafe, isFinite_of_isSafeInteger hsafe]
    · exact ⟨.bigint n.intValue, by simp [hsafe, hn], rfl⟩
  · by_cases hfin : (Double.ofToken n).IsFinite
    · exact Or.inl ⟨⟨.number (Double.ofToken n), by simp [hn, hfin], by simp [hn, atomToken]⟩,
        Or.inr hfin⟩
    · exact Or.inr ⟨by simp [hn, hfin], by simp [hn, hfin]⟩

theorem isOk_revive (n : NumberToken) : Json.IsOk (revive {} n) ↔ Json.InRange n := by
  rcases revive_eq n with ⟨⟨a, ha, -⟩, hn⟩ | ⟨he, hn⟩
  · simp [ha, hn]
  · simp [he, hn]

theorem atomToken_revive {n : NumberToken} {a : JsAtom} (h : revive {} n = .ok a) :
    atomToken a = Json.canonicalToken n := by
  rcases revive_eq n with ⟨⟨b, hb, htoken⟩, -⟩ | ⟨he, -⟩
  · rw [h] at hb
    cases hb
    exact htoken
  · rw [h] at he
    cases he

/-! ## Texts -/

/-- No member name of a text is an array index. -/
def NoIndexNames (raw : Json.Raw) : Prop :=
  raw.Every (fun _ => True) (fun _ => True) (fun ks => ∀ k ∈ ks, arrayIndex? (stringValue k) = none)

instance : DecidablePred NoIndexNames := fun raw => inferInstanceAs (Decidable (raw.Every _ _ _))

/-- What `JSON.parse` leaves is the tree of the text over code units. -/
theorem load_stringValue {raw : Json.Raw} (hnames : NoIndexNames raw) (hscalars : Json.HasScalars raw) :
    raw.load stringValue arrayIndex? = (Json.read raw).map Unicode.encodeUtf16 id := by
  have hname : stringValue = fun s => Unicode.encodeUtf16 (Json.unescape s) := funext stringValue_eq
  rw [Json.load_noRank hnames, hname]
  refine Json.load_comp (g := Unicode.codePoints)
    (hscalars.imp (fun s hs => Unicode.codePoints_encodeUtf16 hs) (fun _ => id) fun _ => id)

section Text

variable {text : JsString} {raw : Json.Raw}
  (hparse : Json.parse .none (Unicode.codePoints text) = .ok raw) (hnames : NoIndexNames raw)
  (hscalars : Json.HasScalars raw)

include hparse hnames hscalars

theorem strictParse_eq_traverse :
    strictParse text = ((Json.read raw).map Unicode.encodeUtf16 id).traverse (revive {}) := by
  rw [strictParse, jsonParse, hparse]
  exact congrArg (Json.traverse (revive {})) (load_stringValue hnames hscalars)

/-- A text is accepted if its numbers are in range. -/
theorem exists_strictParse_iff : (∃ v, strictParse text = .ok v) ↔ (Json.read raw).HasNumbers := by
  rw [← Json.isOk_iff, strictParse_eq_traverse hparse hnames hscalars, Json.isOk_traverse,
    ← Json.hasNumbers_map (f := Unicode.encodeUtf16), Json.HasNumbers]
  constructor
  · exact Json.Every.imp (fun _ => id) (fun n => (isOk_revive n).1) fun _ => id
  · exact Json.Every.imp (fun _ => id) (fun n => (isOk_revive n).2) fun _ => id

/-- The canonical bytes of what a text parses to are those of its tree. -/
theorem canonicalStringify_strictParse {v : JsValue} (h : strictParse text = .ok v) :
    ∃ s, canonicalStringify v = .ok s ∧
      utf8Encode s = Unicode.encodeUtf8 (Json.canonicalText (Json.read raw)) := by
  have hread : (Json.read raw).Every (fun s => ∀ c ∈ s, Unicode.IsScalar c) (fun _ => True)
      (Json.Ordered Json.noRank) :=
    Json.every_load hscalars
  have htraverse := h
  rw [strictParse_eq_traverse hparse hnames hscalars] at htraverse
  have hok : v.Every Unicode.IsWellFormed JsAtom.IsCanonical (fun _ => True) := by
    have hwf : v.Every Unicode.IsWellFormed (fun _ => True) (fun _ => True) := by
      rw [Json.every_traverse (q := fun _ => True) (fun _ _ _ => Iff.rfl) htraverse, Json.every_map]
      exact hread.imp (fun s hs => Unicode.isWellFormed_encodeUtf16 hs) (fun _ => id) fun _ _ => trivial
    exact (hwf.and (every_strictParse h)).imp (fun _ h => h.1) (fun _ h => h.2) fun _ h => h.1
  have htext : (canonicalTree v).text = Json.canonicalText (Json.read raw) := by
    rw [Json.canonicalText, canonicalTree,
      Json.map_traverse (fun n a (h : revive {} n = .ok a) => atomToken_revive h) htraverse,
      Json.map_map]
    refine congrArg Json.text (Json.map_congr hread (fun s hs => ?_) fun _ _ => rfl)
    rw [Unicode.codePoints_encodeUtf16 hs]
  have hstringify := canonicalStringify_eq_ok_iff.2 ⟨hok, rfl⟩
  refine ⟨_, hstringify, ?_⟩
  rw [utf8Encode_of_isWellFormed (isWellFormed_canonicalStringify hstringify),
    Unicode.codePoints_encodeUtf16 (isScalar_canonicalTree hok), htext]

/-- The tree of a text says whether it parses to an object. -/
theorem isPlainObject_strictParse {v : JsValue} (h : strictParse text = .ok v) :
    isPlainObject v = (Json.read raw).isObj := by
  have hkind : isPlainObject v = v.isObj := by
    have hatom := every_strictParse h
    cases v with
    | num a => cases a <;> first | rfl | exact ((Json.every_num _).1 hatom).elim
    | _ => rfl
  rw [strictParse_eq_traverse hparse hnames hscalars] at h
  rw [hkind, Json.isObj_traverse h, Json.isObj_map]

end Text

end TypeScript
