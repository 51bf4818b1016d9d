import ZarrInline.Rust.Document
import ZarrInline.TypeScript.Portable

/-!
# Canonical bytes across languages

TypeScript reads a number token as a double or a big integer, Rust keeps the token.  What
the two print for it is the canonical form of the token, so the canonical bytes of a text
that both parse are those of the tree it left.
-/

namespace Conformance

open TypeScript (JsValue NoIndexNames)
open Rust (Crates RustString)

/-- The JavaScript string of the characters of a Rust string. -/
def jsString (text : RustString) : TypeScript.JsString := Unicode.encodeUtf16 (Rust.codes text)

theorem codePoints_jsString (text : RustString) :
    Unicode.codePoints (jsString text) = Rust.codes text :=
  Unicode.codePoints_encodeUtf16 (Rust.isScalar_codes text)

variable {C : Crates}

/-- What `strict_from_str` accepts, over the tree of the text. -/
theorem tree_of_strictFromStr {text : RustString} {w : Rust.Value}
    (h : Rust.strictFromStr C text = .ok w) :
    ∃ raw, Json.parse .none (Rust.codes text) = .ok raw ∧ Json.HasScalars raw ∧
      Rust.canonicalToString C w = .ok (Json.canonicalText (Json.read raw)) := by
  obtain ⟨hread, hnumbers⟩ := Rust.strictFromSlice_eq_ok_iff.1 h
  obtain ⟨t, raw, ht, hparse, hscalars, rfl⟩ := Rust.serdeRead_eq_some_iff.1 hread
  rw [Rust.asBytes, Unicode.decodeUtf8_encodeUtf8 fun c hc =>
    ⟨(Rust.isScalar_codes text c hc).1, Or.inr (Rust.isScalar_codes text c hc).2⟩] at ht
  cases ht
  exact ⟨raw, Json.parse_none_of_parse hparse, hscalars, by
    rw [Rust.canonicalToString_eq hnumbers, Rust.canonicalTree_ofRaw hscalars]⟩

/-- A text without index names that both parse has the same canonical bytes in both. -/
theorem canonicalBytes_agree (C : Crates) (text : RustString) (raw : Json.Raw)
    (hparse : Json.parse .none (Rust.codes text) = .ok raw) (hnames : NoIndexNames raw)
    (v : JsValue) (hv : TypeScript.strictParse (jsString text) = .ok v)
    (w : Rust.Value) (hw : Rust.strictFromStr C text = .ok w) :
    ∃ s t, TypeScript.canonicalStringify v = .ok s ∧ Rust.canonicalToString C w = .ok t ∧
      TypeScript.utf8Encode s = Unicode.encodeUtf8 t := by
  obtain ⟨raw', hparse', hscalars, ht⟩ := tree_of_strictFromStr hw
  obtain rfl : raw = raw' := Except.ok.inj (hparse.symm.trans hparse')
  rw [← codePoints_jsString] at hparse
  obtain ⟨s, hs, hbytes⟩ := TypeScript.canonicalStringify_strictParse hparse hnames hscalars hv
  exact ⟨s, _, hs, ht, hbytes⟩

/-- The tree of a text with a long fraction and a negative zero. -/
def sampleTree : Json.Raw :=
  .obj [([.raw 'a'.toNat], .arr [.num { Numeric.NumberToken.ofInt 1 with frac := [5, 0] },
    .num { Numeric.NumberToken.ofInt 0 with neg := true }])]

/-- Its text. -/
def sampleText : RustString := "\x7b\"a\":[1.50,-0]\x7d".toList

theorem codes_sampleText : Rust.codes sampleText = sampleTree.text := by decide

theorem parse_sampleText {l : Json.Limits} (h : Json.Within l sampleTree) :
    Json.parse l (Rust.codes sampleText) = .ok sampleTree := by
  rw [codes_sampleText]
  exact Json.parse_text (by decide) h

theorem hasScalars_sampleTree : Json.HasScalars sampleTree := by decide +kernel

theorem hasNumbers_sampleTree : (Json.read sampleTree).HasNumbers := by
  have hhalf : Json.InRange { Numeric.NumberToken.ofInt 1 with frac := [5, 0] } := by
    refine Or.inr (Numeric.Double.isFinite_ofMagnitude _ (Numeric.NumberToken.magnitude_nonneg _) ?_)
    have hint : (Numeric.NumberToken.ofInt 1).int = [1] := rfl
    have hexp : (Numeric.NumberToken.ofInt 1).exp = none := rfl
    norm_num [Numeric.NumberToken.magnitude, Numeric.NumberToken.expValue, Numeric.ofDigits, hint,
      hexp]
  have hzero : Json.InRange { Numeric.NumberToken.ofInt 0 with neg := true } := Or.inl ⟨rfl, rfl⟩
  have hraw : sampleTree.Every (fun _ => True) Json.InRange (fun _ => True) := by
    simp [sampleTree, hhalf, hzero]
  exact (Json.every_load hraw).imp (fun _ => id) (fun _ => id) fun _ _ => trivial

/-- Both parse the sample. -/
theorem strictParse_sampleText : ∃ v, TypeScript.strictParse (jsString sampleText) = .ok v := by
  have hparse : Json.parse .none (Unicode.codePoints (jsString sampleText)) = .ok sampleTree := by
    rw [codePoints_jsString]
    exact parse_sampleText (Json.within_none _)
  have hnames : NoIndexNames sampleTree := by decide +kernel
  exact (TypeScript.exists_strictParse_iff hparse hnames hasScalars_sampleTree).2
    hasNumbers_sampleTree

theorem strictFromStr_sampleText :
    Rust.strictFromStr Rust.crates sampleText = .ok (Rust.ofRaw sampleTree) := by
  refine Rust.strictFromSlice_eq_ok_iff.2 ⟨Rust.serdeRead_eq_some_iff.2
    ⟨_, sampleTree, Unicode.decodeUtf8_encodeUtf8 fun c hc => ?_, parse_sampleText ?_,
      hasScalars_sampleTree, rfl⟩, Json.hasNumbers_map.2 hasNumbers_sampleTree⟩
  · exact ⟨(Rust.isScalar_codes _ c hc).1, Or.inr (Rust.isScalar_codes _ c hc).2⟩
  · exact ⟨by decide +kernel, by decide +kernel⟩

theorem canonicalBytes_agree_sample :
    ∃ v w, TypeScript.strictParse (jsString sampleText) = .ok v ∧
      Rust.strictFromStr Rust.crates sampleText = .ok w ∧
        ∃ s t, TypeScript.canonicalStringify v = .ok s ∧
          Rust.canonicalToString Rust.crates w = .ok t ∧
            TypeScript.utf8Encode s = Unicode.encodeUtf8 t := by
  obtain ⟨v, hv⟩ := strictParse_sampleText
  exact ⟨v, _, hv, strictFromStr_sampleText, canonicalBytes_agree Rust.crates sampleText sampleTree
    (parse_sampleText (Json.within_none _)) (by decide +kernel) v hv _ strictFromStr_sampleText⟩

end Conformance
