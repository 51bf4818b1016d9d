import ZarrInline.Rules.Codec
import ZarrInline.Rust.Inlining
import ZarrInline.Rust.Validator

/-!
# The value codec of Rust over trees

What the value codec of `document.rs` makes of the trees that texts leave.  It decodes and
encodes as `Rules.decodeTree` and `Rules.encodeTree` do, for trees that nest at most 127, if the
base64 engine is the standard one.
-/

namespace Rust

open Json (Tree WellFormed canonicalBytes canonicalRaw)
open Numeric (Text NumberToken)
open Rules (isContainer treeIssue decodeTree encodeTree inlineTree?)

variable {C : Crates} {t : Tree} {key : RustString} {data : Bytes} {value : Value}

/-- `BASE64_STANDARD_STRICT` is standard base64: required padding, and bits left over before the
padding may be anything. -/
structure Crates.IsStandard (C : Crates) : Prop where
  encode : ∀ data, C.base64Encode data = ofCodes (Base64.encode data)
  decode : ∀ text, C.base64Decode text = Base64.decode (codes text)

/-- The value of a tree. -/
def ofTree (t : Tree) : Value := t.map ofCodes id

theorem ofTree_obj (ms : List (Text × Tree)) :
    ofTree (.obj ms) = .obj (ms.map fun m => (ofCodes m.1, ofTree m.2)) :=
  Json.map_obj ..

/-! ## Kinds -/

theorem isObject_ofTree : isObject (ofTree t) = t.isObj := by
  cases t <;> rfl

theorem isArray_ofTree : isArray (ofTree t) = Rules.isArray t := by
  cases t <;> rfl

theorem isString_ofTree : isString (ofTree t) = Rules.isString t := by
  cases t <;> rfl

/-! ## Decoding -/

theorem hasNumbers_ofTree (h : WellFormed t) : (ofTree t).HasNumbers :=
  Json.hasNumbers_map.2 h.hasNumbers

/-- The value of a tree has distinct names and numbers in range. -/
theorem isValue_ofTree (h : WellFormed t) : IsValue (ofTree t) := by
  rw [IsValue, ofTree, Json.every_map]
  refine h.and_names.imp (fun _ _ => trivial) (fun _ => id) fun ks hks => ?_
  refine Json.ordered_noRank_map hks.1 fun k hk l hl heq => ?_
  rw [← codes_ofCodes (hks.2 k hk), heq, codes_ofCodes (hks.2 l hl)]

theorem canonicalTree_ofTree (h : WellFormed t) : canonicalTree (ofTree t) = canonicalRaw t := by
  rw [canonicalTree, ofTree, Json.map_map, canonicalRaw]
  refine Json.map_congr h (fun s hs => ?_) fun _ _ => rfl
  rw [codes_ofCodes hs]

theorem canonicalToString_ofTree (h : WellFormed t) :
    canonicalToString C (ofTree t) = .ok (Json.canonicalText t) := by
  rw [canonicalToString_eq (hasNumbers_ofTree h), canonicalTree_ofTree h]
  rfl

theorem takesJson_ofTree (hcont : isContainer t = true) (hobj : isMetadataKey key = true → t.isObj = true) :
    TakesJson key (ofTree t) := by
  cases hkey : isMetadataKey key with
  | true => exact (TakesJson.of_metadata hkey).2 (isObject_ofTree.trans (hobj hkey))
  | false =>
      rw [TakesJson.of_byteKey hkey, isArray_ofTree, isObject_ofTree]
      exact hcont

/-- What is stored as it stands is read as its canonical bytes. -/
theorem decodeValue_ofTree (hwell : WellFormed t) (hcont : isContainer t = true)
    (hobj : isMetadataKey key = true → t.isObj = true) :
    decodeValue C key (ofTree t) = .ok (canonicalBytes t) := by
  rw [(takesJson_ofTree hcont hobj).decodeValue_eq, canonicalToString_ofTree hwell]
  rfl

theorem decodeValue_str (hC : C.IsStandard) {s : Text} (hkey : isMetadataKey key = false)
    (hs : ∀ c ∈ s, Unicode.IsScalar c) :
    (decodeValue C key (.str (ofCodes s))).toOption = Base64.decode s := by
  simp only [decodeValue, hkey, Bool.false_eq_true, if_false, hC.decode, codes_ofCodes hs]
  cases Base64.decode s <;> rfl

/-- What is no base64 is no panic. -/
theorem ne_panic_of_decodeValue_str {s : RustString} (hkey : isMetadataKey key = false) {e : RustError}
    (h : decodeValue C key (.str s) = .error e) : e ≠ .panic := by
  simp only [decodeValue, hkey, Bool.false_eq_true, if_false] at h
  intro he
  rw [he] at h
  cases hdecode : C.base64Decode s with
  | some data => rw [hdecode] at h; cases h
  | none => rw [hdecode] at h; cases h

/-! ## Encoding -/

/-- Canonical bytes are stored as the canonical form of their tree. -/
theorem encodeValue_canonicalBytes (hwell : WellFormed t) (hdepth : t.depth ≤ 127)
    (hcont : isContainer t = true) (hobj : isMetadataKey key = true → t.isObj = true) :
    encodeValue C key (canonicalBytes t) = .ok (ofTree (encodeTree (canonicalBytes t))) := by
  have hdepth' : (ofTree t).depth ≤ 127 := by
    rwa [ofTree, Json.depth_map]
  have hform : canonicalValue (ofTree t) = ofTree (Json.canonicalForm t) := by
    rw [canonicalValue, ofTree, Json.map_map, ofTree, Json.canonicalForm, Json.map_map]
    rfl
  have hencode := encodeValue_canonicalTree (C := C) (isValue_ofTree hwell) (takesJson_ofTree hcont hobj)
  rw [canonicalTree_ofTree hwell, if_pos hdepth', hform] at hencode
  rw [Rules.encodeTree_canonicalBytes hwell hcont]
  exact hencode

/-- What is inlined has the payload for canonical bytes. -/
theorem exists_canonicalBytes_of_tryInlineJson (h : tryInlineJson C data = .ok (some value)) :
    ∃ t, WellFormed t ∧ isContainer t = true ∧ canonicalBytes t = data := by
  unfold tryInlineJson at h
  split at h
  · cases h
  · next parsed hparsed =>
      split at h
      · next hcont =>
          have hvalue := isValue_of_strictFromSlice hparsed
          rw [canonicalToString_eq hvalue.hasNumbers] at h
          have hsome : (if Unicode.encodeUtf8 (canonicalTree parsed).text = data then some parsed else none)
              = some value := Except.ok.inj h
          split_ifs at hsome with hdata
          refine ⟨parsed.map codes id, ?_, ?_, ?_⟩
          · rw [WellFormed, Json.every_map]
            refine hvalue.imp (fun s _ => isScalar_codes s) (fun _ => id) fun ks hks => ?_
            refine Json.ordered_noRank_map hks fun k _ l _ heq => ?_
            rw [← ofCodes_codes k, heq, ofCodes_codes]
          · cases parsed with
            | arr xs => rfl
            | obj ms => rfl
            | _ => cases hcont
          · rw [← hdata, canonicalBytes, Json.canonicalText, Json.map_map]
            rfl
      · cases h

/-- At a byte key, payloads are stored as their trees. -/
theorem encodeValue_eq_ofTree (hC : C.IsStandard) (hkey : isMetadataKey key = false)
    (h : ∀ u, inlineTree? data = some u → u.depth ≤ 127) :
    encodeValue C key data = .ok (ofTree (encodeTree data)) := by
  cases hinline : inlineTree? data with
  | some u =>
      obtain ⟨hwell, hcont, rfl⟩ := Rules.inlineTree?_eq_some hinline
      refine encodeValue_canonicalBytes hwell (h u hinline) hcont fun hmeta => ?_
      rw [hkey] at hmeta
      cases hmeta
  | none =>
      obtain ⟨inlined, htry⟩ := exists_tryInlineJson (C := C) data
      obtain rfl : inlined = none := by
        cases inlined with
        | none => rfl
        | some value =>
            obtain ⟨t, hwell, hcont, rfl⟩ := exists_canonicalBytes_of_tryInlineJson htry
            rw [Rules.inlineTree?_canonicalBytes hwell hcont] at hinline
            cases hinline
      have hnotMeta : ¬ isMetadataKey key = true := by
        rw [hkey]
        exact Bool.false_ne_true
      rw [Rules.encodeTree_of_none hinline, encodeValue, if_neg hnotMeta, htry, hC.encode]
      rfl

end Rust
