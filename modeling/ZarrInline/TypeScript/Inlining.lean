import ZarrInline.TypeScript.Document

/-!
# Inlining

At a byte key `encodeValue` parses the bytes and keeps the parsed value exactly when
its canonical text is the bytes again.  So decoding gives the bytes back whatever
they are, and which bytes are inlined is known without running the parser: they are
the canonical texts of JSON arrays and objects.
-/

namespace TypeScript

/-! ## UTF-8 -/

theorem utf8Encode_of_isWellFormed {s : JsString} (h : Unicode.IsWellFormed s) :
    utf8Encode s = Unicode.encodeUtf8 (Unicode.codePoints s) := by
  have hmap : (Unicode.codePoints s).map (fun c => if Unicode.IsSurrogate c then 0xFFFD else c)
      = Unicode.codePoints s := by
    refine (List.map_congr_left fun c hc => if_neg (h c hc)).trans (List.map_id _)
  rw [utf8Encode, hmap]

/-- A well-formed string survives the encoding. -/
theorem utf8Decode_utf8Encode {s : JsString} (h : Unicode.IsWellFormed s) :
    utf8Decode (utf8Encode s) = .ok s := by
  have hscalar := Unicode.codePoints_isScalar h
  rw [utf8Encode_of_isWellFormed h, utf8Decode,
    Unicode.decodeUtf8_encodeUtf8 fun c hc => ⟨(hscalar c hc).1, Or.inr (hscalar c hc).2⟩]
  simp only [Unicode.encodeUtf16_codePoints]

/-- The decoder takes only encodings of well-formed strings. -/
theorem utf8Decode_eq_ok {data : Bytes} {s : JsString} (h : utf8Decode data = .ok s) :
    Unicode.IsWellFormed s ∧ utf8Encode s = data := by
  unfold utf8Decode at h
  split at h
  · next cs hcs =>
      cases h
      obtain ⟨hdata, hpass⟩ := Unicode.encodeUtf8_of_decodeUtf8 hcs
      have hscalar : ∀ c ∈ cs, Unicode.IsScalar c := fun c hc =>
        ⟨(hpass c hc).1, (hpass c hc).2.resolve_left (by simp)⟩
      have hwf := Unicode.isWellFormed_encodeUtf16 hscalar
      refine ⟨hwf, ?_⟩
      rw [utf8Encode_of_isWellFormed hwf, Unicode.codePoints_encodeUtf16 hscalar, hdata]
  · cases h

/-! ## Parsed values -/

theorem strictParse_eq_ok {text : JsString} {options : StrictParseOptions} {v : JsValue} :
    strictParse text options = .ok v ↔
      ∃ raw, Json.parse .none (Unicode.codePoints text) = .ok raw ∧
        (raw.load stringValue arrayIndex?).traverse (revive options) = .ok v := by
  unfold strictParse jsonParse
  cases Json.parse .none (Unicode.codePoints text) with
  | error e => simp [bind, Except.bind]
  | ok raw => simp [bind, Except.bind]

theorem isCanonical_revive {options : StrictParseOptions} {source : Numeric.NumberToken}
    {a : JsAtom} (h : revive options source = .ok a) : a.IsCanonical := by
  unfold revive at h
  dsimp only at h
  split_ifs at h with hbig hfin
  · cases h; trivial
  · cases h; exact hfin

/-- A parsed value has finite numbers and big integers for atoms, and its objects
enumerate their members in order. -/
theorem every_strictParse {text : JsString} {options : StrictParseOptions} {v : JsValue}
    (h : strictParse text options = .ok v) :
    v.Every (fun _ => True) JsAtom.IsCanonical (Json.Ordered arrayIndex?) := by
  obtain ⟨raw, -, htrav⟩ := strictParse_eq_ok.1 h
  have hall : raw.Every (fun _ => True) (fun _ => True) (fun _ => True) :=
    (Json.within_none raw).1.imp (fun _ => id) (fun _ _ => trivial) fun _ => id
  refine (Json.every_traverse (q := fun _ => True) ?_ htrav).2 (Json.every_load hall)
  exact fun n a hna => iff_of_true (isCanonical_revive hna) trivial

/-- A parsed value with canonical text is a JSON value. -/
theorem isJson_of_strictParse {text s : JsString} {options : StrictParseOptions} {v : JsValue}
    (h : strictParse text options = .ok v) (hs : canonicalStringify v = .ok s) : IsJson v :=
  ((every_strictParse h).and (canonicalStringify_eq_ok_iff.1 hs).1).imp (fun _ h => h.2)
    (fun _ h => h.1) fun _ h => h.1

theorem isContainer_of_isPlainObject {v : JsValue} {s : JsString}
    (h : isArray v ∨ isPlainObject v) (hs : canonicalStringify v = .ok s) : IsContainer v := by
  cases v with
  | arr xs => trivial
  | obj ms => trivial
  | num a =>
      have hcan := (canonicalStringify_eq_ok_iff.1 hs).1
      cases a <;> simp_all [isArray, isPlainObject, JsAtom.IsCanonical]
  | null => simp [isArray, isPlainObject] at h
  | bool b => simp [isArray, isPlainObject] at h
  | str s => simp [isArray, isPlainObject] at h

theorem isPlainObject_of_isContainer {v : JsValue} (h : IsContainer v) :
    isArray v ∨ isPlainObject v := by
  cases v with
  | arr xs => exact Or.inl rfl
  | obj ms => exact Or.inr rfl
  | null => cases h
  | bool b => cases h
  | str s => cases h
  | num a => cases h

theorem isContainer_map {f : JsAtom → JsAtom} {v : JsValue} :
    IsContainer (v.map id f) ↔ IsContainer v := by
  cases v <;> simp [IsContainer]

/-- Reading an array or object back does not change its canonical text. -/
theorem canonicalStringify_map_reparse {v : JsValue} (h : IsContainer v) :
    canonicalStringify (v.map id reparse) = canonicalStringify v := by
  rw [canonicalStringify_of_isContainer (isContainer_map.2 h), writeCanonical_map_reparse,
    canonicalStringify_of_isContainer h]

theorem isWellFormed_canonicalStringify {v : JsValue} {s : JsString}
    (h : canonicalStringify v = .ok s) : Unicode.IsWellFormed s := by
  obtain ⟨hok, rfl⟩ := canonicalStringify_eq_ok_iff.1 h
  exact Unicode.isWellFormed_encodeUtf16 (isScalar_canonicalTree hok)

/-! ## The inlining rule -/

/-- What is inlined is a JSON array or object with the bytes for canonical text. -/
theorem tryInlineJson_sound {data : Bytes} {v : JsValue} (h : tryInlineJson data = some v) :
    IsContainer v ∧ IsJson v ∧ ∃ s, canonicalStringify v = .ok s ∧ utf8Encode s = data := by
  unfold tryInlineJson at h
  split at h
  · cases h
  · next text htext =>
      split at h
      · cases h
      · next parsed hparsed =>
          split at h
          · next hplain =>
              split at h
              · cases h
              · next canonical hcanonical =>
                  split at h
                  · next heq =>
                      cases h
                      exact ⟨isContainer_of_isPlainObject hplain hcanonical,
                        isJson_of_strictParse hparsed hcanonical, canonical, hcanonical, heq⟩
                  · cases h
          · cases h

/-- The canonical text of a JSON array or object is inlined. -/
theorem tryInlineJson_complete {v : JsValue} {s : JsString} (hv : IsContainer v) (hj : IsJson v)
    (hs : canonicalStringify v = .ok s) : tryInlineJson (utf8Encode s) = some (v.map id reparse) := by
  have hcont : IsContainer (v.map id reparse) := isContainer_map.2 hv
  have hcanon : canonicalStringify (v.map id reparse) = .ok s := by
    rw [canonicalStringify_map_reparse hv, hs]
  simp only [tryInlineJson, utf8Decode_utf8Encode (isWellFormed_canonicalStringify hs),
    strictParse_canonicalStringify hj hs, if_pos (isPlainObject_of_isContainer hcont), hcanon,
    if_true]

theorem map_toNat_ofAscii {t : Numeric.Text} (h : ∀ c ∈ t, c < 128) :
    (ofAscii t).map UInt16.toNat = t := by
  rw [ofAscii, List.map_map]
  refine (List.map_congr_left fun c hc => ?_).trans (List.map_id _)
  have hlt : c < 2 ^ 16 := (h c hc).trans (by norm_num)
  exact UInt16.toNat_ofNat_of_lt' hlt

/-- Base64 text decodes to the bytes it was written from. -/
theorem base64Decode_base64Encode (b : Bytes) : base64Decode (base64Encode b) = .ok b := by
  rw [base64Decode, base64Encode, map_toNat_ofAscii (Base64.encode_lt b), Base64.decode_encode]

/-- At a byte key, what cannot be inlined is stored as base64. -/
theorem encodeValue_of_none {key : JsString} (hkey : isMetadataKey key = false) {b : Bytes}
    (h : tryInlineJson b = none) :
    encodeValue key b = .ok (.str (base64Encode b)) ∧ decodeValue key (.str (base64Encode b)) = .ok b := by
  constructor
  · simp [encodeValue, hkey, h]
  · simp [decodeValue, hkey, isArray, isPlainObject, base64Decode_base64Encode]

/-- At a byte key, what can be inlined is stored as the value. -/
theorem encodeValue_of_some {key : JsString} (hkey : isMetadataKey key = false) {b : Bytes}
    {w : JsValue} (h : tryInlineJson b = some w) :
    encodeValue key b = .ok w ∧ decodeValue key w = .ok b := by
  obtain ⟨hcont, -, s, hs, rfl⟩ := tryInlineJson_sound h
  constructor
  · simp [encodeValue, hkey, h]
  · simp only [decodeValue, hkey, Bool.false_eq_true, if_false,
      if_pos (isPlainObject_of_isContainer hcont), hs, Except.map]

/-- Every byte string is stored at a byte key, and decodes to itself. -/
theorem exists_encodeValue {key : JsString} (hkey : isMetadataKey key = false) (b : Bytes) :
    ∃ w, encodeValue key b = .ok w ∧ decodeValue key w = .ok b := by
  cases h : tryInlineJson b with
  | some w => exact ⟨w, encodeValue_of_some hkey h⟩
  | none => exact ⟨_, encodeValue_of_none hkey h⟩

/-- The byte channel of `encodeValue`: every byte string is stored, decodes to itself,
and is stored as a JSON value if and only if it is the canonical text of a JSON
array or object. -/
theorem encodeValue_byteKey (key : JsString) (hkey : isMetadataKey key = false) (b : Bytes) :
    ∃ w, encodeValue key b = .ok w ∧ decodeValue key w = .ok b ∧
      (IsContainer w ↔
        ∃ v s, IsContainer v ∧ IsJson v ∧ canonicalStringify v = .ok s ∧ utf8Encode s = b) ∧
      (¬ IsContainer w → w = .str (base64Encode b)) := by
  cases hinl : tryInlineJson b with
  | some w =>
      obtain ⟨hcont, hjson, hs⟩ := tryInlineJson_sound hinl
      obtain ⟨henc, hdec⟩ := encodeValue_of_some hkey hinl
      exact ⟨w, henc, hdec, iff_of_true hcont ⟨w, hs.choose, hcont, hjson, hs.choose_spec⟩,
        fun h => absurd hcont h⟩
  | none =>
      obtain ⟨henc, hdec⟩ := encodeValue_of_none hkey hinl
      refine ⟨_, henc, hdec, iff_of_false id ?_, fun _ => rfl⟩
      rintro ⟨v, s, hv, hj, hs, rfl⟩
      rw [tryInlineJson_complete hv hj hs] at hinl
      cases hinl

theorem encodeValue_byteKey_chunk :
    isMetadataKey (js "a/c/0") = false ∧
      ∃ w, encodeValue (js "a/c/0") [91, 49, 93] = .ok w ∧
        decodeValue (js "a/c/0") w = .ok [91, 49, 93] ∧
        (IsContainer w ↔ ∃ v s, IsContainer v ∧ IsJson v ∧ canonicalStringify v = .ok s ∧
          utf8Encode s = [91, 49, 93]) ∧
        (¬ IsContainer w → w = .str (base64Encode [91, 49, 93])) :=
  ⟨by decide, encodeValue_byteKey (js "a/c/0") (by decide) [91, 49, 93]⟩

/-! ## Metadata -/

/-- What is encoded at a metadata key is what was parsed. -/
theorem encodeValue_metadata_eq_ok {key : JsString} {b : Bytes} {v : JsValue}
    (hmeta : isMetadataKey key = true) :
    encodeValue key b = .ok v ↔
      ∃ text, utf8Decode b = .ok text ∧ strictParse text = .ok v ∧ isPlainObject v = true := by
  rw [encodeValue, if_pos hmeta]
  cases utf8Decode b with
  | error e => simp [bind, Except.bind]
  | ok text =>
      cases hparsed : strictParse text with
      | error e => simp [bind, Except.bind, hparsed]
      | ok parsed =>
          simp only [bind, Except.bind, hparsed]
          constructor
          · intro h
            split_ifs at h with hplain
            cases h
            exact ⟨text, rfl, hparsed, hplain⟩
          · rintro ⟨text', htext, hv, hplain⟩
            cases htext
            obtain rfl := Except.ok.inj (hparsed.symm.trans hv)
            rw [if_pos hplain]

theorem decodeValue_metadata {key : JsString} {v : JsValue} (hmeta : isMetadataKey key = true) (hplain : isPlainObject v = true) :
    decodeValue key v = (canonicalStringify v).map utf8Encode := by
  simp only [decodeValue, if_pos hmeta, if_pos hplain]

end TypeScript
