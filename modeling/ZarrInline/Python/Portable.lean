import ZarrInline.Json.Leaves
import ZarrInline.Json.Spelling
import ZarrInline.Python.Conversion

/-!
# Portable texts in Python

`json.loads` reads bytes in the encoding that `json.detect_encoding` finds, and reads every
number token of a text, also that of a member which a later one replaces.  For a text without
lone surrogates the rest is as in the other languages: the canonical bytes of what it parses to
are those of the tree it left (`decodeValue_ofRaw`).
-/

namespace Python

open Numeric (NumberToken)

variable {I : Interpreter} {data : Bytes} {text : PyString} {raw : Json.Raw} {v : PyValue}

/-! ## The text of bytes -/

/-- The bytes are those of a text that leaves the tree. -/
structure IsText (data : Bytes) (text : PyString) (raw : Json.Raw) : Prop where
  decoded : decode (detectEncoding data) data = some text
  parsed : Json.parse .none text = .ok raw

theorem IsText.unique {text' : PyString} {raw' : Json.Raw} (h : IsText data text raw)
    (h' : IsText data text' raw') : text = text' ∧ raw = raw' := by
  obtain rfl : text = text' := Option.some.inj (h.decoded.symm.trans h'.decoded)
  exact ⟨rfl, Except.ok.inj (h.parsed.symm.trans h'.parsed)⟩

theorem isText_of_strictLoadsBytes (h : strictLoadsBytes I data = .ok v) :
    ∃ text raw, IsText data text raw := by
  unfold strictLoadsBytes at h
  split at h
  · next text htext =>
      obtain ⟨raw, hraw, -⟩ := strictLoads_eq_ok h
      exact ⟨text, raw, htext, Json.parse_none_of_parse hraw⟩
  · cases h

/-- A text in UTF-8 is found to be one. -/
theorem detectEncoding_of_utf8 {pass : Bool} (hdecode : Unicode.decodeUtf8 pass data = some text)
    (hparse : Json.parse .none text = .ok raw) : detectEncoding data = .utf8 false := by
  obtain ⟨rfl, hpass⟩ := Unicode.encodeUtf8_of_decodeUtf8 hdecode
  have hzero : 0 ∉ Unicode.encodeUtf8 text := by
    rw [Unicode.encodeUtf8, List.mem_flatMap]
    rintro ⟨c, hc, hmem⟩
    exact Unicode.zero_notMem_encodeBytes (Json.pos_of_parse hparse c hc) (hpass c hc).1 hmem
  cases text with
  | nil => cases hparse
  | cons c cs =>
      have hc := Json.lt_of_parse_cons hparse
      have hbytes : Unicode.encodeUtf8 (c :: cs) = UInt8.ofNat c :: Unicode.encodeUtf8 cs := by
        rw [Unicode.encodeUtf8_cons, Unicode.encodeBytes, if_pos hc]
        rfl
      rw [hbytes] at hzero ⊢
      refine detectEncoding_of_head ?_ hzero
      rw [UInt8.lt_iff_toNat_lt, Unicode.toNat_ofNat (by omega)]
      exact hc

/-- What is UTF-8 for the other languages is so for Python. -/
theorem isText_of_utf8 (hdecode : Unicode.decodeUtf8 false data = some text)
    (hparse : Json.parse .none text = .ok raw) :
    detectEncoding data = .utf8 false ∧ IsText data text raw := by
  have hutf8 := detectEncoding_of_utf8 hdecode hparse
  refine ⟨hutf8, ?_, hparse⟩
  obtain ⟨rfl, hpass⟩ := Unicode.encodeUtf8_of_decodeUtf8 hdecode
  rw [hutf8]
  exact Unicode.decodeUtf8_encodeUtf8 fun c hc => ⟨(hpass c hc).1, Or.inl rfl⟩

/-- Without lone surrogates, what is UTF-8 for Python is so for the other languages. -/
theorem IsText.decodeUtf8 (h : IsText data text raw) (hutf8 : detectEncoding data = .utf8 false)
    (hscalars : Json.HasScalars raw) : Unicode.decodeUtf8 false data = some text := by
  have hdecode := h.decoded
  rw [hutf8] at hdecode
  obtain ⟨rfl, -⟩ := Unicode.encodeUtf8_of_decodeUtf8 hdecode
  refine Unicode.decodeUtf8_encodeUtf8 fun c hc => ?_
  obtain ⟨hlt, hsurrogate⟩ := Json.isScalar_of_parse h.parsed hscalars c hc
  exact ⟨hlt, Or.inr hsurrogate⟩

/-! ## Numbers -/

/-- `int` and `_finite_float` read every number token of a tree. -/
def ReadsNumbers (raw : Json.Raw) : Prop :=
  raw.Every (fun _ => True) (fun n => acceptsNumber n = true) (fun _ => True)

instance : DecidablePred ReadsNumbers := fun raw => inferInstanceAs (Decidable (raw.Every _ _ _))

theorem inRange_of_acceptsNumber {n : NumberToken} (h : acceptsNumber n = true) : Json.InRange n := by
  rw [acceptsNumber] at h
  split at h
  · next hn => exact Or.inl hn
  · exact Or.inr (of_decide_eq_true h)

theorem ReadsNumbers.hasNumbers (h : ReadsNumbers raw) : (Json.read raw).HasNumbers := by
  have hread : (Json.read raw).Every (fun _ => True) (fun n => acceptsNumber n = true)
      (Json.Ordered Json.noRank) :=
    Json.every_load h
  exact hread.imp (fun _ => id) (fun _ => inRange_of_acceptsNumber) fun _ _ => trivial

theorem atomToken_numberValue (n : NumberToken) : atomToken (numberValue n) = Json.canonicalToken n := by
  rw [numberValue, Json.canonicalToken]
  split <;> rfl

/-! ## Values -/

theorem isDict_ofRaw : isDict (ofRaw raw) = (Json.read raw).isObj := by
  rw [ofRaw]
  cases Json.read raw with
  | num n =>
      rw [Json.map_num, numberValue]
      split <;> rfl
  | _ => rfl

/-- Bytes are parsed if their number tokens are read, nesting permitting. -/
theorem strictLoadsBytes_eq_ok_iff (h : IsText data text raw) (hdepth : raw.depth ≤ I.scanDepth) :
    strictLoadsBytes I data = .ok v ↔ ReadsNumbers raw ∧ ofRaw raw = v := by
  have hdecoded : strictLoadsBytes I data = strictLoads I text := by
    rw [strictLoadsBytes, h.decoded]
  rw [hdecoded]
  constructor
  · intro hload
    obtain ⟨raw', hraw', rfl⟩ := strictLoads_eq_ok hload
    obtain rfl := Except.ok.inj (h.parsed.symm.trans (Json.parse_none_of_parse hraw'))
    exact ⟨(Json.parse_eq_ok_iff.1 hraw').2.1, rfl⟩
  · rintro ⟨hnumbers, rfl⟩
    have hfits : I.limits.Fits raw.depth := by
      intro d hd
      rw [← Option.some.inj hd]
      exact hdepth
    have hraw : Json.parse I.limits text = .ok raw :=
      Json.parse_eq_ok_iff.2 ⟨(Json.parse_eq_ok_iff.1 h.parsed).1, hnumbers, hfits⟩
    rw [strictLoads, hraw]

/-- The writer nests a call for each level of a value, and those of a string or a float. -/
theorem need_le (v : PyValue) : need I v ≤ v.depth + max I.textFrames I.floatFrames + 1 := by
  induction v using Json.inductionOn with
  | null => exact Nat.le_add_left ..
  | bool b => exact Nat.le_add_left ..
  | str s =>
      show I.textFrames + 1 ≤ 0 + max I.textFrames I.floatFrames + 1
      omega
  | num a =>
      have hfloat : I.floatFrames + 1 ≤ 0 + max I.textFrames I.floatFrames + 1 := by omega
      cases a with
      | float x => exact hfloat
      | _ => exact Nat.le_add_left ..
  | arr xs ih =>
      refine need_arr_le_iff.2 fun x hx => (ih x hx).trans ?_
      have hdepth := Json.depth_lt_of_mem_arr hx
      omega
  | obj ms ih =>
      refine need_obj_le_iff.2 fun m hm => ⟨?_, (ih m hm).trans ?_⟩
      · omega
      · have hdepth := Json.depth_lt_of_mem_obj hm
        omega

/-- The canonical text of what was parsed is that of the tree. -/
theorem canonicalTree_ofRaw : (canonicalTree (ofRaw raw)).text = Json.canonicalText (Json.read raw) := by
  rw [canonicalTree, ofRaw, Json.map_map, Json.canonicalText]
  show ((Json.read raw).map Json.canonicalItems fun n => atomToken (numberValue n)).text = _
  rw [funext atomToken_numberValue]

/-- The bytes that metadata is read as. -/
theorem decodeValue_ofRaw {key : PyString} (hkey : isMetadataKey key = true)
    (hnumbers : ReadsNumbers raw) (hscalars : Json.HasScalars raw) (hobj : (Json.read raw).isObj = true)
    (hframes : raw.depth + max I.textFrames I.floatFrames ≤ I.frames) :
    decodeValue I key (ofRaw raw) = .ok (Unicode.encodeUtf8 (Json.canonicalText (Json.read raw))) := by
  have hwell : (ofRaw raw).Every IsWellFormed (fun _ => True) (fun _ => True) := by
    have hread : (Json.read raw).Every (fun s => ∀ c ∈ s, Unicode.IsScalar c) (fun _ => True)
        (Json.Ordered Json.noRank) :=
      Json.every_load hscalars
    rw [ofRaw, Json.every_map]
    exact hread.imp (fun s hs c hc => (hs c hc).2) (fun _ => id) fun _ _ => trivial
  have hneed : need I (ofRaw raw) ≤ I.frames + 1 := by
    have hdepth : (ofRaw raw).depth ≤ raw.depth := by
      rw [ofRaw, Json.depth_map]
      exact Json.depth_load_le raw
    have hle := need_le (I := I) (ofRaw raw)
    omega
  rw [decodeValue_metadata hkey, if_pos (isDict_ofRaw.trans hobj), ← canonicalTree_ofRaw]
  exact (dumpsBytes_eq_ok_iff (isPlain_ofRaw (I := I) hnumbers)).2 ⟨⟨hwell, hneed⟩, rfl⟩

end Python
