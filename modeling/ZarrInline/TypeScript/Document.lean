import ZarrInline.Rules.Validity
import ZarrInline.TypeScript.Value

/-!
# The TypeScript value codec

`document.ts`: canonical serialization, strict parsing, and the conversion of the
bytes of a store entry to the value of a document and back.

The inlining rule rests on one fact, `strictParse_canonicalStringify`: the canonical
text of a JSON value parses to a value with the same canonical text.  The value
itself may differ, since a double printed in integer digits comes back as a big
integer from `2 ^ 53` on.
-/

namespace TypeScript

open Numeric (Text Double NumberToken)
open Json (StrItem)

/-- `isMetadataKey`. -/
def isMetadataKey (key : JsString) : Bool := Rules.isMetadataKey unit key

/-! ## Canonical text -/

/-- `writeCanonicalString`: the short escapes, `\u00xx` for the other control
characters, every other code unit as it is. -/
def writeCanonicalString (value : JsString) : Except JsError JsString :=
  if Unicode.IsWellFormed value then
    .ok (js "\"" ++ value.flatMap (fun u => ofUnit u) ++ js "\"")
  else .error .loneSurrogate
where
  /-- One code unit, escaped if it has to be. -/
  ofUnit (u : UInt16) : JsString :=
    match Json.canonicalItem u.toNat with
    | .raw _ => [u]
    | item => ofAscii (Json.itemText item)

/-- `writeCanonicalNumber`: `String(value)` of a finite number. -/
def writeCanonicalNumber (value : Double) : Except JsError JsString :=
  if value.IsFinite then .ok (ofAscii value.toText) else .error .nonFinite

/-- The branches of `writeCanonical` for what is no JSON container, boolean, string
or `null`. -/
def writeCanonicalAtom : JsAtom → Except JsError JsString
  | .number x => writeCanonicalNumber x
  | .bigint i => .ok (ofAscii (NumberToken.ofInt i).render)
  | .undefined => .error (.notSerializableType .undefined)
  | .function => .error (.notSerializableType .function)
  | .symbol => .error (.notSerializableType .symbol)
  | .exotic _ => .error .notPlainObject

/-- How `writeCanonical` writes. -/
def canonicalScript : Json.Script JsString JsAtom UInt16 JsError where
  ascii := UInt16.ofNat
  str := writeCanonicalString
  num := writeCanonicalAtom

/-- `writeCanonical`. -/
def writeCanonical (value : JsValue) : Except JsError JsString := value.write canonicalScript

/-- `canonicalStringify`. -/
def canonicalStringify : JsValue → Except JsError JsString
  | .num .undefined => .error .notSerializable
  | .num .function => .error .notSerializable
  | .num .symbol => .error .notSerializable
  | value => writeCanonical value

/-! ## Strict parsing -/

/-- The code units a character of a string token stands for. -/
def itemUnits : StrItem → JsString
  | .raw c => Unicode.encodeUnits c
  | .esc c => Unicode.encodeUnits c
  | .unit u => [u]

/-- The string a string token writes. -/
def stringValue (items : List StrItem) : JsString := items.flatMap itemUnits

/-- `JSON.parse`, keeping the source text of numbers for the reviver. -/
def jsonParse (text : JsString) : Except JsError (Json JsString NumberToken) :=
  match Json.parse .none (Unicode.codePoints text) with
  | .ok raw => .ok (raw.load stringValue arrayIndex?)
  | .error _ => .error .jsonSyntax

/-- `StrictParseOptions`. -/
structure StrictParseOptions where
  integersAsBigInt : Bool := false

/-- The reviver of `strictParse` at a number with the given source text. -/
def revive (options : StrictParseOptions) (source : NumberToken) : Except JsError JsAtom :=
  let value := Double.ofToken source
  if (options.integersAsBigInt ∨ ¬ value.IsSafeInteger) ∧ source.IsInteger then
    .ok (.bigint source.intValue)
  else if ¬ value.IsFinite then .error .overflow
  else .ok (.number value)

/-- `strictParse`. -/
def strictParse (text : JsString) (options : StrictParseOptions := {}) : Except JsError JsValue := do
  let parsed ← jsonParse text
  parsed.traverse (revive options)

/-! ## Bytes -/

/-- `TextEncoder.encode`: lone surrogates become U+FFFD. -/
def utf8Encode (s : JsString) : Bytes :=
  Unicode.encodeUtf8 ((Unicode.codePoints s).map fun c =>
    if Unicode.IsSurrogate c then 0xFFFD else c)

/-- `TextDecoder.decode` with `fatal` and `ignoreBOM`. -/
def utf8Decode (data : Bytes) : Except JsError JsString :=
  match Unicode.decodeUtf8 false data with
  | some cs => .ok (Unicode.encodeUtf16 cs)
  | none => .error .utf8

/-- `base64Decode`. -/
def base64Decode (text : JsString) : Except JsError Bytes :=
  match Base64.decode (text.map UInt16.toNat) with
  | some bytes => .ok bytes
  | none => .error (.base64 text)

/-- `base64Encode`. -/
def base64Encode (bytes : Bytes) : JsString := ofAscii (Base64.encode bytes)

/-! ## The value codec -/

/-- `decodeValue`. -/
def decodeValue (key : JsString) (value : JsValue) : Except JsError Bytes :=
  if isMetadataKey key then
    if isPlainObject value then (canonicalStringify value).map utf8Encode
    else .error (.metadataMustMap key)
  else if isArray value ∨ isPlainObject value then (canonicalStringify value).map utf8Encode
  else
    match value with
    | .str s => base64Decode s
    | _ => .error (.byteMustMap key)

/-- `tryInlineJson`: every error inside the `try` is caught. -/
def tryInlineJson (data : Bytes) : Option JsValue :=
  match utf8Decode data with
  | .error _ => none
  | .ok text =>
      match strictParse text with
      | .error _ => none
      | .ok parsed =>
          if isArray parsed ∨ isPlainObject parsed then
            match canonicalStringify parsed with
            | .error _ => none
            | .ok canonical => if utf8Encode canonical = data then some parsed else none
          else none

/-- `encodeValue`. -/
def encodeValue (key : JsString) (data : Bytes) : Except JsError JsValue :=
  if isMetadataKey key then do
    let text ← utf8Decode data
    let parsed ← strictParse text
    if isPlainObject parsed then .ok parsed else .error (.metadataRequires key)
  else
    match tryInlineJson data with
    | some inlined => .ok inlined
    | none => .ok (.str (base64Encode data))

/-! ## Canonical text over code points -/

theorem itemUnits_canonicalItem {c : ℕ} : itemUnits (Json.canonicalItem c) = Unicode.encodeUnits c := by
  unfold Json.canonicalItem
  split_ifs with h1 h2
  · rfl
  · have hc : c < 0x10000 := h2.trans (by norm_num)
    simp [itemUnits, Unicode.encodeUnits, hc]
  · rfl

/-- The canonical form of a string stands for the string. -/
theorem stringValue_canonicalItems (k : JsString) :
    stringValue (Json.canonicalItems (Unicode.codePoints k)) = k := by
  rw [stringValue, Json.canonicalItems, List.flatMap_map]
  simp only [itemUnits_canonicalItem]
  exact Unicode.encodeUtf16_codePoints k

/-- A string is the code units of the code points it stands for. -/
theorem stringValue_eq (items : List StrItem) :
    stringValue items = Unicode.encodeUtf16 (Json.unescape items) := by
  have hunit : ∀ u : UInt16, Unicode.encodeUnits u.toNat = [u] := by
    intro u
    have hu : u.toNat < 0x10000 := u.toNat_lt
    simp [Unicode.encodeUnits, hu]
  induction items using Json.unescape.induct with
  | case1 => rfl
  | case2 c items ih => rw [Json.unescape, Unicode.encodeUtf16_cons, ← ih]; rfl
  | case3 c items ih => rw [Json.unescape, Unicode.encodeUtf16_cons, ← ih]; rfl
  | case4 u v items h ih =>
      have hpair : Unicode.encodeUnits (Unicode.combine u.toNat v.toNat) = [u, v] := by
        obtain ⟨hge, -, hhi, hlo⟩ := Unicode.combine_units h.1 h.2
        rw [Unicode.encodeUnits, if_neg (Nat.not_lt.2 hge), hhi, hlo]
        simp
      rw [Json.unescape, if_pos h, Unicode.encodeUtf16_cons, ← ih, hpair]
      rfl
  | case5 u v items h ih =>
      rw [Json.unescape, if_neg h, Unicode.encodeUtf16_cons, ← ih, hunit]
      rfl
  | case6 u items h ih =>
      rw [Json.unescape, Unicode.encodeUtf16_cons, ← ih, hunit]
      · rfl
      · exact h

theorem encodeUnits_of_lt {c : ℕ} (h : c < 0x10000) : Unicode.encodeUnits c = [UInt16.ofNat c] := by
  simp [Unicode.encodeUnits, h]

theorem encodeUtf16_of_lt {cs : List ℕ} (h : ∀ c ∈ cs, c < 0x10000) :
    Unicode.encodeUtf16 cs = ofAscii cs := by
  induction cs with
  | nil => rfl
  | cons c cs ih =>
      rw [Unicode.encodeUtf16_cons, encodeUnits_of_lt (h c (by simp)),
        ih fun d hd => h d (by simp [hd])]
      rfl

/-- Escaping code units is escaping code points. -/
theorem flatMap_ofUnit {c : ℕ} (hc : c < 0x110000) :
    (Unicode.encodeUnits c).flatMap writeCanonicalString.ofUnit
      = Unicode.encodeUtf16 (Json.itemText (Json.canonicalItem c)) := by
  have hlarge : ∀ u : UInt16, 0x60 ≤ u.toNat → writeCanonicalString.ofUnit u = [u] := by
    intro u hu
    rw [writeCanonicalString.ofUnit, Json.canonicalItem_of_ge hu]
  by_cases h : c < 0x10000
  · rw [encodeUnits_of_lt h, List.flatMap_singleton, writeCanonicalString.ofUnit,
      UInt16.toNat_ofNat_of_lt' h]
    rcases Json.itemText_canonicalItem c with hascii | ⟨-, hraw⟩
    · rw [encodeUtf16_of_lt fun d hd => (hascii d hd).2.trans (by norm_num)]
      cases hitem : Json.canonicalItem c with
      | raw d =>
          have : d = c := Json.eq_of_canonicalItem_raw hitem
          rw [this]
          rfl
      | esc d => rfl
      | unit u => rfl
    · rw [hraw]
      simp [Json.itemText, encodeUnits_of_lt h]
  · have hge : 0x10000 ≤ c := Nat.not_lt.1 h
    have hhi : (0xD800 + (c - 0x10000) / 0x400) < 2 ^ 16 := by omega
    have hlo : (0xDC00 + (c - 0x10000) % 0x400) < 2 ^ 16 := by omega
    rw [Json.canonicalItem_of_ge (by omega)]
    simp only [Unicode.encodeUnits, if_neg h, Json.itemText, Unicode.encodeUtf16_cons,
      Unicode.encodeUtf16_nil, List.flatMap_cons, List.flatMap_nil, List.append_nil]
    rw [hlarge _ (by rw [UInt16.toNat_ofNat_of_lt' hhi]; omega),
      hlarge _ (by rw [UInt16.toNat_ofNat_of_lt' hlo]; omega)]
    rfl

/-- The number token of an atom that can be written. -/
def atomToken : JsAtom → NumberToken
  | .number x => x.toToken
  | .bigint i => .ofInt i
  | _ => .ofInt 0

/-- `writeCanonical` over code points. -/
def textScript : Json.Script JsString JsAtom ℕ JsError where
  ascii := id
  str := fun k =>
    if Unicode.IsWellFormed k then
      .ok (Json.strText (Json.canonicalItems (Unicode.codePoints k)))
    else .error .loneSurrogate
  num := fun a =>
    match writeCanonicalAtom a with
    | .ok _ => .ok (atomToken a).render
    | .error e => .error e

theorem writeCanonicalString_eq (k : JsString) :
    writeCanonicalString k = (textScript.str k).map Unicode.encodeUtf16 := by
  unfold writeCanonicalString textScript
  by_cases hk : Unicode.IsWellFormed k
  · have hbody : k.flatMap writeCanonicalString.ofUnit
        = Unicode.encodeUtf16 ((Json.canonicalItems (Unicode.codePoints k)).flatMap Json.itemText) := by
      have hk' := congrArg (List.flatMap writeCanonicalString.ofUnit)
        (Unicode.encodeUtf16_codePoints k)
      rw [← hk', Unicode.encodeUtf16, Unicode.encodeUtf16, Json.canonicalItems, List.flatMap_map,
        List.flatMap_assoc, List.flatMap_assoc]
      exact List.flatMap_congr fun c hc => flatMap_ofUnit (Unicode.codePoints_lt k c hc)
    simp only [if_pos hk, Except.map, Json.strText, Unicode.encodeUtf16_cons,
      Unicode.encodeUtf16_append, Unicode.encodeUtf16_nil, hbody]
    rfl
  · simp only [if_neg hk, Except.map]

theorem writeCanonicalAtom_eq (a : JsAtom) :
    writeCanonicalAtom a = (textScript.num a).map Unicode.encodeUtf16 := by
  have hrender : ∀ n : NumberToken, ofAscii n.render = Unicode.encodeUtf16 n.render := fun n =>
    (encodeUtf16_of_lt fun c hc => (n.lt_of_mem_render c hc).trans (by norm_num)).symm
  cases a with
  | number x =>
      simp only [textScript, writeCanonicalAtom, writeCanonicalNumber]
      by_cases hx : x.IsFinite
      · simp only [if_pos hx, Except.map, atomToken, Double.toText_eq_render hx, hrender]
      · simp only [if_neg hx, Except.map]
  | bigint i => simp only [textScript, writeCanonicalAtom, Except.map, atomToken, hrender]
  | undefined => rfl
  | function => rfl
  | symbol => rfl
  | exotic plain => rfl

/-- Canonical text is the UTF-16 of a text over code points. -/
theorem writeCanonical_eq (v : JsValue) :
    writeCanonical v = (v.write textScript).map Unicode.encodeUtf16 := by
  have hascii : ∀ c, c < 0x10000 →
      Unicode.encodeUnits (textScript.ascii c) = [canonicalScript.ascii c] := by
    intro c hc
    exact encodeUnits_of_lt hc
  exact Json.write_flatMap (by decide) hascii writeCanonicalString_eq writeCanonicalAtom_eq v

theorem isOk_textScript_str (k : JsString) : Json.IsOk (textScript.str k) ↔ Unicode.IsWellFormed k := by
  unfold textScript
  by_cases hk : Unicode.IsWellFormed k <;> simp [hk]

theorem isOk_textScript_num (a : JsAtom) : Json.IsOk (textScript.num a) ↔ a.IsCanonical := by
  cases a with
  | number x =>
      by_cases hx : x.IsFinite <;>
        simp [textScript, writeCanonicalAtom, writeCanonicalNumber, JsAtom.IsCanonical, hx]
  | _ => simp [textScript, writeCanonicalAtom, JsAtom.IsCanonical]

/-- What can be written canonically: well-formed strings, finite numbers and big
integers, and no other atoms. -/
theorem isOk_writeCanonical (v : JsValue) :
    Json.IsOk (writeCanonical v) ↔
      v.Every Unicode.IsWellFormed JsAtom.IsCanonical (fun _ => True) := by
  rw [writeCanonical_eq, Json.isOk_map, Json.isOk_write]
  constructor
  · exact Json.Every.imp (fun k => (isOk_textScript_str k).1) (fun a => (isOk_textScript_num a).1)
      fun _ => id
  · exact Json.Every.imp (fun k => (isOk_textScript_str k).2) (fun a => (isOk_textScript_num a).2)
      fun _ => id

/-- The tree whose compact text the canonical text of a value is. -/
def canonicalTree (v : JsValue) : Json.Raw :=
  v.map (fun k => Json.canonicalItems (Unicode.codePoints k)) atomToken

theorem write_textScript {v : JsValue} {t : Text} (h : v.write textScript = .ok t) :
    t = (canonicalTree v).text := by
  refine Json.write_eq_text (w := textScript) rfl ?_ ?_ h
  · intro k t hk
    simp only [textScript] at hk
    split at hk
    · exact (Except.ok.inj hk).symm
    · cases hk
  · intro a t ha
    simp only [textScript] at ha
    split at ha
    · exact (Except.ok.inj ha).symm
    · cases ha

/-- The code points of a canonical text are scalar values. -/
theorem isScalar_canonicalTree {v : JsValue}
    (h : v.Every Unicode.IsWellFormed JsAtom.IsCanonical (fun _ => True)) :
    ∀ c ∈ (canonicalTree v).text, Unicode.IsScalar c := by
  exact Json.forall_mem_text_canonical
    (fun c _ hc => Unicode.isScalar_of_lt (hc.trans (by norm_num)))
    (h.imp (fun _ hk c hc _ => Unicode.codePoints_isScalar hk c hc) (fun _ _ => trivial)
      fun _ _ => trivial)

theorem canonicalStringify_of_isContainer {v : JsValue} (h : IsContainer v) :
    canonicalStringify v = writeCanonical v := by
  cases v with
  | arr xs => rfl
  | obj ms => rfl
  | null => cases h
  | bool b => cases h
  | str s => cases h
  | num n => cases h

/-- `canonicalStringify` accepts what can be written. -/
theorem canonicalStringify_eq_ok_iff {v : JsValue} {s : JsString} :
    canonicalStringify v = .ok s ↔
      v.Every Unicode.IsWellFormed JsAtom.IsCanonical (fun _ => True) ∧
        s = Unicode.encodeUtf16 (canonicalTree v).text := by
  have hwrite : writeCanonical v = .ok s ↔
      v.Every Unicode.IsWellFormed JsAtom.IsCanonical (fun _ => True) ∧
        s = Unicode.encodeUtf16 (canonicalTree v).text := by
    constructor
    · intro h
      refine ⟨(isOk_writeCanonical v).1 (by rw [h]; trivial), ?_⟩
      rw [writeCanonical_eq] at h
      obtain ⟨t, ht, rfl⟩ := Json.exists_of_map_eq_ok h
      rw [write_textScript ht]
    · rintro ⟨h, rfl⟩
      have hok := (isOk_writeCanonical v).2 h
      rw [writeCanonical_eq, Json.isOk_map] at hok
      obtain ⟨t, ht⟩ := Json.isOk_iff.1 hok
      rw [writeCanonical_eq, ht, write_textScript ht]
      rfl
  unfold canonicalStringify
  split
  · simp [JsAtom.IsCanonical]
  · simp [JsAtom.IsCanonical]
  · simp [JsAtom.IsCanonical]
  · exact hwrite

/-! ## Reading canonical text -/

/-- The atom that reading the canonical text of an atom gives. -/
def reparse : JsAtom → JsAtom
  | .number x =>
      if x.IsFinite then
        if ¬ x.dropNegZero.IsSafeInteger ∧ x.toToken.IsInteger then .bigint x.toToken.intValue
        else .number x.dropNegZero
      else .number x
  | .bigint i => if (Double.ofInt i).IsSafeInteger then .number (Double.ofInt i) else .bigint i
  | a => a

theorem isFinite_of_isSafeInteger {x : Double} (h : x.IsSafeInteger) : x.IsFinite := by
  cases x with
  | nan => exact h
  | infinity neg => exact h
  | finite neg u hu => trivial

theorem ofToken_ofInt (i : ℤ) : Double.ofToken (.ofInt i) = Double.ofInt i := by
  rw [Double.ofToken, NumberToken.magnitude_of_isInteger (NumberToken.isInteger_ofInt i),
    NumberToken.intValue_ofInt]
  rfl

theorem isSafeInteger_ofInt (i : ℤ) : (Double.ofInt i).IsSafeInteger ↔ i.natAbs < 2 ^ 53 :=
  Double.isSafeInteger_ofMagnitude _ _

/-- The reviver on the token of an atom. -/
theorem revive_atomToken {a : JsAtom} (h : a.IsCanonical) : revive {} (atomToken a) = .ok (reparse a) := by
  cases a with
  | number x =>
      have hx : x.IsFinite := h
      simp only [revive, atomToken, reparse, Double.ofToken_toToken hx, if_pos hx, Bool.false_eq_true,
        false_or]
      by_cases hbig : ¬ x.dropNegZero.IsSafeInteger ∧ x.toToken.IsInteger
      · rw [if_pos hbig, if_pos hbig]
      · rw [if_neg hbig, if_neg hbig, if_neg (by simpa using hx)]
  | bigint i =>
      simp only [revive, atomToken, reparse, ofToken_ofInt, NumberToken.isInteger_ofInt, and_true,
        NumberToken.intValue_ofInt, Bool.false_eq_true, false_or]
      by_cases hsafe : (Double.ofInt i).IsSafeInteger
      · simp [hsafe, isFinite_of_isSafeInteger hsafe]
      · simp [hsafe]
  | _ => cases h

/-- Reading an atom back does not change how it is written: the digits of a double
are those of the big integer it comes back as, and the other way round. -/
theorem writeCanonicalAtom_reparse (a : JsAtom) : writeCanonicalAtom (reparse a) = writeCanonicalAtom a := by
  cases a with
  | number x =>
      simp only [reparse]
      split_ifs with hx hbig
      · rw [writeCanonicalAtom, writeCanonicalAtom, writeCanonicalNumber, if_pos hx,
          Double.toText_eq_render hx, ← Double.toToken_eq_ofInt hbig.2]
      · have hx' : x.dropNegZero.IsFinite := Double.isFinite_dropNegZero.2 hx
        rw [writeCanonicalAtom, writeCanonicalAtom, writeCanonicalNumber, writeCanonicalNumber,
          if_pos hx, if_pos hx', Double.toText_eq_render hx, Double.toText_eq_render hx',
          Double.toToken_dropNegZero]
      · rfl
  | bigint i =>
      simp only [reparse]
      split_ifs with hsafe
      · have hfin := isFinite_of_isSafeInteger hsafe
        rw [writeCanonicalAtom, writeCanonicalAtom, writeCanonicalNumber, if_pos hfin,
          Double.toText_eq_render hfin, Double.toToken_ofInt ((isSafeInteger_ofInt i).1 hsafe)]
      · rfl
  | _ => rfl

/-- The canonical text of a JSON value parses, to its tokens. -/
theorem jsonParse_canonicalStringify {v : JsValue} {s : JsString} (hv : IsJson v)
    (hs : canonicalStringify v = .ok s) : jsonParse s = .ok (v.map id atomToken) := by
  obtain ⟨hok, rfl⟩ := canonicalStringify_eq_ok_iff.1 hs
  have hparse : Json.parse .none (canonicalTree v).text = .ok (canonicalTree v) :=
    Json.parse_none_text (Json.writable_map v)
  have hload : (canonicalTree v).load stringValue arrayIndex? = v.map id atomToken :=
    Json.load_map (hv.imp (fun k _ => stringValue_canonicalItems k) (fun _ _ => trivial) fun _ => id)
  rw [jsonParse, Unicode.codePoints_encodeUtf16 (isScalar_canonicalTree hok), hparse]
  exact congrArg _ hload

/-- The canonical text of a JSON value parses, to a value with the same canonical
text. -/
theorem strictParse_canonicalStringify {v : JsValue} {s : JsString} (hv : IsJson v)
    (hs : canonicalStringify v = .ok s) :
    strictParse s = .ok (v.map id reparse) := by
  rw [strictParse, jsonParse_canonicalStringify hv hs]
  exact Json.traverse_map (canonicalStringify_eq_ok_iff.1 hs).1 fun a => revive_atomToken

theorem writeCanonical_map_reparse (v : JsValue) :
    writeCanonical (v.map id reparse) = writeCanonical v :=
  Json.write_map writeCanonicalAtom_reparse v

end TypeScript
