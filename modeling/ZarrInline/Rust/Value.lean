import ZarrInline.Json.Portable
import ZarrInline.Text.Base64

/-!
# Rust values

The values the Rust implementation handles: JSON trees over strings of characters and
over number tokens, since `serde_json` keeps a number as its text (`arbitrary_precision`)
and an object as its members in order (`preserve_order`).

`Crates` is what the source leaves to its crates: `serde_json::from_slice`, the digits of
`ryu`, and the base64 engine.
-/

namespace Rust

open Numeric (Text Double NumberToken binary64)

/-- A string: its characters. -/
abbrev RustString := List Char

instance (s : RustString) (l : List RustString) : Decidable (s ∈ l) :=
  List.instDecidableMemOfLawfulBEq s l

/-- A byte array. -/
abbrev Bytes := List UInt8

/-- `serde_json::Value`. -/
abbrev Value := Json RustString NumberToken

/-- `serde_json::Map`: its members in the order of insertion. -/
abbrev Map := Json.Members (@Json.noRank RustString)

/-- The code points of a string. -/
def codes (s : RustString) : Text := s.map Char.toNat

/-- The string of scalar values. -/
def ofCodes (t : Text) : RustString := t.map Char.ofNat

theorem codes_ofCodes {t : Text} (h : ∀ c ∈ t, Unicode.IsScalar c) : codes (ofCodes t) = t := by
  rw [codes, ofCodes, List.map_map]
  refine (List.map_congr_left fun c hc => ?_).trans (List.map_id _)
  obtain ⟨hlt, hsur⟩ := h c hc
  have hvalid : c.isValidChar := by
    unfold Unicode.IsSurrogate at hsur
    unfold Nat.isValidChar
    omega
  rw [Function.comp_apply, Char.toNat_ofNat, if_pos hvalid]
  rfl

theorem isScalar_codes (s : RustString) : ∀ c ∈ codes s, Unicode.IsScalar c := by
  intro c hc
  obtain ⟨ch, -, rfl⟩ := List.mem_map.1 hc
  have hvalid : ch.toNat.isValidChar := ch.valid
  unfold Nat.isValidChar at hvalid
  unfold Unicode.IsScalar Unicode.IsSurrogate
  omega

@[simp] theorem ofCodes_codes (s : RustString) : ofCodes (codes s) = s := by
  rw [codes, ofCodes, List.map_map]
  exact (List.map_congr_left fun c _ => Char.ofNat_toNat c).trans (List.map_id _)

/-- `value.is_object()`. -/
def isObject : Value → Bool
  | .obj _ => true
  | _ => false

/-- `value.is_array()`. -/
def isArray : Value → Bool
  | .arr _ => true
  | _ => false

/-- `value.is_string()`. -/
def isString : Value → Bool
  | .str _ => true
  | _ => false

/-! ## Crates -/

/-- The nesting `serde_json` reads. -/
def serdeLimits : Json.Limits := ⟨some 127, fun _ => true⟩

/-- The value of a tree. -/
def ofRaw (raw : Json.Raw) : Value := (Json.read raw).map ofCodes id

/-- What `serde_json::from_slice` documents: UTF-8, the grammar of JSON to a nesting of
127, and no lone surrogates. -/
def serdeRead (data : Bytes) : Option Value :=
  match Unicode.decodeUtf8 false data with
  | none => none
  | some text =>
      match Json.parse serdeLimits text with
      | .error _ => none
      | .ok raw => if Json.HasScalars raw then some (ofRaw raw) else none

theorem serdeRead_eq_some_iff {data : Bytes} {value : Value} :
    serdeRead data = some value ↔
      ∃ text raw, Unicode.decodeUtf8 false data = some text ∧
        Json.parse serdeLimits text = .ok raw ∧ Json.HasScalars raw ∧ ofRaw raw = value := by
  unfold serdeRead
  constructor
  · intro h
    split at h
    · cases h
    · next text htext =>
        split at h
        · cases h
        · next raw hraw =>
            split_ifs at h with hscalars
            exact ⟨text, raw, htext, hraw, hscalars, Option.some.inj h⟩
  · rintro ⟨text, raw, htext, hraw, hscalars, rfl⟩
    simp only [htext, hraw, if_pos hscalars]

/-- What the source leaves to its crates. -/
structure Crates where
  /-- `serde_json::from_slice::<Value>`. -/
  fromSlice : Bytes → Option Value
  fromSlice_eq : ∀ data, fromSlice data = serdeRead data
  /-- `ryu::Buffer::format_finite`. -/
  formatFinite : Double → Text
  /-- A positive number is written without a sign, in digits for its shortest decimal,
  and with an exponent, if any, that fits 32 bits. -/
  formatFinite_spec : ∀ (u : ℕ) (hu : u ≠ 0) (h : binary64.Representable u), ∃ t : NumberToken,
    formatFinite (.finite false u h) = t.render ∧ t.neg = false ∧
      t.magnitude = (Double.shortest u hu).value ∧ -2 ^ 31 ≤ t.expValue ∧ t.expValue < 2 ^ 31
  /-- `BASE64_STANDARD_STRICT.encode`. -/
  base64Encode : Bytes → RustString
  /-- `BASE64_STANDARD_STRICT.decode`. -/
  base64Decode : RustString → Option Bytes
  base64Decode_encode : ∀ data, base64Decode (base64Encode data) = some data

theorem toText_eq_render_esToken (u : ℕ) (hu : u ≠ 0) (h : binary64.Representable u) :
    ∃ t : NumberToken, (Double.finite false u h).toText = t.render ∧ t.neg = false ∧
      t.magnitude = (Double.shortest u hu).value ∧ -2 ^ 31 ≤ t.expValue ∧ t.expValue < 2 ^ 31 := by
  refine ⟨(Double.shortest u hu).esToken false, ?_, rfl, Numeric.Decimal.magnitude_esToken _ _, ?_⟩
  · rw [Numeric.Decimal.render_esToken]
    simp [Double.toText, hu]
  · have hpoint := Double.point_shortest hu h
    have hexp := Numeric.Decimal.expValue_esToken false (Double.shortest u hu)
    constructor <;> omega

theorem decode_codes_ofCodes_encode (data : Bytes) :
    Base64.decode (codes (ofCodes (Base64.encode data))) = some data := by
  rw [codes_ofCodes, Base64.decode_encode]
  exact fun c hc => Unicode.isScalar_of_lt ((Base64.encode_lt data c hc).trans (by norm_num))

/-- Crates that print numbers the way ECMAScript does. -/
def crates : Crates where
  fromSlice := serdeRead
  fromSlice_eq := fun _ => rfl
  formatFinite := Double.toText
  formatFinite_spec := toText_eq_render_esToken
  base64Encode := fun data => ofCodes (Base64.encode data)
  base64Decode := fun text => Base64.decode (codes text)
  base64Decode_encode := decode_codes_ofCodes_encode

/-! ## Errors -/

/-- The errors, and the panics. -/
inductive RustError where
  | json
  | overflow (n : NumberToken)
  | metadataMustMap (key : RustString)
  | base64 (key : RustString)
  | byteMustMap (key : RustString)
  | metadataNotJson (key : RustString) (e : RustError)
  | metadataRequires (key : RustString)
  | panic

/-- The message of an error, with keys as `Debug` shows them.  Errors of the crates have
no text here. -/
def RustError.message (debug : RustString → RustString) : RustError → Option RustString
  | .json => none
  | .overflow n =>
      some ("number literal ".toList ++ ofCodes n.render ++ " overflows float64".toList)
  | .metadataMustMap key =>
      some ("metadata key ".toList ++ debug key ++ " must map to a JSON object".toList)
  | .base64 _ => none
  | .byteMustMap key =>
      some ("byte key ".toList ++ debug key ++
        " must map to a base64 string or a JSON array or object".toList)
  | .metadataNotJson key e =>
      (e.message debug).map fun text =>
        "metadata key ".toList ++ debug key ++ " bytes are not JSON: ".toList ++ text
  | .metadataRequires key =>
      some ("metadata key ".toList ++ debug key ++ " requires a JSON object value".toList)
  | .panic => none

end Rust
