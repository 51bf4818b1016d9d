import ZarrInline.Json.Nesting
import ZarrInline.Rust.Document
import ZarrInline.Text.Wide

/-!
# Decoding a chunk in Rust

`serializer.rs`: what `JsonCodec` decodes.

The conversion of a scalar belongs to `zarrs`: a `DataType` is its name, the size of its
elements, and the bytes of the fill value that a JSON value stands for.  Extents are not zero
there (`NonZeroU64`); here they may be.
-/

namespace Rust

open Unicode (ByteOrder)

/-- `zarrs::array::DataType`. -/
structure DataType where
  /-- `name_v3`. -/
  nameV3 : Option RustString
  /-- `fixed_size`. -/
  fixedSize : Option ℕ
  /-- The value as `FillValueMetadata`, and `fill_value_v3` of it: bytes in native order. -/
  fillValue : Value → Option Bytes

/-- `CodecError`, as the codec raises it. -/
inductive CodecError where
  | unsupportedDataType
  | notJson (e : RustError)
  | mismatch (shape : List ℕ)
  /-- An error of `zarrs` or of `serde_json` at a scalar. -/
  | scalar
  | size (found expected : ℕ)
  | range (typeName : RustString) (value : Value)

/-- The message of an error of the source, with shapes as `Debug` and values as `Display`
shows them.  Errors of the crates have no text here. -/
def CodecError.message (debug : List ℕ → RustString) (key : RustString → RustString)
    (display : Value → RustString) : CodecError → Option RustString
  | .unsupportedDataType => none
  | .notJson e =>
      (e.message key).map fun text => "json codec: chunk is not JSON: ".toList ++ text
  | .mismatch shape =>
      some ("json codec: chunk JSON does not match chunk shape ".toList ++ debug shape)
  | .scalar => none
  | .size found expected =>
      some ("json codec: scalar decoded to ".toList ++ (Nat.repr found).toList ++
        " bytes, expected ".toList ++ (Nat.repr expected).toList)
  | .range typeName value =>
      some ("json codec: ".toList ++ typeName ++ " value ".toList ++ display value ++
        " is out of range (not finite after conversion); ".toList ++
        "use \"NaN\"/\"Infinity\"/\"-Infinity\" for non-finite values".toList)

/-! ## Finite elements -/

/-- `f64::is_finite`: the exponent bits are not all set. -/
def f64Finite (order : ByteOrder) (b : Bytes) : Bool :=
  order.value b / 2 ^ 52 % 2 ^ 11 != 2 ^ 11 - 1

/-- `f32::is_finite`. -/
def f32Finite (order : ByteOrder) (b : Bytes) : Bool :=
  order.value b / 2 ^ 23 % 2 ^ 8 != 2 ^ 8 - 1

/-- The exponent bits of `float16` are not all set. -/
def f16Finite (order : ByteOrder) (b : Bytes) : Bool :=
  order.value b / 2 ^ 10 % 2 ^ 5 != 2 ^ 5 - 1

/-- The exponent bits of `bfloat16` are not all set. -/
def bf16Finite (order : ByteOrder) (b : Bytes) : Bool :=
  order.value b / 2 ^ 7 % 2 ^ 8 != 2 ^ 8 - 1

/-- `float_element_is_finite`. -/
def floatElementIsFinite (order : ByteOrder) (typeName : RustString) (element : Bytes) : Bool :=
  if typeName = "float64".toList ∧ element.length = 8 then f64Finite order element
  else if typeName = "float32".toList ∧ element.length = 4 then f32Finite order element
  else if typeName = "float16".toList ∧ element.length = 2 then f16Finite order element
  else if typeName = "bfloat16".toList ∧ element.length = 2 then bf16Finite order element
  else if typeName = "complex128".toList ∧ element.length = 16 then
    f64Finite order (element.take 8) && f64Finite order (element.drop 8)
  else if typeName = "complex64".toList ∧ element.length = 8 then
    f32Finite order (element.take 4) && f32Finite order (element.drop 4)
  else true

/-! ## Decoding -/

/-- `value.is_number()`. -/
def isNumber : Value → Bool
  | .num _ => true
  | _ => false

/-- `numeric_input`: a number, or an array of numbers. -/
def numericInput (value : Value) : Bool :=
  isNumber value ||
    match value with
    | .arr parts => parts.all isNumber
    | _ => false

/-- `flatten`. -/
def flatten (nested : Value) (shape : List ℕ) : Except CodecError (List Value) :=
  Json.flatten .mismatch shape nested

section Decode

variable (C : Crates) (order : ByteOrder) (dataType : DataType)

/-- The body of the loop over the scalars in `decode`. -/
def decodeScalar (elementSize : ℕ) (value : Value) : Except CodecError Bytes :=
  match dataType.fillValue value with
  | none => .error .scalar
  | some element =>
      if element.length ≠ elementSize then .error (.size element.length elementSize)
      else if numericInput value &&
          !floatElementIsFinite order (dataType.nameV3.getD []) element then
        .error (.range (dataType.nameV3.getD []) value)
      else .ok element

/-- `strict_from_slice`, with its error as one of the codec. -/
def chunkFromSlice (data : Bytes) : Except CodecError Value :=
  match strictFromSlice C data with
  | .ok nested => .ok nested
  | .error e => .error (.notJson e)

/-- `JsonCodec::decode`. -/
def decode (data : Bytes) (shape : List ℕ) : Except CodecError Bytes := do
  match dataType.fixedSize with
  | none => .error .unsupportedDataType
  | some elementSize =>
      let nested ← chunkFromSlice C data
      let flat ← flatten nested shape
      let elements ← Json.sequence (flat.map (decodeScalar order dataType elementSize))
      return elements.flatten

end Decode

end Rust
