import ZarrInline.Grid.RowMajor
import ZarrInline.Json.Nesting
import ZarrInline.Numeric.Arithmetic
import ZarrInline.TypeScript.Document

/-!
# The chunk codec in TypeScript

`serializer.ts`: a chunk is the canonical text of its scalars, nested by its shape.

The elements of a typed array are stored as values that are read from it again.  What the
language makes of a value that is no number, where it needs one, is a parameter
(`Conversions`), and so is the `BoolArray` of `zarrita`.  The extents of a shape are natural
numbers and the strides integers; an array of `2 ^ 32` elements cannot be made.
-/

namespace TypeScript

open Numeric (Double)

/-! ## Data types -/

/-- The data types that the source names. -/
inductive DataType where
  | bool | int8 | int16 | int32 | int64 | uint8 | uint16 | uint32 | uint64
  | float16 | float32 | float64
  | other (name : JsString)
deriving DecidableEq

/-- `isFloatType`. -/
def isFloatType : DataType → Bool
  | .float16 | .float32 | .float64 => true
  | _ => false

/-- `isBigintType`. -/
def isBigintType : DataType → Bool
  | .int64 | .uint64 => true
  | _ => false

/-- `INT_RANGES`. -/
def intRange? : DataType → Option (ℤ × ℤ)
  | .int8 => some (-128, 127)
  | .int16 => some (-32768, 32767)
  | .int32 => some (-2147483648, 2147483647)
  | .uint8 => some (0, 255)
  | .uint16 => some (0, 65535)
  | .uint32 => some (0, 4294967295)
  | _ => none

/-- The bounds of `fromJsonScalar` for the types of big integers. -/
def bigintRange (dataType : DataType) : ℤ × ℤ :=
  if dataType = .int64 then (-(2 ^ 63), 2 ^ 63 - 1) else (0, 2 ^ 64 - 1)

/-- What the codec throws. -/
inductive ChunkError where
  | document (e : JsError)
  | cannotSerialize (dataType : DataType) (value : JsValue)
  | notFinite (dataType : DataType) (value : JsValue)
  /-- A scalar that the message shows as `JSON.stringify` does. -/
  | invalid (dataType : DataType) (value : JsValue)
  /-- A scalar that the message shows as `String` does. -/
  | invalidInteger (dataType : DataType) (value : JsValue)
  | notInteger (dataType : DataType) (value : JsValue)
  | outOfRange (dataType : DataType) (value : ℤ)
  | shape (shape : List ℕ)
  | unsupported (dataType : DataType)
  | configuration (config : JsValue)
  /-- A `TypeError` of a typed array. -/
  | typeError
  /-- The `RangeError` of an array that is too long. -/
  | arrayLength

/-- How values are shown in messages: `${dataType}`, `String`, `JSON.stringify`, and the
extents of a shape joined by commas. -/
structure Shown where
  name : DataType → JsString
  string : JsValue → JsString
  json : JsValue → JsString
  extents : List ℕ → JsString

/-- The message of an error of the source. -/
def ChunkError.message (S : Shown) : ChunkError → Option JsString
  | .document e => e.message
  | .cannotSerialize dataType value =>
      some (js "json codec: cannot serialize " ++ S.name dataType ++ js " scalar " ++ S.string value)
  | .notFinite dataType value =>
      some (js "json codec: " ++ S.name dataType ++ js " value " ++ S.string value ++
        js " is out of range (not finite after conversion); use \"NaN\"/\"Infinity\"/\"-Infinity\"" ++
        js " for non-finite values")
  | .invalid dataType value =>
      some (js "json codec: invalid " ++ S.name dataType ++ js " scalar " ++ S.json value)
  | .invalidInteger dataType value =>
      some (js "json codec: invalid " ++ S.name dataType ++ js " scalar " ++ S.string value)
  | .notInteger dataType value =>
      some (js "json codec: invalid " ++ S.name dataType ++ js " scalar " ++ S.string value ++
        js ": must be an integer token")
  | .outOfRange dataType value =>
      some (js "json codec: " ++ S.name dataType ++ js " scalar " ++ S.string (.num (.bigint value)) ++
        js " is out of range [" ++ S.string (.num (.bigint (bigintRange dataType).1)) ++ js ", " ++
        S.string (.num (.bigint (bigintRange dataType).2)) ++ js "]")
  | .shape extents =>
      some (js "json codec: chunk JSON does not match chunk shape [" ++ S.extents extents ++ js "]")
  | .unsupported dataType => some (js "json codec: unsupported data type " ++ S.json (.str (S.name dataType)))
  | .configuration config => some (js "json codec takes no configuration; got " ++ S.json config)
  | .typeError => none
  | .arrayLength => none

/-! ## Scalars -/

/-- `Number.MAX_SAFE_INTEGER`. -/
def maxSafeInteger : ℤ := 2 ^ 53 - 1

/-- `"NaN"`, `"Infinity"` and `"-Infinity"`. -/
def nonFinite? (s : JsString) : Option Double :=
  if s = js "NaN" then some .nan
  else if s = js "Infinity" then some (.infinity false)
  else if s = js "-Infinity" then some (.infinity true)
  else none

/-- `toJsonScalar`. -/
def toJsonScalar (value : JsValue) (dataType : DataType) : Except ChunkError JsValue :=
  match value with
  | .num (.bigint i) =>
      if maxSafeInteger < i ∨ i < -maxSafeInteger then .ok value
      else .ok (.num (.number (Double.ofInt i)))
  | .num (.number .nan) => .ok (.str (js "NaN"))
  | .num (.number (.infinity false)) => .ok (.str (js "Infinity"))
  | .num (.number (.infinity true)) => .ok (.str (js "-Infinity"))
  | .num (.number _) => .ok value
  | .bool _ => .ok value
  | .str _ => .ok value
  | _ => .error (.cannotSerialize dataType value)

/-- The branch of `fromJsonScalar` for a number of a float type. -/
def fromJsonNumber (asFloat64 : Double) (dataType : DataType) (value : JsValue) :
    Except ChunkError JsValue :=
  let converted := if dataType = .float32 then asFloat64.fround else asFloat64
  if converted.IsFinite then .ok (.num (.number asFloat64)) else .error (.notFinite dataType value)

/-- The branch of `fromJsonScalar` for float types. -/
def fromJsonFloat (value : JsValue) (dataType : DataType) : Except ChunkError JsValue :=
  match value with
  | .num (.number x) => fromJsonNumber x dataType value
  | .num (.bigint i) => fromJsonNumber (Double.ofInt i) dataType value
  | .str s =>
      match nonFinite? s with
      | some x => .ok (.num (.number x))
      | none => .error (.invalid dataType value)
  | _ => .error (.invalid dataType value)

/-- The branch of `fromJsonScalar` for the types of big integers. -/
def fromJsonBigint (value : JsValue) (dataType : DataType) : Except ChunkError JsValue :=
  match value with
  | .num (.bigint i) =>
      if i < (bigintRange dataType).1 ∨ (bigintRange dataType).2 < i then .error (.outOfRange dataType i)
      else .ok value
  | _ => .error (.notInteger dataType value)

/-- The branch of `fromJsonScalar` for the other integer types. -/
def fromJsonInteger (value : JsValue) (dataType : DataType) (range : ℤ × ℤ) :
    Except ChunkError JsValue :=
  match value with
  | .num (.bigint i) =>
      if i < range.1 ∨ range.2 < i then .error (.invalidInteger dataType value)
      else .ok (.num (.number (Double.ofInt i)))
  | _ => .error (.invalidInteger dataType value)

/-- `fromJsonScalar`. -/
def fromJsonScalar (value : JsValue) (dataType : DataType) : Except ChunkError JsValue :=
  if isFloatType dataType then fromJsonFloat value dataType
  else if isBigintType dataType then fromJsonBigint value dataType
  else if dataType = .bool then
    match value with
    | .bool _ => .ok value
    | _ => .error (.invalid dataType value)
  else
    match intRange? dataType with
    | some range => fromJsonInteger value dataType range
    | none => .ok value

/-! ## Nesting -/

/-- `nest`.  A list as long as the shape is cut without a remainder. -/
def nest : List ℕ → List JsValue → JsValue
  | [], flat => flat.headD (.num .undefined)
  | [_], flat => .arr flat
  | d :: e :: rest, flat => .arr ((Json.slices (flat.length / d) d flat).map (nest (e :: rest)))

/-- `flatten`. -/
def flatten (nested : JsValue) (shape : List ℕ) : Except ChunkError (List JsValue) :=
  Json.flatten .shape shape nested

/-! ## Typed arrays -/

/-- What the language makes of strings, arrays and objects, where it needs a number or a big
integer, and what `BoolArray` keeps of a value. -/
structure Conversions where
  number : JsValue → Double
  bigint : JsValue → Option ℤ
  boolArray : JsValue → Bool
  boolArray_bool : ∀ b, boolArray (.bool b) = b

/-- `ToNumber`. -/
def toNumber (V : Conversions) : JsValue → Except ChunkError Double
  | .num (.number x) => .ok x
  | .num (.bigint _) => .error .typeError
  | .num .undefined => .ok .nan
  | .num .symbol => .error .typeError
  | .null => .ok (.ofInt 0)
  | .bool b => .ok (.ofInt (if b then 1 else 0))
  | v => .ok (V.number v)

/-- `ToBigInt`. -/
def toBigInt (V : Conversions) : JsValue → Except ChunkError ℤ
  | .num (.bigint i) => .ok i
  | .num (.number _) => .error .typeError
  | .num .undefined => .error .typeError
  | .num .symbol => .error .typeError
  | .null => .error .typeError
  | .bool b => .ok (if b then 1 else 0)
  | v =>
      match V.bigint v with
      | some i => .ok i
      | none => .error .typeError

/-- The integer part of a number, `0` if it is not finite. -/
def truncate : Double → ℤ
  | .finite neg u _ => if neg then -((u / Numeric.scale : ℕ) : ℤ) else (u / Numeric.scale : ℕ)
  | _ => 0

/-- The integer that `n` bits keep of an integer, with and without a sign. -/
def wrap (signed : Bool) (n : ℕ) (i : ℤ) : ℤ := if signed then i.bmod (2 ^ n) else i % 2 ^ n

/-- A number in a typed array of integers. -/
def storeInteger (V : Conversions) (signed : Bool) (n : ℕ) (v : JsValue) : Except ChunkError JsValue :=
  (toNumber V v).map fun x => .num (.number (Double.ofInt (wrap signed n (truncate x))))

/-- A big integer in a typed array. -/
def storeBigint (V : Conversions) (signed : Bool) (v : JsValue) : Except ChunkError JsValue :=
  (toBigInt V v).map fun i => .num (.bigint (wrap signed 64 i))

/-- What is read of a typed array where a value was stored. -/
def storeElement (V : Conversions) : DataType → JsValue → Except ChunkError JsValue
  | .bool, v => .ok (.bool (V.boolArray v))
  | .int8, v => storeInteger V true 8 v
  | .int16, v => storeInteger V true 16 v
  | .int32, v => storeInteger V true 32 v
  | .uint8, v => storeInteger V false 8 v
  | .uint16, v => storeInteger V false 16 v
  | .uint32, v => storeInteger V false 32 v
  | .int64, v => storeBigint V true v
  | .uint64, v => storeBigint V false v
  | .float32, v => (toNumber V v).map fun x => .num (.number x.fround)
  | .float64, v => (toNumber V v).map fun x => .num (.number x)
  | dataType, _ => .error (.unsupported dataType)

/-- The constructors of `makeTypedArray`. -/
def hasTypedArray : DataType → Bool
  | .float16 => false
  | .other _ => false
  | _ => true

/-- `makeTypedArray`. -/
def makeTypedArray (V : Conversions) (dataType : DataType) (scalars : List JsValue) :
    Except ChunkError (List JsValue) :=
  if hasTypedArray dataType then Json.sequence (scalars.map (storeElement V dataType))
  else .error (.unsupported dataType)

/-! ## Chunks -/

/-- `Chunk`. -/
structure Chunk where
  data : List JsValue
  shape : List ℕ
  stride : List ℤ

/-- `cStrides`. -/
def cStrides (shape : List ℕ) : List ℕ :=
  (shape.foldr (fun extent acc => (acc.2 :: acc.1, acc.2 * extent)) ([], 1)).1

/-- `elementAt`. -/
def elementAt (data : List JsValue) : ℤ → JsValue
  | .ofNat index => data[index]?.getD (.num .undefined)
  | .negSucc _ => .num .undefined

/-- The sum of `index[dim] * stride[dim]`. -/
def address (index : List ℕ) (stride : List ℤ) : ℤ :=
  (List.zipWith (fun (i : ℕ) (s : ℤ) => (i : ℤ) * s) index stride).sum

/-- The loop of `chunkElements`, from an index on. -/
def walk (chunk : Chunk) : ℕ → List ℕ → List JsValue
  | 0, _ => []
  | n + 1, index =>
      elementAt chunk.data (address index chunk.stride) ::
        walk chunk n (Grid.advance chunk.shape index).2

/-- The longest array. -/
def maxArrayLength : ℕ := 2 ^ 32 - 1

/-- `chunkElements`. -/
def chunkElements (chunk : Chunk) : Except ChunkError (List JsValue) :=
  let size := chunk.shape.prod
  if maxArrayLength < size then .error .arrayLength
  else .ok (walk chunk size (List.replicate chunk.shape.length 0))

/-! ## The codec -/

/-- The check of `JsonSerializer.fromConfig`. -/
def checkConfig : JsValue → Except ChunkError Unit
  | .num .undefined => .ok ()
  | .null => .ok ()
  | .obj [] => .ok ()
  | .arr [] => .ok ()
  | .num (.exotic _) => .ok ()
  | config => .error (.configuration config)

/-- `TextDecoder.decode` with `fatal`: a byte order mark at the start is left out. -/
def utf8DecodeMarked (data : Bytes) : Except JsError JsString :=
  match data with
  | 0xEF :: 0xBB :: 0xBF :: rest => utf8Decode rest
  | _ => utf8Decode data

/-- A result of the document codec. -/
def ofDocument {α : Type} : Except JsError α → Except ChunkError α
  | .ok a => .ok a
  | .error e => .error (.document e)

/-- `JsonSerializer.encode`. -/
def JsonSerializer.encode (dataType : DataType) (chunk : Chunk) : Except ChunkError Bytes := do
  let elements ← chunkElements chunk
  let flat ← Json.sequence (elements.map fun v => toJsonScalar v dataType)
  let text ← ofDocument (canonicalStringify (nest chunk.shape flat))
  return utf8Encode text

/-- `JsonSerializer.decode`. -/
def JsonSerializer.decode (V : Conversions) (dataType : DataType) (shape : List ℕ) (bytes : Bytes) :
    Except ChunkError Chunk := do
  let text ← ofDocument (utf8DecodeMarked bytes)
  let nested ← ofDocument (strictParse text ⟨true⟩)
  let flat ← flatten nested shape
  let scalars ← Json.sequence (flat.map fun v => fromJsonScalar v dataType)
  let data ← makeTypedArray V dataType scalars
  return ⟨data, shape, (cStrides shape).map Int.ofNat⟩

end TypeScript
