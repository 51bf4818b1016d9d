import ZarrInline.Json.Nesting
import ZarrInline.Python.Document

/-!
# The chunk codec in Python

`serializer.py`: a chunk is the canonical text of its scalars, nested by its shape.

The conversion of a scalar to its JSON form and back belongs to `zarr`: a `ZDType` is the
two conversions and the JSON form of the data type itself.  The nesting is unbounded here:
an array of NumPy has at most 64 dimensions.
-/

namespace Python

/-! ## Data types -/

/-- What `from_json_scalar` raises: `OverflowError`, or something else. -/
inductive ScalarError where
  | overflow
  | other

/-- `ZDType`. -/
structure ZDType (σ : Type) where
  /-- `to_json(zarr_format=3)`. -/
  toJson : PyValue
  /-- `to_json_scalar`. -/
  toJsonScalar : σ → PyValue
  /-- `from_json_scalar`. -/
  fromJsonScalar : PyValue → Except ScalarError σ
  /-- `np.isfinite`. -/
  isFinite : σ → Bool

/-- An array: its elements in C order. -/
structure NdArray (σ : Type) where
  shape : List ℕ
  flat : List σ
  length_eq : flat.length = shape.prod

/-- What the codec raises. -/
inductive ChunkError where
  | document (e : PyError)
  /-- `ZeroDivisionError`. -/
  | zeroDivision
  /-- `IndexError`. -/
  | index
  | shape (shape : List ℕ)
  | sort (dataType : Option PyString) (value : PyValue)
  | overflow (value : PyValue)
  | range (dataType : Option PyString) (value : PyValue)
  /-- An error of `from_json_scalar`. -/
  | scalar
  /-- An error of `reshape`. -/
  | reshape

/-- The message of an error of the source, with shapes, data types and values as an f-string
shows them.  Errors of the interpreter, of NumPy and of `zarr` have no text here. -/
def ChunkError.message (tuple : List ℕ → PyString) (name : Option PyString → PyString)
    (repr : PyValue → PyString) : ChunkError → Option PyString
  | .shape extents => some (py "json codec: chunk JSON does not match chunk shape " ++ tuple extents)
  | .sort dataType value =>
      some (py "json codec: invalid " ++ name dataType ++ py " scalar " ++ repr value ++
        py ": wrong JSON number sort")
  | .range dataType value =>
      some (py "json codec: " ++ name dataType ++ py " value " ++ repr value ++
        py " is out of range (not finite after conversion); use \"NaN\"/\"Infinity\"/\"-Infinity\"" ++
        py " for non-finite values")
  | _ => none

/-! ## Nesting -/

/-- `_nest`. -/
def nest (flat : List PyValue) (shape : List ℕ) : Except ChunkError PyValue :=
  Json.nest .zeroDivision .index shape flat

/-- `_flatten`. -/
def flatten (nested : PyValue) (shape : List ℕ) : Except ChunkError (List PyValue) :=
  Json.flatten .shape shape nested

/-! ## Sorts of scalars -/

/-- `_INTEGER_DATA_TYPES`. -/
def integerDataTypes : List PyString :=
  ["int8", "int16", "int32", "int64", "uint8", "uint16", "uint32", "uint64"].map py

/-- `_FLOAT_DATA_TYPES`. -/
def floatDataTypes : List PyString := ["float16", "float32", "float64", "bfloat16"].map py

/-- `_COMPLEX_DATA_TYPES`. -/
def complexDataTypes : List PyString := ["complex64", "complex128"].map py

/-- `_NON_FINITE`. -/
def nonFinite : List PyString := ["NaN", "Infinity", "-Infinity"].map py

/-- `isinstance(v, int)`, for a value that is no boolean. -/
def isInt : PyValue → Bool
  | .num (.int _) => true
  | _ => false

/-- `isinstance(v, (int, float))`, for a value that is no boolean. -/
def isNumber : PyValue → Bool
  | .num (.int _) => true
  | .num (.float _) => true
  | _ => false

/-- `isinstance(v, bool)`. -/
def isBool : PyValue → Bool
  | .bool _ => true
  | _ => false

/-- `_is_float_sort`. -/
def isFloatSort (v : PyValue) : Bool :=
  isNumber v ||
    match v with
    | .str s => decide (s ∈ nonFinite)
    | _ => false

/-- A pair of values of float sort. -/
def isComplexSort : PyValue → Bool
  | .arr [re, im] => isFloatSort re && isFloatSort im
  | _ => false

/-- `_data_type_name`. -/
def dataTypeName {σ : Type} (zdtype : ZDType σ) : Option PyString :=
  match zdtype.toJson with
  | .str name => some name
  | .obj ms =>
      match Json.lookup (py "name") ms with
      | some (.str name) => some name
      | _ => none
  | _ => none

/-- Whether a value is of the sort that a data type takes. -/
def isSort (dataType : Option PyString) (value : PyValue) : Bool :=
  match dataType with
  | none => true
  | some name =>
      if name ∈ integerDataTypes then isInt value
      else if name = py "bool" then isBool value
      else if name ∈ floatDataTypes then isFloatSort value
      else if name ∈ complexDataTypes then isComplexSort value
      else true

/-- A value whose conversion has to be finite: a number of a float type, or a pair of numbers
of a complex type. -/
def isNumeric (dataType : Option PyString) (value : PyValue) : Bool :=
  match dataType with
  | none => false
  | some name =>
      if name ∈ floatDataTypes then isNumber value
      else if name ∈ complexDataTypes then
        match value with
        | .arr parts => parts.all isNumber
        | _ => false
      else false

section Codec

variable {σ : Type} (I : Interpreter) (zdtype : ZDType σ)

/-- `_check_scalar_sort`. -/
def checkScalarSort (value : PyValue) : Except ChunkError Unit :=
  if isSort (dataTypeName zdtype) value then .ok () else .error (.sort (dataTypeName zdtype) value)

/-- `_check_finite`. -/
def checkFinite (value : PyValue) (scalar : σ) : Except ChunkError Unit :=
  if isNumeric (dataTypeName zdtype) value && !zdtype.isFinite scalar then
    .error (.range (dataTypeName zdtype) value)
  else .ok ()

/-- The body of the loop over the scalars in `decode_chunk`. -/
def decodeScalar (v : PyValue) : Except ChunkError σ :=
  match zdtype.fromJsonScalar v with
  | .error .overflow => .error (.overflow v)
  | .error .other => .error .scalar
  | .ok scalar => do
      checkFinite zdtype v scalar
      return scalar

/-! ## The codec -/

/-- An error of `document.py`, raised by the codec. -/
def ofDocument {α : Type} : Except PyError α → Except ChunkError α
  | .ok a => .ok a
  | .error e => .error (.document e)

/-- `encode_chunk`, where `frames` calls can be nested in its call of `canonical_dumps`. -/
def encodeChunk (frames : ℕ) (nd : NdArray σ) : Except ChunkError Bytes := do
  let nested ← nest (nd.flat.map zdtype.toJsonScalar) nd.shape
  ofDocument (do utf8Encode (← canonicalDumps I nested frames))

/-- `np.asarray(scalars).reshape(shape)`. -/
def reshape (scalars : List σ) (shape : List ℕ) : Except ChunkError (NdArray σ) :=
  if h : scalars.length = shape.prod then .ok ⟨shape, scalars, h⟩ else .error .reshape

/-- `decode_chunk`. -/
def decodeChunk (data : Bytes) (shape : List ℕ) : Except ChunkError (NdArray σ) := do
  let nested ← ofDocument (strictLoadsBytes I data)
  let flat ← flatten nested shape
  let _ ← Json.sequence (flat.map (checkScalarSort zdtype))
  let scalars ← Json.sequence (flat.map (decodeScalar zdtype))
  reshape scalars shape

end Codec

end Python
