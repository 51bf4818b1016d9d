import ZarrInline.Numeric.Arithmetic
import ZarrInline.Text.Sorting
import ZarrInline.TypeScript.Inlining

/-!
# The crosscheck validators in TypeScript

`crosscheck/typescript`: what the harness accepts as a path, a data type, a list of
integers, a list of shard shapes and a region.  A payload is parsed with every integer
token as a big integer; lists of integers are then converted to numbers.
-/

namespace TypeScript.Crosscheck

open Numeric (Double NumberToken)

/-- A payload value as `strictParse` reads it, every integer token as a big integer. -/
def readValue (raw : Json.Raw) : Option JsValue :=
  ((raw.load stringValue arrayIndex?).traverse (revive { integersAsBigInt := true })).toOption

/-- A big integer in an error message. -/
def bigintText (i : ℤ) : JsString := ofAscii (NumberToken.ofInt i).render

/-- A number in an error message. -/
def numberText (x : Double) : JsString := ofAscii x.toText

/-- `PORTABLE_DTYPES`. -/
def portableDtypes : List JsString :=
  [js "bool", js "int32", js "int64", js "uint8", js "float32", js "float64"]

/-- `MAX_SAFE_DIMENSION`. -/
def maxSafeDimension : ℤ := 2 ^ 53 - 1

/-- A segment that `portablePath` refuses. -/
def segmentRefused (segment : JsString) : Bool :=
  segment.length = 0 || (js "__").isPrefixOf segment ||
    (segment ≠ [] && segment.all fun u => u = unit '.')

/-- `portablePath`. -/
def portablePath (value : JsValue) (what : JsString) : Except JsString JsString :=
  match value with
  | .str s =>
      if s.length = 0 then .error (what ++ js " must be a non-empty string")
      else if (s.splitOn (unit '/')).any segmentRefused then
        .error (what ++ js " must be a portable relative Zarr node path (no empty, reserved '__', or all-period segments)")
      else .ok s
  | _ => .error (what ++ js " must be a non-empty string")

/-- `portableDtype`. -/
def portableDtype (value : JsValue) (what : JsString) : Except JsString JsString :=
  match value with
  | .str s => if s ∈ portableDtypes then .ok s else .error message
  | _ => .error message
where
  /-- The message. -/
  message : JsString :=
    what ++ js " must be one of: " ++ List.intercalate (js ", ")
      ((Text.sortStrings (portableDtypes.map (·.map UInt16.toNat))).map ofAscii)

/-- An item that `intList` takes: a big integer in range, converted to a number. -/
def intItem (minValue : ℤ) : JsValue → Option Double
  | .num (.bigint v) => if minValue ≤ v ∧ v ≤ maxSafeDimension then some (Double.ofInt v) else none
  | _ => none

/-- `intList`. -/
def intList (value : JsValue) (what : JsString) (minValue : ℤ) : Except JsString (List Double) :=
  match value with
  | .arr items =>
      match items.mapM (intItem minValue) with
      | some vs => .ok vs
      | none => .error message
  | _ => .error message
where
  /-- The message. -/
  message : JsString :=
    what ++ js " must be a list of integer tokens in [" ++ bigintText minValue ++ js ", " ++
      bigintText maxSafeDimension ++ js "]"

/-- The loop of `shardShapes`, from a level on. -/
def shardLevels (what : JsString) : ℕ → List Double → List JsValue →
    Except JsString (List (List Double))
  | _, _, [] => .ok []
  | level, inner, item :: items => do
      let shard ← intList item (what ++ js "[" ++ bigintText level ++ js "]") 1
      if shard.length ≠ inner.length ∨ (shard.zip inner).any (fun e => !(e.1.rem e.2).isZero) then
        .error (what ++ js "[" ++ bigintText level ++
          js "] must match the rank of and be evenly divisible by the preceding chunk shape")
      else
        let shards ← shardLevels what (level + 1) shard items
        return shard :: shards

/-- `shardShapes`; `none` is `undefined`. -/
def shardShapes (value : Option JsValue) (chunks : List Double) (what : JsString) :
    Except JsString (List (List Double)) :=
  match value with
  | none => .ok []
  | some (.arr levels) => shardLevels what 0 chunks levels
  | some _ => .error (what ++ js " must be a list of shard shapes")

/-- The loop of `region`, from an axis on. -/
def checkAxes (operation : JsString) : ℕ → List ((Double × Double) × Double) → Except JsString Unit
  | _, [] => .ok ()
  | axis, ((start, size), extent) :: axes =>
      if extent.lt start || (extent.sub start).lt size then
        .error (operation ++ js ": region starting at " ++ numberText start ++ js " with size " ++
          numberText size ++ js " exceeds array extent " ++ numberText extent ++ js " on axis " ++
          bigintText axis)
      else checkAxes operation (axis + 1) axes

/-- `region`: the shape, and the slices of the selection. -/
def region (origin shape : JsValue) (arrayShape : List Double) (index : ℕ) :
    Except JsString (List Double × List (Double × Double)) := do
  let operation := js "operation " ++ bigintText index
  let origin ← intList origin (operation ++ js ": origin") 0
  let shape ← intList shape (operation ++ js ": shape") 1
  if origin.length ≠ arrayShape.length ∨ shape.length ≠ arrayShape.length then
    .error (operation ++ js ": region dimensionality mismatch")
  else
    checkAxes operation 0 ((origin.zip shape).zip arrayShape)
    return (shape, (origin.zip shape).map fun e => (e.1, e.1.add e.2))

end TypeScript.Crosscheck
