import ZarrInline.Python.Document
import ZarrInline.Text.Sorting

/-!
# The crosscheck validators in Python

`crosscheck/python`: what the harness accepts as a path, a data type, a list of integers, a
list of shard shapes and a region.  Errors are the texts of the `ValueError`s.
-/

namespace Python.Crosscheck

open Numeric (natDigits digitChar)

/-- A payload value as `strict_loads` reads it; a number it refuses fails the payload. -/
def readValue (raw : Json.Raw) : Option PyValue :=
  if raw.Every (fun _ => True) (fun n => acceptsNumber n = true) (fun _ => True) then some (ofRaw raw)
  else none

/-- An integer in an error message. -/
def str (i : ℤ) : PyString := (Numeric.NumberToken.ofInt i).render

/-- `PORTABLE_DTYPES`. -/
def portableDtypes : List PyString :=
  [py "bool", py "uint8", py "int32", py "int64", py "float32", py "float64"]

/-- `MAX_SAFE_DIMENSION`. -/
def maxSafeDimension : ℤ := 2 ^ 53 - 1

/-- A segment that `_path` refuses. -/
def segmentRefused (segment : PyString) : Bool :=
  segment = [] || (py "__").isPrefixOf segment || segment.toFinset = {'.'.toNat}

/-- `_path`. -/
def path (value : PyValue) (what : PyString) : Except PyString PyString :=
  match value with
  | .str s =>
      if s = [] then .error (what ++ py " must be a non-empty string")
      else if (s.splitOn '/'.toNat).any segmentRefused then
        .error (what ++ py " must be a portable relative Zarr node path (no empty, reserved '__', or all-period segments)")
      else .ok s
  | _ => .error (what ++ py " must be a non-empty string")

/-- `_dtype`. -/
def dtype (value : PyValue) (what : PyString) : Except PyString PyString :=
  match value with
  | .str s => if s ∈ portableDtypes then .ok s else .error message
  | _ => .error message
where
  /-- The message. -/
  message : PyString :=
    what ++ py " must be one of: " ++ List.intercalate (py ", ") (Text.sortStrings portableDtypes)

/-- An item that `_int_list` takes: an `int` that is no `bool`, in range. -/
def intItem (minValue : ℤ) : PyValue → Option ℤ
  | .num (.int v) => if minValue ≤ v ∧ v ≤ maxSafeDimension then some v else none
  | _ => none

/-- `_int_list`. -/
def intList (value : PyValue) (what : PyString) (minValue : ℤ) : Except PyString (List ℤ) :=
  match value with
  | .arr items =>
      match items.mapM (intItem minValue) with
      | some vs => .ok vs
      | none => .error message
  | _ => .error message
where
  /-- The message. -/
  message : PyString :=
    what ++ py " must be a list of integer tokens in [" ++ str minValue ++ py ", " ++
      str maxSafeDimension ++ py "]"

/-- The loop of `_shards`, from a level on. -/
def shardLevels (what : PyString) : ℕ → List ℤ → List PyValue → Except PyString (List (List ℤ))
  | _, _, [] => .ok []
  | level, inner, item :: items => do
      let shard ← intList item (what ++ py "[" ++ str level ++ py "]") 1
      if shard.length ≠ inner.length ∨ (shard.zip inner).any (fun e => e.1 % e.2 ≠ 0) then
        .error (what ++ py "[" ++ str level ++
          py "] must match the rank of and be evenly divisible by the preceding chunk shape")
      else
        let shards ← shardLevels what (level + 1) shard items
        return shard :: shards

/-- `_shards`, of `spec.get("shards", [])`. -/
def shards (value : Option PyValue) (chunks : List ℤ) (what : PyString) :
    Except PyString (List (List ℤ)) :=
  match value.getD (.arr []) with
  | .arr items => shardLevels what 0 chunks items
  | _ => .error (what ++ py " must be a list of shard shapes")

/-- The loop of `_region`, from an axis on. -/
def checkAxes (operation : PyString) : ℕ → List ((ℤ × ℤ) × ℤ) → Except PyString Unit
  | _, [] => .ok ()
  | axis, ((start, size), extent) :: axes =>
      if start + size > extent then
        .error (operation ++ py ": region [" ++ str start ++ py ", " ++ str (start + size) ++
          py ") exceeds array extent " ++ str extent ++ py " on axis " ++ str axis)
      else checkAxes operation (axis + 1) axes

/-- `_region`: the shape, and the slices of the selection. -/
def region (origin shape : PyValue) (arrayShape : List ℤ) (index : ℕ) :
    Except PyString (List ℤ × List (ℤ × ℤ)) := do
  let operation := py "operation " ++ str index
  let origin ← intList origin (operation ++ py ": origin") 0
  let shape ← intList shape (operation ++ py ": shape") 1
  if origin.length ≠ arrayShape.length ∨ shape.length ≠ arrayShape.length then
    .error (operation ++ py ": region dimensionality mismatch")
  else
    checkAxes operation 0 ((origin.zip shape).zip arrayShape)
    return (shape, (origin.zip shape).map fun e => (e.1, e.1 + e.2))

end Python.Crosscheck
