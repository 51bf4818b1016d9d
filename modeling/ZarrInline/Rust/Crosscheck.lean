import ZarrInline.Json.Results
import ZarrInline.Rust.Document

/-!
# The crosscheck validators in Rust

`crosscheck/rust`: what the harness accepts as a path, a data type, a list of integers, a
list of shard shapes and a region.  `u64` values are naturals below `2 ^ 64`.
-/

namespace Rust.Crosscheck

open Numeric (Text NumberToken)

/-- A payload value as `strict_from_str` reads it; a lone surrogate or a number out of
range fails the payload. -/
def readValue (raw : Json.Raw) : Option Value :=
  if Json.HasScalars raw then
    match checkNumbers (ofRaw raw) with
    | .ok () => some (ofRaw raw)
    | .error _ => none
  else none

/-- An integer in an error message. -/
def display (n : ℕ) : RustString := ofCodes (NumberToken.ofInt n).render

/-- `PORTABLE_DTYPES`. -/
def portableDtypes : List RustString :=
  ["bool".toList, "uint8".toList, "int32".toList, "int64".toList, "float32".toList,
    "float64".toList]

/-- `MAX_SAFE_DIMENSION`. -/
def maxSafeDimension : ℕ := 9007199254740991

/-- A text without a leading `+`. -/
def stripPlus : Text → Text
  | [] => []
  | c :: t => if c = '+'.toNat then t else c :: t

/-- `str::parse::<u64>`: digits, after an optional `+`. -/
def parseU64 (t : Text) : Option ℕ :=
  match (stripPlus t).mapM Numeric.digit? with
  | some ds => if ds ≠ [] ∧ Numeric.ofDigits ds < 2 ^ 64 then some (Numeric.ofDigits ds) else none
  | none => none

/-- The text of a number is read as a `u64` if it is an integer without a sign. -/
theorem parseU64_render (n : NumberToken) : parseU64 n.render
    = if n.IsInteger ∧ n.neg = false ∧ Numeric.ofDigits n.int < 2 ^ 64 then
        some (Numeric.ofDigits n.int) else none := by
  obtain ⟨d, ds, hint⟩ := List.exists_cons_of_ne_nil n.int_ne
  cases hneg : n.neg with
  | true =>
      have hrender : ∃ t, n.render = 45 :: t := ⟨_, by rw [NumberToken.render, hneg]; rfl⟩
      obtain ⟨t, ht⟩ := hrender
      have hnone : (45 :: t).mapM Numeric.digit? = none := by
        rw [Json.mapM_cons_option]
        rfl
      have hstrip : stripPlus n.render = 45 :: t := by
        rw [ht]
        rfl
      rw [parseU64, hstrip, hnone, if_neg fun h => Bool.noConfusion h.2.1]
  | false =>
      have hrender : n.render = n.int.map Numeric.digitChar ++
          (NumberToken.renderFrac n.frac ++ NumberToken.renderExp n.exp) := by
        rw [NumberToken.render, hneg]
        rfl
      have hstrip : stripPlus n.render = n.render := by
        have hplus : Numeric.digitChar d ≠ '+'.toNat := by
          rw [Numeric.digitChar]
          have h0 : '0'.toNat = 48 := rfl
          have h1 : '+'.toNat = 43 := rfl
          omega
        rw [hrender, hint, List.map_cons, List.cons_append, stripPlus, if_neg hplus]
      rw [parseU64, hstrip]
      by_cases hn : n.IsInteger
      · have hdigits : n.render = n.int.map Numeric.digitChar := by
          rw [hrender, hn.1, hn.2, NumberToken.renderFrac, NumberToken.renderExp, List.append_nil,
            List.append_nil]
        rw [hdigits, mapM_digit?]
        simp only [hn, n.int_ne, ne_eq, not_false_eq_true, true_and]
      · have hnone : n.render.mapM Numeric.digit? = none := by
          by_contra hsome
          obtain ⟨es, hes⟩ := Option.ne_none_iff_exists'.1 hsome
          have hlit := isIntegerLiteral_render n
          rw [isIntegerLiteral, NumberToken.readSign_render, decide_eq_false hn, ← hrender] at hlit
          have hall : (n.render.all fun c => (Numeric.digit? c).isSome) = true := by
            rw [List.all_eq_true]
            exact fun c hc => Json.isSome_of_mapM hes hc
          rw [hall, hrender, hint] at hlit
          cases hlit
        simp only [hnone, hn, false_and, if_false]

/-- `Value::as_u64`: the text of the number, parsed. -/
def asU64 : Value → Option ℕ
  | .num n => parseU64 n.render
  | _ => none

/-- An item that `u64_list` takes. -/
def u64Item (minValue : ℕ) (v : Value) : Option ℕ :=
  (asU64 v).filter fun n => minValue ≤ n && n ≤ maxSafeDimension

/-- `u64_list`. -/
def u64List (value : Value) (what : RustString) (minValue : ℕ) : Except RustString (List ℕ) :=
  match value with
  | .arr items =>
      match items.mapM (u64Item minValue) with
      | some ns => .ok ns
      | none =>
          .error (what ++ " must be a list of integer tokens in [".toList ++ display minValue ++
            ", ".toList ++ display maxSafeDimension ++ "]".toList)
  | _ => .error (what ++ " must be a list of integers >= ".toList ++ display minValue)

/-- A segment that `portable_path` refuses. -/
def segmentRefused (segment : RustString) : Bool :=
  segment = [] || ("__".toList).isPrefixOf segment || segment.all fun c => c = '.'

/-- `portable_path`. -/
def portablePath (value : Value) (what : RustString) : Except RustString RustString :=
  match value with
  | .str path =>
      if path = [] then .error (what ++ " must be a non-empty string".toList)
      else if (path.splitOn '/').any segmentRefused then
        .error (what ++ " must be a portable relative Zarr node path (no empty, reserved '__', or all-period segments)".toList)
      else .ok path
  | _ => .error (what ++ " must be a non-empty string".toList)

/-- `portable_dtype`. -/
def portableDtype (value : Value) (what : RustString) : Except RustString RustString :=
  match value with
  | .str dtype => if dtype ∈ portableDtypes then .ok dtype else .error message
  | _ => .error message
where
  /-- The message. -/
  message : RustString :=
    what ++ " must be one of: ".toList ++ List.intercalate ", ".toList portableDtypes

/-- The loop of `shard_shapes`, from a level on. -/
def shardLevels (what : RustString) : ℕ → List ℕ → List Value → Except RustString (List (List ℕ))
  | _, _, [] => .ok []
  | level, inner, value :: levels => do
      let shard ← u64List value (what ++ "[".toList ++ display level ++ "]".toList) 1
      if shard.length ≠ inner.length ∨ (shard.zip inner).any (fun e => e.1 % e.2 ≠ 0) then
        .error (what ++ "[".toList ++ display level ++
          "] must match the rank of and be evenly divisible by the preceding chunk shape".toList)
      else
        let shards ← shardLevels what (level + 1) shard levels
        return shard :: shards

/-- `shard_shapes`. -/
def shardShapes (value : Option Value) (chunks : List ℕ) (what : RustString) :
    Except RustString (List (List ℕ)) :=
  match value with
  | none => .ok []
  | some (.arr levels) => shardLevels what 0 chunks levels
  | some _ => .error (what ++ " must be a list of shard shapes".toList)

/-- The loop of `region`, from an axis on. -/
def checkAxes (operation : RustString) : ℕ → List ((ℕ × ℕ) × ℕ) → Except RustString Unit
  | _, [] => .ok ()
  | axis, ((start, size), extent) :: axes =>
      -- `checked_add`
      if 2 ^ 64 ≤ start + size then .error (operation ++ ": region overflows".toList)
      else if start + size > extent then
        .error (operation ++ ": region [".toList ++ display start ++ ", ".toList ++
          display (start + size) ++ ") exceeds array extent ".toList ++ display extent ++
          " on axis ".toList ++ display axis)
      else checkAxes operation (axis + 1) axes

/-- `region`: the start and the shape of the subset. -/
def region (origin shape : Value) (arrayShape : List ℕ) (index : ℕ) :
    Except RustString (List ℕ × List ℕ) := do
  let operation := "operation ".toList ++ display index
  let origin ← u64List origin (operation ++ ": origin".toList) 0
  let shape ← u64List shape (operation ++ ": shape".toList) 1
  if origin.length ≠ arrayShape.length ∨ shape.length ≠ arrayShape.length then
    .error (operation ++ ": region dimensionality mismatch".toList)
  else
    checkAxes operation 0 ((origin.zip shape).zip arrayShape)
    return (origin, shape)

end Rust.Crosscheck
