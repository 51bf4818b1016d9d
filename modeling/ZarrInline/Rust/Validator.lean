import ZarrInline.Rust.Document

/-!
# The validity rules in Rust

`validator.rs`.
-/

namespace Rust

/-- A document: its members, in order. -/
abbrev Document := Map Value

/-- `ValidationIssue`. -/
abbrev ValidationIssue := Rules.ValidationIssue Char

/-- `check_key`. -/
def checkKey (key : RustString) : Option ValidationIssue := Rules.checkKey id key

/-- The kinds of value `check_value_type` tells apart. -/
def kinds : Rules.Kinds Value := ⟨isObject, isArray, isString⟩

/-- `check_value_type`. -/
def checkValueType (key : RustString) (value : Value) : Option ValidationIssue :=
  Rules.checkValueType id kinds key value

/-- `validate`. -/
def validate (document : Document) : List ValidationIssue := Rules.validate id kinds document

/-- `validate_strict`. -/
def validateStrict (document : Document) : Except (List ValidationIssue) Unit :=
  if validate document = [] then .ok () else .error (validate document)

/-- `ValidationError`, as `Display` shows it. -/
def validationMessage (issues : List ValidationIssue) : RustString :=
  "invalid zarr-inline document: ".toList ++
    List.intercalate "; ".toList (issues.map fun i =>
      "[".toList ++ i.rule.name.toList ++ "] ".toList ++ i.key ++ ": ".toList ++ i.message.toList)

end Rust
