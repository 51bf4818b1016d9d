import ZarrInline.Python.Inlining

/-!
# The validity rules in Python

`validator.py`.  The check that a key is a string has no counterpart: a `PyString` is one.
-/

namespace Python

/-- A document: its members, in order. -/
abbrev Document := PyMembers PyValue

/-- `ValidationIssue`. -/
abbrev ValidationIssue := Rules.ValidationIssue ℕ

/-- `check_key`. -/
def checkKey (key : PyString) : Option ValidationIssue := Rules.checkKey Char.toNat key

/-- The kinds of value `_check_value_type` tells apart. -/
def kinds : Rules.Kinds PyValue := ⟨isDict, isList, isStr⟩

/-- `validate`, without `Strictness.STRICT`. -/
def validate (document : Document) : List ValidationIssue :=
  Rules.validate Char.toNat kinds document

/-- `validate` with `Strictness.STRICT`. -/
def validateStrict (document : Document) : Except (List ValidationIssue) Unit :=
  if validate document = [] then .ok () else .error (validate document)

/-- The message of `ValidationError`. -/
def validationMessage (issues : List ValidationIssue) : PyString :=
  py "invalid zarr-inline document: " ++
    List.intercalate (py "; ") (issues.map fun i =>
      py "[" ++ py i.rule.name ++ py "] " ++ i.key ++ py ": " ++ py i.message)

end Python
