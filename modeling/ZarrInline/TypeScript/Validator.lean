import ZarrInline.Rules.Validity
import ZarrInline.TypeScript.Inlining

/-!
# The validity rules in TypeScript

`validator.ts`.  The check that a key is a string has no counterpart: a `JsString` is one.
-/

namespace TypeScript

/-- A document: its own members, in the order it enumerates them. -/
abbrev Document := JsMembers JsValue

/-- `ValidationIssue`. -/
abbrev ValidationIssue := Rules.ValidationIssue UInt16

/-- `checkKey`. -/
def checkKey (key : JsString) : Option ValidationIssue := Rules.checkKey unit key

/-- `typeof value === "string"`. -/
def isString : JsValue → Bool
  | .str _ => true
  | _ => false

/-- The kinds of value `checkValueType` tells apart. -/
def kinds : Rules.Kinds JsValue := ⟨isObject, isArray, isString⟩

/-- `checkKeyWellFormed` and then `checkValueType`. -/
def memberIssue (key : JsString) (value : JsValue) : Option ValidationIssue :=
  Rules.memberIssue unit kinds key value

/-- `validate`, without the option `strict`. -/
def validate (document : Document) : List ValidationIssue := Rules.validate unit kinds document

/-- `validate` with the option `strict`. -/
def validateStrict (document : Document) : Except (List ValidationIssue) Unit :=
  if validate document = [] then .ok () else .error (validate document)

/-- A key has an issue if and only if the member there has one. -/
theorem mem_keys_validate {document : Document} {key : JsString} :
    key ∈ (validate document).map Rules.ValidationIssue.key ↔
      ∃ value, document.get key = some value ∧ (memberIssue key value).isSome :=
  Rules.mem_keys_validate

/-- The message of `ValidationError`. -/
def validationMessage (issues : List ValidationIssue) : JsString :=
  js "invalid zarr-inline document: " ++
    List.intercalate (js "; ") (issues.map fun i =>
      js "[" ++ js i.rule.name ++ js "] " ++ i.key ++ js ": " ++ js i.message)

end TypeScript
