import ZarrInline.Json.Portable
import ZarrInline.Text.Base64
import ZarrInline.Text.Wide

/-!
# Python values

The values the Python implementation handles: JSON trees over strings of code
points, in which surrogates may stand alone, and over atoms.  Integers and floats are
different sorts of number.  A dict keeps the order in which its names were first
set, and a tuple is the list of its items.

`Interpreter` is what the source leaves to the interpreter it runs on and to the
package `rfc8785`.  Every call and every nested array or object that is read takes
a frame of a bounded stack, and `RecursionError` is no `ValueError`.
-/

namespace Python

open Numeric (Text Double NumberToken)

/-- A string: its code points. -/
abbrev PyString := List ℕ

/-- A byte string. -/
abbrev Bytes := List UInt8

/-- The string of an ASCII literal. -/
def py (s : String) : PyString := Json.lit s

/-- Numbers, and the values JSON has no place for. -/
inductive PyAtom where
  | int (i : ℤ)
  | float (x : Double)
  /-- A dict with a member name that is no string, by the `repr` of that name. -/
  | oddDict (name : PyString)
  /-- A value of another type, by the name of the type. -/
  | other (type : PyString)

/-- A value. -/
abbrev PyValue := Json PyString PyAtom

/-- The members of a dict with string names, in the order of insertion. -/
abbrev PyMembers := Json.Members (@Json.noRank PyString)

/-- `isinstance(value, dict)`. -/
def isDict : PyValue → Bool
  | .obj _ => true
  | .num (.oddDict _) => true
  | _ => false

/-- `isinstance(value, list)`. -/
def isList : PyValue → Bool
  | .arr _ => true
  | _ => false

/-- `isinstance(value, str)`. -/
def isStr : PyValue → Bool
  | .str _ => true
  | _ => false

/-- The most digits that `int` reads and `str` writes. -/
def maxStrDigits : ℕ := 4300

/-- What the source leaves to the interpreter and to `rfc8785`. -/
structure Interpreter where
  /-- The nesting of arrays and objects that `json.loads` reads. -/
  scanDepth : ℕ
  /-- The calls that can be nested in the call of `canonical_dumps` that
  `_try_inline_json` makes. -/
  frames : ℕ
  /-- The calls nested in `json.dumps` of a string, itself included. -/
  textFrames : ℕ
  /-- The calls nested in `rfc8785.dumps` of a float, itself included. -/
  floatFrames : ℕ
  /-- `rfc8785.dumps` of a float, where it does not raise `CanonicalizationError`. -/
  floatText : Double → Option Text
  floatText_of_isFinite : ∀ x, x.IsFinite → floatText x = some x.toText
  floatText_of_not_isFinite : ∀ x, ¬ x.IsFinite → floatText x = none

/-! ## Errors -/

/-- The errors that are a `ValueError`. -/
inductive ValueError where
  /-- A text that is no JSON, the constants `NaN` and `Infinity` included. -/
  | json
  /-- An integer of too many digits. -/
  | intDigits
  | overflow (n : NumberToken)
  | unicodeDecode
  | unicodeEncode
  | base64
  | memberName (name : PyString)
  | nonFinite
  | notSerializable (type : PyString)
  | metadataMustMap (key : PyString)
  | byteMustMap (key : PyString)
  | metadataRequires (key : PyString)

/-- What is raised. -/
inductive PyError where
  | value (e : ValueError)
  /-- `RecursionError`. -/
  | recursion

/-- The message of an error of the source, with keys as `repr` shows them.  Errors of
the interpreter have no text here. -/
def ValueError.message (repr : PyString → PyString) : ValueError → Option PyString
  | .json => none
  | .intDigits => none
  | .overflow n => some (py "invalid JSON: number " ++ n.render ++ py " overflows float64")
  | .unicodeDecode => none
  | .unicodeEncode => none
  | .base64 => none
  | .memberName name => some (py "object member name must be a string: " ++ name)
  | .nonFinite => some (py "canonical JSON cannot represent non-finite numbers")
  | .notSerializable type => some (py "value is not JSON-serializable: " ++ type)
  | .metadataMustMap key => some (py "metadata key " ++ repr key ++ py " must map to a JSON object")
  | .byteMustMap key =>
      some (py "byte key " ++ repr key ++
        py " must map to a base64 string or an inline JSON array or object")
  | .metadataRequires key =>
      some (py "metadata key " ++ repr key ++ py " requires a JSON object value")

end Python
