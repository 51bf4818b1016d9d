import ZarrInline.Json.Portable
import ZarrInline.Text.Base64

/-!
# JavaScript values

The values the TypeScript implementation handles: JSON trees over strings of
UTF-16 code units and over atoms, which are the numbers and the values that JSON
has no place for.  A plain object is its own enumerable members.  Stack depth is
not modelled: the recursion of the source and of `JSON.parse` is taken to be
unbounded.

`arrayIndex?` gives the names that an object enumerates first.
-/

namespace TypeScript

open Numeric (Text Double NumberToken)

/-- A string: its UTF-16 code units. -/
abbrev JsString := List UInt16

instance (s : JsString) (l : List JsString) : Decidable (s ∈ l) := List.instDecidableMemOfLawfulBEq s l

/-- A byte array. -/
abbrev Bytes := List UInt8

/-- The code unit of an ASCII character. -/
def unit (c : Char) : UInt16 := UInt16.ofNat c.toNat

/-- The string of an ASCII literal. -/
def js (s : String) : JsString := s.toList.map unit

/-- A string of ASCII code points. -/
def ofAscii (t : Text) : JsString := t.map UInt16.ofNat

/-- Numbers, and the values JSON cannot represent. -/
inductive JsAtom where
  | number (x : Double)
  | bigint (i : ℤ)
  | undefined
  | function
  | symbol
  /-- An object that is no array and no plain object of string-keyed members.
  `plain` tells an object with a plain prototype, which owns symbols, from an
  object with another prototype. -/
  | exotic (plain : Bool)
deriving DecidableEq

/-- A value. -/
abbrev JsValue := Json JsString JsAtom

/-- The atoms `canonicalStringify` accepts. -/
def JsAtom.IsCanonical : JsAtom → Prop
  | .number x => x.IsFinite
  | .bigint _ => True
  | _ => False

instance : DecidablePred JsAtom.IsCanonical
  | .number x => inferInstanceAs (Decidable x.IsFinite)
  | .bigint _ => inferInstanceAs (Decidable True)
  | .undefined => inferInstanceAs (Decidable False)
  | .function => inferInstanceAs (Decidable False)
  | .symbol => inferInstanceAs (Decidable False)
  | .exotic _ => inferInstanceAs (Decidable False)

/-! ## Array indices -/

/-- The index a name spells: a canonical decimal numeral below `2 ^ 32 - 1`. -/
def arrayIndex? (k : JsString) : Option ℕ :=
  match k.mapM fun u => Numeric.digit? u.toNat with
  | some ds =>
      if Numeric.natDigits (Numeric.ofDigits ds) = ds ∧ Numeric.ofDigits ds < 2 ^ 32 - 1 then
        some (Numeric.ofDigits ds)
      else none
  | none => none

theorem map_digitChar_of_mapM {k : JsString} {ds : List Numeric.Digit}
    (h : k.mapM (fun u => Numeric.digit? u.toNat) = some ds) :
    k.map UInt16.toNat = ds.map Numeric.digitChar := by
  induction k generalizing ds with
  | nil => cases h; rfl
  | cons u k ih =>
      rw [List.mapM_cons, Option.bind_eq_bind, Option.bind_eq_some_iff] at h
      obtain ⟨d, hd, h⟩ := h
      rw [Option.bind_eq_bind, Option.bind_eq_some_iff] at h
      obtain ⟨es, hes, h⟩ := h
      cases h
      rw [List.map_cons, List.map_cons, Numeric.digitChar_of_digit? hd, ih hes]

/-- The name of an index is its numeral. -/
theorem arrayIndex?_spelling {k : JsString} {n : ℕ} (h : arrayIndex? k = some n) :
    k.map UInt16.toNat = (Numeric.natDigits n).map Numeric.digitChar := by
  unfold arrayIndex? at h
  split at h
  · next ds hds =>
      split at h
      · next hcond =>
          cases h
          rw [hcond.1, map_digitChar_of_mapM hds]
      · cases h
  · cases h

/-- Different names have different indices. -/
theorem arrayIndex?_inj (k l : JsString) (n : ℕ) (hk : arrayIndex? k = some n)
    (hl : arrayIndex? l = some n) : k = l := by
  have hmap : k.map UInt16.toNat = l.map UInt16.toNat :=
    (arrayIndex?_spelling hk).trans (arrayIndex?_spelling hl).symm
  exact List.map_injective_iff.2 (fun _ _ => UInt16.toNat.inj) hmap

/-- The members of an object, in the order it enumerates them. -/
abbrev JsMembers := Json.Members arrayIndex?

/-! ## JSON values -/

/-- A JSON value: well-formed strings, finite numbers and big integers, in arrays and
plain objects.  The members of an object stand in enumeration order. -/
def IsJson (v : JsValue) : Prop :=
  v.Every Unicode.IsWellFormed JsAtom.IsCanonical (Json.Ordered arrayIndex?)

instance : DecidablePred IsJson := fun v => inferInstanceAs (Decidable (v.Every _ _ _))

/-- `Array.isArray`. -/
def isArray : JsValue → Bool
  | .arr _ => true
  | _ => false

/-- An object that is not an array, and whose prototype is plain. -/
def isPlainObject : JsValue → Bool
  | .obj _ => true
  | .num (.exotic plain) => plain
  | _ => false

/-- `typeof value === "object"`, without `null` and arrays. -/
def isObject : JsValue → Bool
  | .obj _ => true
  | .num (.exotic _) => true
  | _ => false

/-- An array or an object of members. -/
def IsContainer : JsValue → Prop
  | .arr _ => True
  | .obj _ => True
  | _ => False

instance : DecidablePred IsContainer
  | .arr _ => inferInstanceAs (Decidable True)
  | .obj _ => inferInstanceAs (Decidable True)
  | .null => inferInstanceAs (Decidable False)
  | .bool _ => inferInstanceAs (Decidable False)
  | .str _ => inferInstanceAs (Decidable False)
  | .num _ => inferInstanceAs (Decidable False)

/-! ## Errors -/

/-- What `typeof` gives of a value that is not JSON-serializable. -/
inductive JsType where
  | undefined
  | function
  | symbol

/-- The name of a type. -/
def JsType.name : JsType → JsString
  | .undefined => js "undefined"
  | .function => js "function"
  | .symbol => js "symbol"

/-- A key in an error message, as `JSON.stringify` shows it: lone surrogates are
escaped. -/
def jsonStringifyKey (key : JsString) : JsString :=
  js "\"" ++ (Unicode.codePoints key).flatMap (fun c =>
    if Unicode.IsSurrogate c then ofAscii (Json.itemText (.unit (UInt16.ofNat c)))
    else (Json.itemText (Json.canonicalItem c)).flatMap Unicode.encodeUnits) ++ js "\""

/-- The errors that are thrown.  The texts of errors of the language itself, of
`JSON.parse` and of `TextDecoder`, depend on the engine and have no text here. -/
inductive JsError where
  | jsonSyntax
  | utf8
  | notSerializable
  | notSerializableType (t : JsType)
  | loneSurrogate
  | nonFinite
  | notPlainObject
  | overflow
  | base64 (text : JsString)
  | metadataMustMap (key : JsString)
  | byteMustMap (key : JsString)
  | metadataRequires (key : JsString)

/-- The message of an error of the source. -/
def JsError.message : JsError → Option JsString
  | .jsonSyntax => none
  | .utf8 => none
  | .notSerializable => js "value is not JSON-serializable"
  | .notSerializableType t => some (js "value is not JSON-serializable: " ++ t.name)
  | .loneSurrogate =>
      js "canonical JSON cannot encode a string containing a lone surrogate (it has no UTF-8 encoding)"
  | .nonFinite =>
      js "canonical JSON cannot represent non-finite numbers (NaN/Infinity); use the fill_value string convention (\"NaN\", \"Infinity\", \"-Infinity\")"
  | .notPlainObject => js "value is not a plain JSON object"
  | .overflow => js "number literal overflows float64 (e.g. 1e400)"
  | .base64 text => some (js "invalid base64 string: " ++ jsonStringifyKey text)
  | .metadataMustMap key =>
      some (js "metadata key " ++ jsonStringifyKey key ++ js " must map to a JSON object")
  | .byteMustMap key =>
      some (js "byte key " ++ jsonStringifyKey key ++
        js " must map to a base64 string or a JSON array or object")
  | .metadataRequires key =>
      some (js "metadata key " ++ jsonStringifyKey key ++ js " requires a JSON object value")

end TypeScript
