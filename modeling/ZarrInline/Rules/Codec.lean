import ZarrInline.Json.Canonical
import ZarrInline.Rules.Encoding
import ZarrInline.Text.Base64

/-!
# The value codec over trees

What a store entry is, told over trees and without a host: metadata is an object, read as its
canonical bytes; at another key stands base64 text, or an array or object that is read as its
canonical bytes.  Bytes are stored as the array or object whose canonical bytes they are, if
there is one (`inlineTree?`), and else as base64.

Reading and storing again puts a member in canonical form and loses no byte (`decodeTree_encodeTree`).
-/

namespace Rules

open Json (Tree WellFormed canonicalForm canonicalBytes canonicalRaw)
open Numeric (Text)

/-- An array. -/
def isArray : Tree → Bool
  | .arr _ => true
  | _ => false

/-- A string. -/
def isString : Tree → Bool
  | .str _ => true
  | _ => false

/-- The kinds of tree. -/
def treeKinds : Kinds Tree := ⟨Json.isObj, isArray, isString⟩

/-- What is stored as it stands: an array or an object. -/
def isContainer (t : Tree) : Bool := isArray t || t.isObj

/-- The violation by a member. -/
def treeIssue (key : Text) (t : Tree) : Option (ValidationIssue ℕ) :=
  memberIssue Char.toNat treeKinds key t

/-- The bytes of a member. -/
def decodeTree (key : Text) (t : Tree) : Option (List UInt8) :=
  if isMetadataKey Char.toNat key then if t.isObj then some (canonicalBytes t) else none
  else if isContainer t then some (canonicalBytes t)
  else
    match t with
    | .str s => Base64.decode s
    | _ => none

/-- The tree that bytes are the canonical bytes of, if they are those of an array or object. -/
def inlineTree? (data : List UInt8) : Option Tree :=
  (Unicode.decodeUtf8 false data).bind fun text =>
    (Json.parse .none text).toOption.bind fun raw =>
      if isContainer (Json.read raw) ∧ WellFormed (Json.read raw) ∧
          canonicalBytes (Json.read raw) = data then some (Json.read raw)
      else none

/-- What bytes are stored as. -/
def encodeTree (data : List UInt8) : Tree := (inlineTree? data).getD (.str (Base64.encode data))

variable {t u : Tree} {key : Text} {data : List UInt8}

theorem isContainer_of_isObj (h : t.isObj = true) : isContainer t = true := by
  rw [isContainer, h, Bool.or_true]

theorem isContainer_map {f : Text → Text} {g : Numeric.NumberToken → Numeric.NumberToken} :
    isContainer (t.map f g) = isContainer t := by
  cases t <;> simp [isContainer, isArray, Json.isObj]

theorem isContainer_canonicalForm : isContainer (canonicalForm t) = isContainer t := isContainer_map

theorem isObj_canonicalForm : (canonicalForm t).isObj = t.isObj := Json.isObj_map id Json.canonicalToken t

/-! ## Inlining -/

/-- The canonical bytes of an array or object are inlined, in canonical form. -/
theorem inlineTree?_canonicalBytes (h : WellFormed t) (hcont : isContainer t = true) :
    inlineTree? (canonicalBytes t) = some (canonicalForm t) := by
  rw [inlineTree?, Json.decodeUtf8_canonicalBytes h, Option.bind_some, Json.parse_canonicalText]
  show (if _ then some _ else none) = _
  rw [Json.read_canonicalRaw h, if_pos]
  exact ⟨isContainer_canonicalForm.trans hcont, h.canonicalForm, Json.canonicalBytes_canonicalForm h⟩

/-- What is inlined is an array or object with the bytes for canonical bytes. -/
theorem inlineTree?_eq_some (h : inlineTree? data = some u) :
    WellFormed u ∧ isContainer u = true ∧ canonicalBytes u = data := by
  obtain ⟨text, -, h⟩ := Option.bind_eq_some_iff.1 h
  obtain ⟨raw, -, h⟩ := Option.bind_eq_some_iff.1 h
  split_ifs at h with hinline
  cases h
  exact ⟨hinline.2.1, hinline.1, hinline.2.2⟩

theorem encodeTree_canonicalBytes (h : WellFormed t) (hcont : isContainer t = true) :
    encodeTree (canonicalBytes t) = canonicalForm t := by
  rw [encodeTree, inlineTree?_canonicalBytes h hcont]
  rfl

theorem encodeTree_of_none (h : inlineTree? data = none) :
    encodeTree data = .str (Base64.encode data) := by
  rw [encodeTree, h]
  rfl

theorem encodeTree_of_some (h : inlineTree? data = some u) : encodeTree data = u := by
  rw [encodeTree, h]
  rfl

/-! ## Members without a violation -/

/-- A member without a violation is metadata, an array or object, or a string. -/
theorem kind_of_treeIssue (h : treeIssue key t = none) :
    (isContainer t = true ∧ (isMetadataKey Char.toNat key = true → t.isObj = true)) ∨
      (isMetadataKey Char.toNat key = false ∧ ∃ s, t = .str s) := by
  obtain ⟨-, hvalue⟩ := memberIssue_eq_none_iff.1 h
  cases hkey : isMetadataKey Char.toNat key with
  | true =>
      have hobj : t.isObj = true := (valueMessage?_metadata hkey).1 hvalue
      exact Or.inl ⟨isContainer_of_isObj hobj, fun _ => hobj⟩
  | false =>
      have hkind := (valueMessage?_byteKey hkey).1 hvalue
      cases t with
      | str s => exact Or.inr ⟨rfl, s, rfl⟩
      | arr xs => exact Or.inl ⟨rfl, fun h => by cases h⟩
      | obj ms => exact Or.inl ⟨rfl, fun _ => rfl⟩
      | _ => cases hkind

theorem decodeTree_of_isContainer (hcont : isContainer t = true)
    (hobj : isMetadataKey Char.toNat key = true → t.isObj = true) :
    decodeTree key t = some (canonicalBytes t) := by
  unfold decodeTree
  split
  · next hkey => rw [if_pos (hobj hkey)]
  · rfl

theorem decodeTree_str {s : Text} (hkey : isMetadataKey Char.toNat key = false) :
    decodeTree key (.str s) = Base64.decode s := by
  simp only [decodeTree, hkey, Bool.false_eq_true, if_false]
  rfl

/-- Bytes survive being stored, at a byte key whatever they are. -/
theorem decodeTree_encodeTree (hkey : isMetadataKey Char.toNat key = false) (data : List UInt8) :
    decodeTree key (encodeTree data) = some data := by
  cases h : inlineTree? data with
  | some u =>
      obtain ⟨-, hcont, rfl⟩ := inlineTree?_eq_some h
      rw [encodeTree_of_some h, decodeTree_of_isContainer hcont fun hmeta => by rw [hkey] at hmeta; cases hmeta]
  | none =>
      rw [encodeTree_of_none h, decodeTree_str hkey, Base64.decode_encode]

end Rules
