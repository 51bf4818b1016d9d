import ZarrInline.Json.Members

/-!
# Keys and the validity rules

The three implementations check keys and documents by the same two rules, each in its own
string and value types.  The rules are stated here over a type `χ` of characters, with
`ascii` for the characters of an ASCII literal, and over a type `V` of values of which
only the kind matters.

R1 is a condition on a key, R2 on the kind of the value at a key.  A key that breaks R1 is
not looked at further, so a document has at most one issue for a key.
-/

namespace Rules

variable {χ V : Type} [DecidableEq χ]

/-- The characters of an ASCII literal. -/
def word (ascii : Char → χ) (s : String) : List χ := s.toList.map ascii

/-- The key names a metadata document: `zarr.json`, or a last segment `zarr.json`. -/
def isMetadataKey (ascii : Char → χ) (key : List χ) : Bool :=
  key = word ascii "zarr.json" || (word ascii "/zarr.json").isSuffixOf key

/-! ## R1 -/

/-- What is wrong with the first segment that is not well formed. -/
def segmentMessage? (ascii : Char → χ) : List (List χ) → Option String
  | [] => none
  | seg :: segs =>
      if seg = [] then some "key must not have empty segments"
      else if seg = word ascii "." ∨ seg = word ascii ".." then
        some "key must not have '.' or '..' segments"
      else segmentMessage? ascii segs

/-- What is wrong with a key.  The empty key is well formed. -/
def keyMessage? (ascii : Char → χ) (key : List χ) : Option String :=
  if key = [] then none
  else if (word ascii "/").isPrefixOf key ∨ (word ascii "/").isSuffixOf key then
    some "key must not have a leading or trailing '/'"
  else segmentMessage? ascii (key.splitOn (ascii '/'))

theorem nil_notMem_of_segmentMessage? {ascii : Char → χ} {segs : List (List χ)}
    (h : segmentMessage? ascii segs = none) : [] ∉ segs := by
  induction segs with
  | nil => exact List.not_mem_nil
  | cons seg segs ih =>
      rw [segmentMessage?] at h
      split_ifs at h with hempty
      rw [List.mem_cons]
      rintro (hseg | hseg)
      · exact hempty hseg.symm
      · exact ih h hseg

/-! ## R2 -/

/-- The kinds of value that R2 tells apart. -/
structure Kinds (V : Type) where
  isObject : V → Bool
  isArray : V → Bool
  isString : V → Bool

/-- What is wrong with the value at a key. -/
def valueMessage? (ascii : Char → χ) (kinds : Kinds V) (key : List χ) (value : V) : Option String :=
  if isMetadataKey ascii key then
    if kinds.isObject value then none else some "metadata key must map to a JSON object"
  else if kinds.isString value || kinds.isArray value || kinds.isObject value then none
  else some "byte key must map to a base64 string or a JSON array or object"

/-! ## Documents -/

/-- The rules. -/
inductive Rule where
  | R1
  | R2
deriving DecidableEq

/-- The name of a rule. -/
def Rule.name : Rule → String
  | .R1 => "R1"
  | .R2 => "R2"

/-- A violation of a rule. -/
structure ValidationIssue (χ : Type) where
  rule : Rule
  key : List χ
  message : String
deriving DecidableEq

/-- The violation of R1 by a key. -/
def checkKey (ascii : Char → χ) (key : List χ) : Option (ValidationIssue χ) :=
  (keyMessage? ascii key).map fun message => ⟨.R1, key, message⟩

/-- The violation of R2 by a member. -/
def checkValueType (ascii : Char → χ) (kinds : Kinds V) (key : List χ) (value : V) :
    Option (ValidationIssue χ) :=
  (valueMessage? ascii kinds key value).map fun message => ⟨.R2, key, message⟩

/-- The violation by a member: R1 takes precedence. -/
def memberIssue (ascii : Char → χ) (kinds : Kinds V) (key : List χ) (value : V) :
    Option (ValidationIssue χ) :=
  match checkKey ascii key with
  | some issue => some issue
  | none => checkValueType ascii kinds key value

/-- The violations in a document, in its order. -/
def validate {rank : List χ → Option ℕ} (ascii : Char → χ) (kinds : Kinds V)
    (document : Json.Members rank V) : List (ValidationIssue χ) :=
  document.entries.filterMap fun m => memberIssue ascii kinds m.1 m.2

section

variable {ascii : Char → χ} {kinds : Kinds V} {rank : List χ → Option ℕ} {key : List χ}

/-- A violation names the key it is about. -/
theorem key_memberIssue {value : V} {issue : ValidationIssue χ}
    (h : memberIssue ascii kinds key value = some issue) : issue.key = key := by
  unfold memberIssue at h
  split at h
  · next i hi =>
      cases h
      obtain ⟨message, -, rfl⟩ := Option.map_eq_some_iff.1 hi
      rfl
  · obtain ⟨message, -, rfl⟩ := Option.map_eq_some_iff.1 h
    rfl

/-- A member has no violation if and only if its key and its value have none. -/
theorem memberIssue_eq_none_iff {value : V} : memberIssue ascii kinds key value = none ↔
    checkKey ascii key = none ∧ valueMessage? ascii kinds key value = none := by
  rw [memberIssue]
  cases checkKey ascii key with
  | some issue => simp
  | none => simp [checkValueType]

theorem valueMessage?_metadata {value : V} (hkey : isMetadataKey ascii key = true) :
    valueMessage? ascii kinds key value = none ↔ kinds.isObject value = true := by
  rw [valueMessage?, if_pos hkey]
  cases kinds.isObject value <;> simp

theorem valueMessage?_byteKey {value : V} (hkey : isMetadataKey ascii key = false) :
    valueMessage? ascii kinds key value = none ↔
      (kinds.isString value || kinds.isArray value || kinds.isObject value) = true := by
  rw [valueMessage?, if_neg (by simp [hkey])]
  cases kinds.isString value || kinds.isArray value || kinds.isObject value <;> simp

/-- The keys with a violation, in the order of the document. -/
theorem keys_validate {document : Json.Members rank V} :
    (validate ascii kinds document).map ValidationIssue.key
      = (document.entries.filter fun m => (memberIssue ascii kinds m.1 m.2).isSome).map Prod.fst := by
  rw [validate]
  induction document.entries with
  | nil => rfl
  | cons m ms ih =>
      rw [List.filterMap_cons, List.filter_cons]
      cases hissue : memberIssue ascii kinds m.1 m.2 with
      | none => exact ih
      | some issue =>
          show issue.key :: _ = m.1 :: _
          rw [key_memberIssue hissue]
          exact congrArg _ ih

/-- A key has a violation if and only if the member there has one. -/
theorem mem_keys_validate {document : Json.Members rank V} :
    key ∈ (validate ascii kinds document).map ValidationIssue.key ↔
      ∃ value, document.get key = some value ∧ (memberIssue ascii kinds key value).isSome := by
  unfold validate
  constructor
  · intro h
    obtain ⟨issue, hissue, rfl⟩ := List.mem_map.1 h
    obtain ⟨m, hm, hmi⟩ := List.mem_filterMap.1 hissue
    rw [key_memberIssue hmi]
    exact ⟨m.2, Json.Members.get_of_mem hm, by rw [hmi]; rfl⟩
  · rintro ⟨value, hvalue, hsome⟩
    obtain ⟨issue, hissue⟩ := Option.isSome_iff_exists.1 hsome
    rw [List.mem_map]
    exact ⟨issue, List.mem_filterMap.2 ⟨(key, value), Json.mem_of_lookup hvalue, hissue⟩,
      key_memberIssue hissue⟩

/-- A document is valid if and only if every member is. -/
theorem validate_eq_nil_iff {document : Json.Members rank V} :
    validate ascii kinds document = [] ↔
      ∀ key value, document.get key = some value → memberIssue ascii kinds key value = none := by
  constructor
  · intro h key value hvalue
    by_contra hne
    have hmem := mem_keys_validate.2 ⟨value, hvalue, Option.isSome_iff_ne_none.2 hne⟩
    rw [h] at hmem
    cases hmem
  · intro h
    refine List.filterMap_eq_nil_iff.2 fun m hm => ?_
    exact h m.1 m.2 (Json.Members.get_of_mem hm)

end

end Rules
