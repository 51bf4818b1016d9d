import ZarrInline.Rules.Validity
import ZarrInline.Text.Words

/-!
# The rules over encoded keys

A host encodes the characters of a key one by one.  If the ASCII characters show in its units,
then the two rules say of the encoded key what they say of the key (`memberIssue_flatMap`).
-/

namespace Rules

open Text (MarksWord)

variable {χ χ' V V' : Type} {g : χ → List χ'} {ascii : Char → χ} {shown : Char → χ'} {key : List χ}

/-- The characters that the rules look for. -/
def ruleCharacters : List Char := ['/', 'z', 'a', 'r', '.', 'j', 's', 'o', 'n']

theorem ruleCharacters_lt : ∀ x ∈ ruleCharacters, x.toNat < 0x80 := by
  simp [ruleCharacters]

/-- They show in the units of the key. -/
def Shows (g : χ → List χ') (ascii : Char → χ) (shown : Char → χ') (key : List χ) : Prop :=
  MarksWord g ascii shown ruleCharacters key

theorem Shows.word (h : Shows g ascii shown key) (s : String) (hs : ∀ x ∈ s.toList, x ∈ ruleCharacters) :
    MarksWord g ascii shown s.toList key :=
  h.subset hs fun _ => id

theorem mem_ruleCharacters :
    (∀ x ∈ "/zarr.json".toList, x ∈ ruleCharacters) ∧ (∀ x ∈ "zarr.json".toList, x ∈ ruleCharacters) ∧
      (∀ x ∈ "/".toList, x ∈ ruleCharacters) ∧ (∀ x ∈ ".".toList, x ∈ ruleCharacters) ∧
        ∀ x ∈ "..".toList, x ∈ ruleCharacters := by
  simp [ruleCharacters]

theorem Shows.eq_nil_iff (h : Shows g ascii shown key) : key.flatMap g = [] ↔ key = [] :=
  Text.flatMap_eq_map_iff (h.subset (fun _ hx => absurd hx List.not_mem_nil) fun _ => id)

variable [DecidableEq χ] [DecidableEq χ']

theorem isMetadataKey_flatMap (h : Shows g ascii shown key) :
    isMetadataKey shown (key.flatMap g) = isMetadataKey ascii key := by
  obtain ⟨hsuffix, hname, -⟩ := mem_ruleCharacters
  have heq := Text.flatMap_eq_map_iff (h.word "zarr.json" hname)
  rw [isMetadataKey, isMetadataKey, word, word, word, word, Text.isSuffixOf_flatMap (h.word _ hsuffix),
    decide_eq_decide.2 heq]

theorem segmentMessage?_map {segs : List (List χ)} (h : ∀ seg ∈ segs, Shows g ascii shown seg) :
    segmentMessage? shown (segs.map fun seg => seg.flatMap g) = segmentMessage? ascii segs := by
  obtain ⟨-, -, -, hdot, hdots⟩ := mem_ruleCharacters
  induction segs with
  | nil => rfl
  | cons seg segs ih =>
      have hseg := h seg List.mem_cons_self
      have hdot' : seg.flatMap g = word shown "." ↔ seg = word ascii "." :=
        Text.flatMap_eq_map_iff (hseg.word "." hdot)
      have hdots' : seg.flatMap g = word shown ".." ↔ seg = word ascii ".." :=
        Text.flatMap_eq_map_iff (hseg.word ".." hdots)
      rw [List.map_cons, segmentMessage?, segmentMessage?, ih fun s hs => h s (List.mem_cons_of_mem _ hs)]
      exact if_congr hseg.eq_nil_iff rfl (if_congr (or_congr hdot' hdots') rfl rfl)

theorem keyMessage?_flatMap (h : Shows g ascii shown key) :
    keyMessage? shown (key.flatMap g) = keyMessage? ascii key := by
  have hslash := h.word "/" mem_ruleCharacters.2.2.1
  have hsplit : (key.flatMap g).splitOn (shown '/') = (key.splitOn (ascii '/')).map fun seg => seg.flatMap g :=
    Text.splitOn_flatMap fun c hc => (h c hc).2 '/' List.mem_cons_self
  have hshows : ∀ seg ∈ key.splitOn (ascii '/'), Shows g ascii shown seg := fun seg hseg =>
    h.subset (fun _ => id) fun c hc => Text.mem_of_mem_splitOn hseg hc
  rw [keyMessage?, keyMessage?, hsplit, segmentMessage?_map hshows]
  refine if_congr h.eq_nil_iff rfl (if_congr ?_ rfl rfl)
  have hprefix := Text.isPrefixOf_flatMap hslash
  have hsuffix := Text.isSuffixOf_flatMap hslash
  exact or_congr (Bool.eq_iff_iff.1 hprefix) (Bool.eq_iff_iff.1 hsuffix)

/-- A violation is a matter of the key and of the kind of the value. -/
theorem memberIssue_congr {kinds : Kinds V} {kinds' : Kinds V'} {value : V} {value' : V'}
    (hobject : kinds'.isObject value' = kinds.isObject value)
    (harray : kinds'.isArray value' = kinds.isArray value)
    (hstring : kinds'.isString value' = kinds.isString value) :
    memberIssue ascii kinds' key value' = memberIssue ascii kinds key value := by
  have hvalue : valueMessage? ascii kinds' key value' = valueMessage? ascii kinds key value := by
    rw [valueMessage?, valueMessage?, hobject, harray, hstring]
  rw [memberIssue, memberIssue, checkValueType, checkValueType, hvalue]

/-- The issue of an encoded member. -/
theorem memberIssue_flatMap (h : Shows g ascii shown key) {kinds : Kinds V} {kinds' : Kinds V'} {value : V}
    {value' : V'} (hobject : kinds'.isObject value' = kinds.isObject value)
    (harray : kinds'.isArray value' = kinds.isArray value)
    (hstring : kinds'.isString value' = kinds.isString value) :
    memberIssue shown kinds' (key.flatMap g) value'
      = (memberIssue ascii kinds key value).map fun issue => ⟨issue.rule, key.flatMap g, issue.message⟩ := by
  have hvalue : valueMessage? shown kinds' (key.flatMap g) value' = valueMessage? ascii kinds key value := by
    rw [valueMessage?, valueMessage?, isMetadataKey_flatMap h, hobject, harray, hstring]
  rw [memberIssue, memberIssue, checkKey, checkKey, checkValueType, checkValueType, keyMessage?_flatMap h,
    hvalue]
  cases keyMessage? ascii key with
  | some message => rfl
  | none => cases valueMessage? ascii kinds key value <;> rfl

end Rules
