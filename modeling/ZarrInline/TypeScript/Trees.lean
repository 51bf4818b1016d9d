import ZarrInline.Rules.Codec
import ZarrInline.TypeScript.Portable
import ZarrInline.TypeScript.Validator

/-!
# The value codec of TypeScript over trees

What the value codec of `document.ts` makes of the trees that texts leave.  It decodes and
encodes as `Rules.decodeTree` and `Rules.encodeTree` do, for trees without names that are array
indices.
-/

namespace TypeScript

open Json (Tree WellFormed canonicalRaw)
open Numeric (Text Double NumberToken)
open Rules (isContainer treeIssue decodeTree encodeTree inlineTree?)

variable {t : Tree} {key : JsString} {data : Bytes} {v : JsValue}

/-- The atom of a number in range. -/
def numberAtom (n : NumberToken) : JsAtom :=
  if ¬ (Double.ofToken n).IsSafeInteger ∧ n.IsInteger then .bigint n.intValue
  else .number (Double.ofToken n)

/-- The value of a tree. -/
def ofTree (t : Tree) : JsValue := t.map Unicode.encodeUtf16 numberAtom

/-- No member name of a tree is an array index. -/
def NamesTree (t : Tree) : Prop :=
  t.Every (fun _ => True) (fun _ => True) fun ks => ∀ k ∈ ks, arrayIndex? (Unicode.encodeUtf16 k) = none

instance : DecidablePred NamesTree := fun t => inferInstanceAs (Decidable (t.Every _ _ _))

theorem ofTree_obj (ms : List (Text × Tree)) :
    ofTree (.obj ms) = .obj (ms.map fun m => (Unicode.encodeUtf16 m.1, ofTree m.2)) :=
  Json.map_obj ..

/-! ## Parsing -/

theorem eq_numberAtom {n : NumberToken} {a : JsAtom} (h : revive {} n = .ok a) : a = numberAtom n := by
  simp only [revive, Bool.false_eq_true, false_or] at h
  rw [numberAtom]
  split_ifs at h ⊢
  · exact (Except.ok.inj h).symm
  · exact (Except.ok.inj h).symm

/-- What the reviver makes of a tree with its numbers in range. -/
theorem traverse_revive (h : t.HasNumbers) :
    (t.map Unicode.encodeUtf16 id).traverse (revive {}) = .ok (ofTree t) := by
  have hok : Json.IsOk ((t.map Unicode.encodeUtf16 id).traverse (revive {})) := by
    refine Json.isOk_traverse.2 ((Json.hasNumbers_map.2 h).imp (fun _ => id) ?_ fun _ => id)
    intro n hn
    exact (isOk_revive n).2 hn
  obtain ⟨w, hw⟩ := Json.isOk_iff.1 hok
  have hmap : w.map id id = (t.map Unicode.encodeUtf16 id).map id numberAtom :=
    Json.map_traverse (fun _ _ hn => eq_numberAtom hn) hw
  have hall : w.Every (fun _ => True) (fun _ => True) (fun _ => True) :=
    Json.every_of_forall (fun _ => trivial) (fun _ => trivial) (fun _ => trivial) w
  have hself : w.map id id = w := Json.map_eq_self hall (fun _ _ => rfl) fun _ _ => rfl
  rw [hself, Json.map_map] at hmap
  rw [hw, hmap]
  rfl

theorem strictParse_eq_ofTree {text : JsString} {raw : Json.Raw}
    (hparse : Json.parse .none (Unicode.codePoints text) = .ok raw) (hnames : NoIndexNames raw)
    (hscalars : Json.HasScalars raw) (hnumbers : (Json.read raw).HasNumbers) :
    strictParse text = .ok (ofTree (Json.read raw)) := by
  rw [strictParse_eq_traverse hparse hnames hscalars, traverse_revive hnumbers]

/-- Canonical text is parsed to the canonical form of its tree. -/
theorem strictParse_canonicalText (hwell : WellFormed t) (hnames : NamesTree t) :
    strictParse (Unicode.encodeUtf16 (Json.canonicalText t)) = .ok (ofTree (Json.canonicalForm t)) := by
  have hnames' : NoIndexNames (canonicalRaw t) := by
    rw [NoIndexNames, canonicalRaw, Json.every_map]
    refine hnames.imp (fun _ => id) (fun _ => id) fun ks hks k hk => ?_
    obtain ⟨s, hs, rfl⟩ := List.mem_map.1 hk
    rw [stringValue_eq, Json.unescape_canonicalItems]
    exact hks s hs
  have hparse : Json.parse .none (Unicode.codePoints (Unicode.encodeUtf16 (Json.canonicalText t)))
      = .ok (canonicalRaw t) := by
    rw [Unicode.codePoints_encodeUtf16 (Json.isScalar_canonicalText hwell), Json.parse_canonicalText]
  have hread := Json.read_canonicalRaw hwell
  rw [strictParse_eq_ofTree hparse hnames' (Json.hasScalars_canonicalRaw hwell), hread]
  rw [hread]
  exact hwell.canonicalForm.hasNumbers

/-! ## Kinds -/

theorem isObject_ofTree : isObject (ofTree t) = t.isObj := by
  cases t with
  | num n =>
      rw [ofTree, Json.map_num, numberAtom]
      split <;> rfl
  | _ => rfl

theorem isPlainObject_ofTree : isPlainObject (ofTree t) = t.isObj := by
  cases t with
  | num n =>
      rw [ofTree, Json.map_num, numberAtom]
      split <;> rfl
  | _ => rfl

theorem isArray_ofTree : isArray (ofTree t) = Rules.isArray t := by
  cases t <;> rfl

theorem isString_ofTree : isString (ofTree t) = Rules.isString t := by
  cases t <;> rfl

/-! ## Decoding -/

theorem atomToken_numberAtom {n : NumberToken} (h : Json.InRange n) :
    atomToken (numberAtom n) = Json.canonicalToken n := by
  obtain ⟨a, ha⟩ := Json.isOk_iff.1 ((isOk_revive n).2 h)
  rw [← eq_numberAtom ha, atomToken_revive ha]

theorem isCanonical_numberAtom {n : NumberToken} (h : Json.InRange n) : (numberAtom n).IsCanonical := by
  obtain ⟨a, ha⟩ := Json.isOk_iff.1 ((isOk_revive n).2 h)
  rw [← eq_numberAtom ha]
  exact isCanonical_revive ha

/-- A tree is written as its canonical text. -/
theorem canonicalStringify_ofTree (h : WellFormed t) :
    canonicalStringify (ofTree t) = .ok (Unicode.encodeUtf16 (Json.canonicalText t)) := by
  refine canonicalStringify_eq_ok_iff.2 ⟨?_, ?_⟩
  · rw [ofTree, Json.every_map]
    exact h.imp (fun _ hs => Unicode.isWellFormed_encodeUtf16 hs) (fun _ => isCanonical_numberAtom)
      fun _ _ => trivial
  · rw [canonicalTree, ofTree, Json.map_map, Json.canonicalText]
    refine congrArg (fun v => Unicode.encodeUtf16 (Json.text v)) (Json.map_congr h (fun s hs => ?_) ?_)
    · rw [Unicode.codePoints_encodeUtf16 hs]
    · intro n hn
      exact (atomToken_numberAtom hn).symm

theorem utf8Encode_canonicalText (h : WellFormed t) :
    utf8Encode (Unicode.encodeUtf16 (Json.canonicalText t)) = Json.canonicalBytes t := by
  have hscalars := Json.isScalar_canonicalText h
  rw [utf8Encode_of_isWellFormed (Unicode.isWellFormed_encodeUtf16 hscalars),
    Unicode.codePoints_encodeUtf16 hscalars]
  rfl

/-- What is stored as it stands is read as its canonical bytes. -/
theorem decodeValue_ofTree (hwell : WellFormed t) (hcont : isContainer t = true)
    (hobj : isMetadataKey key = true → t.isObj = true) :
    decodeValue key (ofTree t) = .ok (Json.canonicalBytes t) := by
  have hbytes : (canonicalStringify (ofTree t)).map utf8Encode = .ok (Json.canonicalBytes t) := by
    rw [canonicalStringify_ofTree hwell]
    exact congrArg Except.ok (utf8Encode_canonicalText hwell)
  unfold decodeValue
  split
  · next hkey => rw [if_pos (isPlainObject_ofTree.trans (hobj hkey)), hbytes]
  · have hkind : isArray (ofTree t) = true ∨ isPlainObject (ofTree t) = true := by
      rw [isArray_ofTree, isPlainObject_ofTree]
      exact Bool.or_eq_true_iff.1 hcont
    rw [if_pos hkind, hbytes]

/-- Base64 is ASCII, and shows in code units as it is. -/
theorem decode_encodeUtf16 {s : Text} (h : ∀ c ∈ s, Unicode.IsScalar c) :
    Base64.decode ((Unicode.encodeUtf16 s).map UInt16.toNat) = Base64.decode s := by
  have hsame : (∀ c ∈ (Unicode.encodeUtf16 s).map UInt16.toNat, c < 128) →
      (Unicode.encodeUtf16 s).map UInt16.toNat = s := by
    intro hunits
    have hcodes := Unicode.codePoints_map_ofNat fun c hc => (hunits c hc).trans (by norm_num)
    have hself : ((Unicode.encodeUtf16 s).map UInt16.toNat).map UInt16.ofNat = Unicode.encodeUtf16 s := by
      rw [List.map_map]
      exact (List.map_congr_left fun u _ => UInt16.ofNat_toNat).trans (List.map_id _)
    rw [hself, Unicode.codePoints_encodeUtf16 h] at hcodes
    exact hcodes.symm
  refine Option.ext fun bytes => ⟨fun hdecode => ?_, fun hdecode => ?_⟩
  · rwa [hsame (Base64.lt_of_decode hdecode)] at hdecode
  · have hs := Base64.lt_of_decode hdecode
    have hunits : Unicode.encodeUtf16 s = s.map UInt16.ofNat :=
      encodeUtf16_of_lt fun c hc => (hs c hc).trans (by norm_num)
    rwa [hsame]
    intro c hc
    rw [hunits, List.map_map] at hc
    obtain ⟨d, hd, rfl⟩ := List.mem_map.1 hc
    have hlt := hs d hd
    rwa [Function.comp_apply, UInt16.toNat_ofNat_of_lt' (hlt.trans (by norm_num))]

theorem decodeValue_str {s : Text} (hkey : isMetadataKey key = false)
    (hs : ∀ c ∈ s, Unicode.IsScalar c) :
    (decodeValue key (.str (Unicode.encodeUtf16 s))).toOption = Base64.decode s := by
  simp only [decodeValue, hkey, isArray, isPlainObject, Bool.false_eq_true, if_false, or_self]
  rw [base64Decode, decode_encodeUtf16 hs]
  cases Base64.decode s <;> rfl

/-! ## Encoding -/

/-- Canonical bytes of arrays and objects are inlined. -/
theorem tryInlineJson_canonicalBytes (hwell : WellFormed t) (hnames : NamesTree t)
    (hcont : isContainer t = true) :
    tryInlineJson (Json.canonicalBytes t) = some (ofTree (Json.canonicalForm t)) := by
  have hkind : isArray (ofTree (Json.canonicalForm t)) = true ∨
      isPlainObject (ofTree (Json.canonicalForm t)) = true := by
    rw [isArray_ofTree, isPlainObject_ofTree]
    exact Bool.or_eq_true_iff.1 (Rules.isContainer_canonicalForm.trans hcont)
  have hbytes : utf8Encode (Unicode.encodeUtf16 (Json.canonicalText (Json.canonicalForm t)))
      = Json.canonicalBytes t := by
    rw [utf8Encode_canonicalText hwell.canonicalForm, Json.canonicalBytes_canonicalForm hwell]
  simp only [tryInlineJson, utf8Decode, Json.decodeUtf8_canonicalBytes hwell,
    strictParse_canonicalText hwell hnames, if_pos hkind,
    canonicalStringify_ofTree hwell.canonicalForm, hbytes, if_true]

/-- A value without atoms that JSON cannot represent is written as the text of a tree. -/
theorem canonicalText_map_atomToken (h : v.Every Unicode.IsWellFormed JsAtom.IsCanonical fun _ => True) :
    Json.canonicalText (v.map Unicode.codePoints atomToken) = (canonicalTree v).text := by
  rw [Json.canonicalText, Json.map_map, canonicalTree]
  refine congrArg Json.text (Json.map_congr h (fun _ _ => rfl) fun a ha => ?_)
  cases a with
  | number x => exact Json.canonicalToken_toToken ha
  | bigint i => exact Json.canonicalToken_ofInt i
  | _ => exact ha.elim

theorem inRange_atomToken {a : JsAtom} (h : a.IsCanonical) : Json.InRange (atomToken a) := by
  cases a with
  | number x =>
      have hx : x.IsFinite := h
      rw [atomToken, Json.InRange, Double.ofToken_toToken hx]
      exact Or.inr (Double.isFinite_dropNegZero.2 hx)
  | bigint i => exact Or.inl (NumberToken.isInteger_ofInt i)
  | _ => exact h.elim

/-- What is inlined has the payload for canonical bytes. -/
theorem exists_canonicalBytes_of_tryInlineJson (h : tryInlineJson data = some v) :
    ∃ t, WellFormed t ∧ isContainer t = true ∧ Json.canonicalBytes t = data := by
  obtain ⟨hcont, hjson, s, hs, rfl⟩ := tryInlineJson_sound h
  have hwritten := (canonicalStringify_eq_ok_iff.1 hs).1
  refine ⟨v.map Unicode.codePoints atomToken, ?_, ?_, ?_⟩
  · rw [WellFormed, Json.every_map]
    refine hjson.imp (fun s hs => Unicode.codePoints_isScalar hs) (fun _ => inRange_atomToken) ?_
    intro ks hks
    refine Json.ordered_noRank_map hks fun k _ l _ heq => ?_
    have hunits := congrArg Unicode.encodeUtf16 heq
    rwa [Unicode.encodeUtf16_codePoints, Unicode.encodeUtf16_codePoints] at hunits
  · cases v with
    | arr xs => rfl
    | obj ms => rfl
    | _ => exact hcont.elim
  · rw [Json.canonicalBytes, canonicalText_map_atomToken hwritten,
      utf8Encode_of_isWellFormed (isWellFormed_canonicalStringify hs), (canonicalStringify_eq_ok_iff.1 hs).2,
      Unicode.codePoints_encodeUtf16 (isScalar_canonicalTree hwritten)]

/-! ## The codec -/

/-- Canonical bytes are stored as the canonical form of their tree. -/
theorem encodeValue_canonicalBytes (hwell : WellFormed t) (hnames : NamesTree t)
    (hcont : isContainer t = true) (hobj : isMetadataKey key = true → t.isObj = true) :
    encodeValue key (Json.canonicalBytes t) = .ok (ofTree (encodeTree (Json.canonicalBytes t))) := by
  rw [Rules.encodeTree_canonicalBytes hwell hcont]
  cases hkey : isMetadataKey key with
  | true =>
      refine (encodeValue_metadata_eq_ok hkey).2 ⟨_, ?_, strictParse_canonicalText hwell hnames, ?_⟩
      · rw [utf8Decode, Json.decodeUtf8_canonicalBytes hwell]
      · exact isPlainObject_ofTree.trans (Rules.isObj_canonicalForm.trans (hobj hkey))
  | false => exact (encodeValue_of_some hkey (tryInlineJson_canonicalBytes hwell hnames hcont)).1

/-- At a byte key, payloads are stored as their trees. -/
theorem encodeValue_eq_ofTree (hkey : isMetadataKey key = false)
    (h : ∀ u, inlineTree? data = some u → NamesTree u) :
    encodeValue key data = .ok (ofTree (encodeTree data)) := by
  cases hinline : inlineTree? data with
  | some u =>
      obtain ⟨hwell, hcont, rfl⟩ := Rules.inlineTree?_eq_some hinline
      refine encodeValue_canonicalBytes hwell (h u hinline) hcont fun hmeta => ?_
      rw [hkey] at hmeta
      cases hmeta
  | none =>
      have hnone : tryInlineJson data = none := by
        cases htry : tryInlineJson data with
        | none => rfl
        | some v =>
            obtain ⟨t, hwell, hcont, rfl⟩ := exists_canonicalBytes_of_tryInlineJson htry
            rw [Rules.inlineTree?_canonicalBytes hwell hcont] at hinline
            cases hinline
      have hlt : ∀ c ∈ Base64.encode data, c < 0x10000 := fun c hc =>
        (Base64.encode_lt data c hc).trans (by norm_num)
      rw [Rules.encodeTree_of_none hinline, (encodeValue_of_none hkey hnone).1, base64Encode, ofTree,
        Json.map_str, encodeUtf16_of_lt hlt]

end TypeScript
