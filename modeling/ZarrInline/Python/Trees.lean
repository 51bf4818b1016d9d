import ZarrInline.Python.FileBacking
import ZarrInline.Python.Portable
import ZarrInline.Rules.Codec

/-!
# The value codec of Python over trees

What the value codec of `document.py` makes of the trees that texts leave.  It decodes and
encodes as `Rules.decodeTree` and `Rules.encodeTree` do, for trees whose numbers `int` and
`_finite_float` read and which the interpreter can nest, and for payloads that are manageable.
-/

namespace Python

open Json (Tree WellFormed canonicalBytes canonicalRaw)
open Numeric (Text NumberToken)
open Rules (isContainer treeIssue decodeTree encodeTree inlineTree?)

variable {I : Interpreter} {t : Tree} {key : PyString} {data : Bytes} {v : PyValue}

/-- The value of a tree. -/
def ofTree (t : Tree) : PyValue := t.map id numberValue

/-- `int` and `_finite_float` read every number of a tree. -/
def ReadsTree (t : Tree) : Prop :=
  t.Every (fun _ => True) (fun n => acceptsNumber n = true) (fun _ => True)

instance : DecidablePred ReadsTree := fun t => inferInstanceAs (Decidable (t.Every _ _ _))

/-- The tree nests within the limits of the parser and of the writer. -/
structure Nests (I : Interpreter) (t : Tree) : Prop where
  scan : t.depth ≤ I.scanDepth
  frames : t.depth + max I.textFrames I.floatFrames < I.frames

theorem readsTree_read {raw : Json.Raw} (h : ReadsNumbers raw) : ReadsTree (Json.read raw) := by
  have hload : (Json.read raw).Every (fun _ => True) (fun n => acceptsNumber n = true)
      (Json.Ordered Json.noRank) :=
    Json.every_load h
  exact hload.imp (fun _ => id) (fun _ => id) fun _ _ => trivial

/-! ## Kinds -/

theorem isDict_ofTree : isDict (ofTree t) = t.isObj := by
  cases t with
  | num n =>
      rw [ofTree, Json.map_num, numberValue]
      split <;> rfl
  | _ => rfl

theorem isList_ofTree : isList (ofTree t) = Rules.isArray t := by
  cases t <;> rfl

theorem isStr_ofTree : isStr (ofTree t) = Rules.isString t := by
  cases t <;> rfl

/-- The violations are those of the tree. -/
theorem memberIssue_ofTree : Rules.memberIssue Char.toNat kinds key (ofTree t) = treeIssue key t :=
  Rules.memberIssue_congr isDict_ofTree isList_ofTree isStr_ofTree

/-! ## Decoding -/

theorem isPlain_ofTree (h : ReadsTree t) : IsPlain (ofTree t) := by
  rw [IsPlain, ofTree, Json.every_map]
  exact h.imp (fun _ => id) (fun _ => isPlain_numberValue) fun _ => id

theorem canonicalTree_ofTree : (canonicalTree (ofTree t)).text = Json.canonicalText t := by
  rw [canonicalTree, ofTree, Json.map_map, Json.canonicalText]
  show (t.map Json.canonicalItems fun n => atomToken (numberValue n)).text = _
  rw [funext atomToken_numberValue]

/-- A tree is written as its canonical bytes. -/
theorem dumpsBytes_ofTree (hwell : WellFormed t) (hreads : ReadsTree t) {r : ℕ}
    (hframes : t.depth + max I.textFrames I.floatFrames < r) :
    (do utf8Encode (← canonicalDumps I (ofTree t) r)) = Except.ok (canonicalBytes t) := by
  refine (dumpsBytes_eq_ok_iff (isPlain_ofTree hreads)).2 ⟨⟨?_, ?_⟩, ?_⟩
  · rw [ofTree, Json.every_map]
    exact hwell.imp (fun s hs c hc => (hs c hc).2) (fun _ _ => trivial) fun _ _ => trivial
  · have hneed := need_le (I := I) (ofTree t)
    rw [ofTree, Json.depth_map] at hneed
    exact hneed.trans hframes
  · rw [canonicalTree_ofTree]
    rfl

/-- What is stored as it stands is read as its canonical bytes. -/
theorem decodeValue_ofTree (hwell : WellFormed t) (hreads : ReadsTree t) (hnests : Nests I t)
    (hcont : isContainer t = true) (hobj : isMetadataKey key = true → t.isObj = true) :
    decodeValue I key (ofTree t) = .ok (canonicalBytes t) := by
  have hdumps := dumpsBytes_ofTree hwell hreads (hnests.frames.trans (Nat.lt_succ_self _))
  unfold decodeValue
  split
  · next hkey => rw [if_pos (isDict_ofTree.trans (hobj hkey)), hdumps]
  · have hkind : isList (ofTree t) = true ∨ isDict (ofTree t) = true := by
      rw [isList_ofTree, isDict_ofTree]
      exact Bool.or_eq_true_iff.1 hcont
    rw [if_pos hkind, hdumps]

theorem decodeValue_str {s : PyString} (hkey : isMetadataKey key = false) :
    decodeValue I key (.str s) = b64decode s := by
  simp only [decodeValue, hkey, isList, isDict, Bool.false_eq_true, if_false, or_self]

/-! ## Encoding -/

theorem acceptsNumber_canonicalToken {n : NumberToken} (h : acceptsNumber n = true) :
    acceptsNumber (Json.canonicalToken n) = true := by
  rw [← atomToken_numberValue]
  exact acceptsNumber_atomToken (isPlain_numberValue h)

/-- Canonical bytes are parsed to the canonical form of their tree. -/
theorem strictLoadsBytes_canonicalBytes (hwell : WellFormed t) (hreads : ReadsTree t)
    (hdepth : t.depth ≤ I.scanDepth) :
    strictLoadsBytes I (canonicalBytes t) = .ok (ofTree (Json.canonicalForm t)) := by
  have htext : IsText (canonicalBytes t) (Json.canonicalText t) (canonicalRaw t) :=
    (isText_of_utf8 (Json.decodeUtf8_canonicalBytes hwell) (Json.parse_canonicalText t)).2
  have hnumbers : ReadsNumbers (canonicalRaw t) := by
    rw [ReadsNumbers, canonicalRaw, Json.every_map]
    exact hreads.imp (fun _ => id) (fun _ => acceptsNumber_canonicalToken) fun _ => id
  refine (strictLoadsBytes_eq_ok_iff htext ?_).2 ⟨hnumbers, ?_⟩
  · rwa [Json.depth_canonicalRaw]
  · rw [ofRaw, Json.read_canonicalRaw hwell]
    rfl

theorem readsTree_canonicalForm (h : ReadsTree t) : ReadsTree (Json.canonicalForm t) := by
  rw [ReadsTree, Json.canonicalForm, Json.every_map]
  exact h.imp (fun _ => id) (fun _ => acceptsNumber_canonicalToken) fun _ => id

theorem Nests.canonicalForm (h : Nests I t) : Nests I (Json.canonicalForm t) := by
  obtain ⟨hscan, hframes⟩ := h
  rw [← Json.depth_canonicalForm t] at hscan hframes
  exact ⟨hscan, hframes⟩

/-- Canonical bytes of arrays and objects are inlined. -/
theorem tryInlineJson_canonicalBytes (hwell : WellFormed t) (hreads : ReadsTree t) (hnests : Nests I t)
    (hcont : isContainer t = true) :
    tryInlineJson I (canonicalBytes t) = .ok (some (ofTree (Json.canonicalForm t))) := by
  have hkind : isList (ofTree (Json.canonicalForm t)) = true ∨ isDict (ofTree (Json.canonicalForm t)) = true := by
    rw [isList_ofTree, isDict_ofTree]
    exact Bool.or_eq_true_iff.1 (Rules.isContainer_canonicalForm.trans hcont)
  have hdumps := dumpsBytes_ofTree (I := I) hwell.canonicalForm (readsTree_canonicalForm hreads)
    hnests.canonicalForm.frames
  rw [Json.canonicalBytes_canonicalForm hwell] at hdumps
  obtain ⟨text, htext, hbytes⟩ := Json.bind_eq_ok hdumps
  have hbody : inlineBody I (canonicalBytes t) = .ok (some (ofTree (Json.canonicalForm t))) := by
    simp only [inlineBody, strictLoadsBytes_canonicalBytes hwell hreads hnests.scan, bind, Except.bind,
      if_pos hkind, htext, hbytes, if_true]
    rfl
  rw [tryInlineJson, hbody]

/-- A value without floats that are out of range is the value of a tree. -/
theorem canonicalText_map_atomToken (h : IsPlain v) :
    Json.canonicalText (v.map id atomToken) = (canonicalTree v).text := by
  rw [Json.canonicalText, Json.map_map, canonicalTree]
  refine congrArg Json.text (Json.map_congr h (fun _ _ => rfl) fun a ha => ?_)
  cases a with
  | int i => exact Json.canonicalToken_ofInt i
  | float x => exact Json.canonicalToken_toToken ha
  | oddDict name => exact ha.elim
  | other type => exact ha.elim

theorem inRange_atomToken {a : PyAtom} (h : a.IsPlain) : Json.InRange (atomToken a) :=
  inRange_of_acceptsNumber (acceptsNumber_atomToken h)

/-- What is inlined has the payload for canonical bytes. -/
theorem exists_canonicalBytes_of_inlineBody (h : inlineBody I data = .ok (some v)) :
    ∃ t, WellFormed t ∧ isContainer t = true ∧ canonicalBytes t = data := by
  obtain ⟨hkind, hdumps, -, hplain, hbytes⟩ := inlineBody_eq_some h
  obtain ⟨text, hlt, hloads⟩ := strictLoadsBytes_eq_ok (strictLoadsBytes_of_inlineBody h)
  have hvalue : IsValue v := isValue_of_strictLoads hlt hloads
  have hwrite : (do utf8Encode (← canonicalDumps I v I.frames)) = Except.ok data := by
    rw [hdumps]
    exact hbytes
  obtain ⟨⟨hscalars, -⟩, hdata⟩ := (dumpsBytes_eq_ok_iff hplain).1 hwrite
  refine ⟨v.map id atomToken, ?_, ?_, ?_⟩
  · have hall := hvalue.and (hscalars.and hplain)
    rw [WellFormed, Json.every_map]
    refine hall.imp (fun s hs c hc => ⟨hs.1 c hc, hs.2.1 c hc⟩) (fun a ha => inRange_atomToken ha.2.2) ?_
    intro ks hks
    rw [List.map_id]
    exact hks.1
  · cases v with
    | arr xs => rfl
    | obj ms => rfl
    | num a =>
        have ha : a.IsPlain := (Json.every_num a).1 hplain
        cases a with
        | oddDict name => exact ha.elim
        | other type => exact ha.elim
        | int i => rcases hkind with hkind | hkind <;> cases hkind
        | float x => rcases hkind with hkind | hkind <;> cases hkind
    | _ => rcases hkind with hkind | hkind <;> cases hkind
  · rw [canonicalBytes, canonicalText_map_atomToken hplain, hdata]

/-! ## The codec -/

/-- A payload is stored as its tree: it is manageable, and what it is inlined as is read. -/
structure Inlines (I : Interpreter) (data : Bytes) : Prop where
  manageable : Manageable I data
  reads : ∀ u, inlineTree? data = some u → ReadsTree u ∧ Nests I u

/-- Canonical bytes are stored as the canonical form of their tree. -/
theorem encodeValue_canonicalBytes (hwell : WellFormed t) (hreads : ReadsTree t) (hnests : Nests I t)
    (hcont : isContainer t = true) (hobj : isMetadataKey key = true → t.isObj = true) :
    encodeValue I key (canonicalBytes t) = .ok (ofTree (encodeTree (canonicalBytes t))) := by
  rw [Rules.encodeTree_canonicalBytes hwell hcont]
  cases hkey : isMetadataKey key with
  | true =>
      have hdict : isDict (ofTree (Json.canonicalForm t)) = true :=
        isDict_ofTree.trans (Rules.isObj_canonicalForm.trans (hobj hkey))
      exact (encodeValue_metadata_eq_ok hkey).2
        ⟨strictLoadsBytes_canonicalBytes hwell hreads hnests.scan, hdict⟩
  | false =>
      simp only [encodeValue, hkey, Bool.false_eq_true, if_false,
        tryInlineJson_canonicalBytes hwell hreads hnests hcont]
      rfl

/-- At a byte key, payloads are stored as their trees. -/
theorem encodeValue_eq_ofTree (hkey : isMetadataKey key = false) (h : Inlines I data) :
    encodeValue I key data = .ok (ofTree (encodeTree data)) := by
  cases hinline : inlineTree? data with
  | some u =>
      obtain ⟨hwell, hcont, rfl⟩ := Rules.inlineTree?_eq_some hinline
      obtain ⟨hreads, hnests⟩ := h.reads u hinline
      exact encodeValue_canonicalBytes hwell hreads hnests hcont fun hmeta => by rw [hkey] at hmeta; cases hmeta
  | none =>
      have hrecursion := inlineBody_eq_recursion_iff.not.2 (not_not.2 h.manageable)
      have hnone : tryInlineJson I data = .ok none := by
        unfold tryInlineJson
        cases hbody : inlineBody I data with
        | error e =>
            cases e with
            | value e => rfl
            | recursion => exact absurd hbody hrecursion
        | ok inlined =>
            cases inlined with
            | none => rfl
            | some v =>
                obtain ⟨t, hwell, hcont, rfl⟩ := exists_canonicalBytes_of_inlineBody hbody
                rw [Rules.inlineTree?_canonicalBytes hwell hcont] at hinline
                cases hinline
      rw [Rules.encodeTree_of_none hinline]
      simp only [encodeValue, hkey, Bool.false_eq_true, if_false, hnone]
      rfl

end Python
