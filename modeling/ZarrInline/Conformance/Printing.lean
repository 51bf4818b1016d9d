import ZarrInline.Conformance.Acceptance
import ZarrInline.Conformance.Harnesses

/-!
# What the three harnesses print

Each of the three harnesses reads the text of a portable document, makes its report and prints
it.  TypeScript and Rust print the canonical bytes of the report.  Python prints it in the order
of its dicts and with the numbers of `repr`, and what it prints is read as a tree with the same
canonical bytes (`harnesses_print_alike`).
-/

namespace Conformance

open Json (Tree Raw WellFormed canonicalBytes)
open Numeric (Text NumberToken)
open Python (Interpreter ReadsNumbers)
open Rust (Crates)
open TypeScript (NoIndexNames)

/-! ## Portable texts -/

/-- A parsed text that the three read alike. -/
structure IsPortableText (raw : Raw) : Prop where
  scalars : Json.HasScalars raw
  numbers : ReadsNumbers raw
  names : NoIndexNames raw
  depth_le : raw.depth ≤ 100

instance : DecidablePred IsPortableText := fun raw =>
  decidable_of_iff (Json.HasScalars raw ∧ ReadsNumbers raw ∧ NoIndexNames raw ∧ raw.depth ≤ 100)
    ⟨fun h => ⟨h.1, h.2.1, h.2.2.1, h.2.2.2⟩, fun h => ⟨h.1, h.2, h.3, h.4⟩⟩

/-- The names that are kept are names of the text. -/
theorem namesTree_read {raw : Raw} (h : NoIndexNames raw) : TypeScript.NamesTree (Json.read raw) := by
  induction raw using Json.inductionOn with
  | null => trivial
  | bool b => trivial
  | str s => exact (Json.every_str _).2 trivial
  | num n => exact (Json.every_num _).2 trivial
  | arr xs ih =>
      rw [Json.read, Json.load_arr, TypeScript.NamesTree, Json.every_arr]
      exact List.forall_mem_map.2 fun x hx => ih x hx ((Json.every_arr xs).1 h x hx)
  | obj ms ih =>
      obtain ⟨hnames, hms⟩ := (Json.every_obj ms).1 h
      rw [Json.read, Json.load_obj, TypeScript.NamesTree, Json.every_obj]
      refine ⟨List.forall_mem_map.2 fun m hm => ?_, fun m hm => ⟨trivial, ?_⟩⟩
      · obtain ⟨n, hn, rfl⟩ := List.mem_map.1 (Json.mem_of_mem_collapse hm)
        rw [← TypeScript.stringValue_eq]
        exact hnames n.1 (List.mem_map_of_mem hn)
      · obtain ⟨n, hn, rfl⟩ := List.mem_map.1 (Json.mem_of_mem_collapse hm)
        exact ih n hn (hms n hn).2

theorem IsPortableText.isPortableTree {raw : Raw} (h : IsPortableText raw) :
    IsPortableTree (Json.read raw) where
  wellFormed := Json.wellFormed_read h.scalars (ReadsNumbers.hasNumbers h.numbers)
  reads := Python.readsTree_read h.numbers
  names := namesTree_read h.names
  depth_le := (Json.depth_load_le raw).trans h.depth_le

/-- The text of a document that the three treat alike. -/
structure IsPortableInput (I : Interpreter) (text : Text) (raw : Raw) (ms : List (Text × Tree)) :
    Prop where
  parsed : Json.parse .none text = .ok raw
  document : Json.read raw = .obj ms
  portable : IsPortableText raw
  proto : ∀ m ∈ ms, m.1 ≠ Json.lit "__proto__"
  payloads : ∀ m ∈ ms, ∀ s data, m.2 = .str s → Rules.isMetadataKey Char.toNat m.1 = false →
    Base64.decode s = some data → IsPortablePayload I data

section Input

variable {I : Interpreter} {C : Crates} {text : Text} {raw : Raw} {ms : List (Text × Tree)}

theorem IsPortableInput.isPortableDocument (h : IsPortableInput I text raw ms) :
    IsPortableDocument I ms where
  tree := h.document ▸ h.portable.isPortableTree
  proto := h.proto
  payloads := h.payloads

theorem IsPortableInput.isScalar (h : IsPortableInput I text raw ms) : ∀ c ∈ text, Unicode.IsScalar c :=
  Json.isScalar_of_parse h.parsed h.portable.scalars

theorem IsPortableInput.decodeUtf8 (h : IsPortableInput I text raw ms) :
    Unicode.decodeUtf8 false (Unicode.encodeUtf8 text) = some text :=
  Unicode.decodeUtf8_encodeUtf8 fun c hc => ⟨(h.isScalar c hc).1, .inr (h.isScalar c hc).2⟩

/-! ### Reading -/

theorem IsPortableInput.strictLoadsBytes (h : IsPortableInput I text raw ms) (hI : IsRoomy I) :
    Python.strictLoadsBytes I (Unicode.encodeUtf8 text) = .ok (Python.ofTree (.obj ms)) := by
  have htext := (Python.isText_of_utf8 h.decodeUtf8 h.parsed).2
  refine (Python.strictLoadsBytes_eq_ok_iff htext (h.portable.depth_le.trans hI.scan)).2
    ⟨h.portable.numbers, ?_⟩
  rw [← h.document]
  rfl

theorem IsPortableInput.strictParse (h : IsPortableInput I text raw ms) :
    TypeScript.strictParse (Unicode.encodeUtf16 text) = .ok (TypeScript.ofTree (.obj ms)) := by
  have hparse : Json.parse .none (Unicode.codePoints (Unicode.encodeUtf16 text)) = .ok raw := by
    rw [Unicode.codePoints_encodeUtf16 h.isScalar]
    exact h.parsed
  rw [← h.document]
  exact TypeScript.strictParse_eq_ofTree hparse h.portable.names h.portable.scalars
    (ReadsNumbers.hasNumbers h.portable.numbers)

theorem IsPortableInput.strictFromStr (h : IsPortableInput I text raw ms) :
    Rust.strictFromStr C (Rust.ofCodes text) = .ok (Rust.ofTree (.obj ms)) := by
  have hparse : Json.parse Rust.serdeLimits text = .ok raw := by
    refine Json.parse_eq_ok_iff.2 ⟨(Json.parse_eq_ok_iff.1 h.parsed).1, ?_, fun d hd => ?_⟩
    · exact Json.every_of_forall (fun _ => trivial) (fun _ => rfl) (fun _ => trivial) raw
    · rw [← Option.some.inj hd]
      exact h.portable.depth_le.trans (by decide)
  have hnumbers : Json.HasNumbers (Rust.ofRaw raw) :=
    Json.hasNumbers_map.2 (ReadsNumbers.hasNumbers h.portable.numbers)
  have hvalue : Rust.ofRaw raw = Rust.ofTree (.obj ms) := by
    rw [← h.document]
    rfl
  rw [← hvalue, Rust.strictFromStr, Rust.asBytes, Rust.codes_ofCodes h.isScalar]
  exact Rust.strictFromSlice_eq_ok_iff.2 ⟨Rust.serdeRead_eq_some_iff.2
    ⟨text, raw, h.decodeUtf8, hparse, h.portable.scalars, rfl⟩, hnumbers⟩

/-! ### Printing -/

/-- The bytes are the text of a tree with the canonical bytes of `t`. -/
def ReadsAs (bytes : List UInt8) (t : Tree) : Prop :=
  ∃ text raw, Unicode.decodeUtf8 false bytes = some text ∧ Json.parse .none text = .ok raw ∧
    canonicalBytes (Json.read raw) = canonicalBytes t

/-- The number that `repr` writes is the number that was read. -/
theorem canonicalToken_reprToken {n : NumberToken} (h : Python.acceptsNumber n = true) :
    Json.canonicalToken (Python.reprToken (Python.numberValue n)) = Json.canonicalToken n := by
  obtain ⟨-, hvalue⟩ := Python.reads_reprToken (Python.isPlain_numberValue h)
  rw [← Python.atomToken_numberValue, hvalue, Python.atomToken_numberValue]

/-- What `json.dumps` writes of a tree is read as the tree with the numbers of `repr`. -/
theorem read_dumpsTree {t : Tree} (h : WellFormed t) : Json.read (Python.dumpsTree (Python.ofTree t))
    = t.map id fun n => Python.reprToken (Python.numberValue n) := by
  rw [Python.dumpsTree, Python.ofTree, Json.map_map]
  exact Json.load_map (h.imp (fun s _ => Json.unescape_canonicalItems s) (fun _ _ => trivial) fun _ => id)

theorem canonicalBytes_read_dumpsTree {t : Tree} (hwell : WellFormed t) (hreads : Python.ReadsTree t) :
    canonicalBytes (Json.read (Python.dumpsTree (Python.ofTree t))) = canonicalBytes t := by
  have hsame : (t.map id fun n => Python.reprToken (Python.numberValue n)).map Json.canonicalItems
      Json.canonicalToken = t.map Json.canonicalItems Json.canonicalToken := by
    rw [Json.map_map]
    exact Json.map_congr hreads (fun _ _ => rfl) fun n hn => canonicalToken_reprToken hn
  rw [read_dumpsTree hwell, canonicalBytes, Json.canonicalText, hsame]
  rfl

/-- What `json.dumps` writes of a tree is a text of the tree. -/
theorem exists_dumpsLine {t : Tree} (hwell : WellFormed t) (hreads : Python.ReadsTree t) {depth : ℕ}
    (hdepth : t.depth ≤ depth) : ∃ text, Python.dumpsLine depth true (Python.ofTree t) = .ok text ∧
      Python.utf8Encode text = .ok (Unicode.encodeUtf8 text) ∧ ReadsAs (Unicode.encodeUtf8 text) t := by
  have hplain := Python.isPlain_ofTree hreads
  have hdepth' : (Python.ofTree t).depth ≤ depth := by
    rwa [Python.ofTree, Json.depth_map]
  have hparse : Json.parse .none (Python.dumpsTree (Python.ofTree t)).spaced
      = .ok (Python.dumpsTree (Python.ofTree t)) :=
    Json.parse_spaced (Python.writable_dumpsTree _) (Json.within_none _)
  have hscalars : Json.HasScalars (Python.dumpsTree (Python.ofTree t)) := by
    rw [Json.HasScalars, Python.dumpsTree, Python.ofTree, Json.map_map, Json.every_map]
    refine hwell.scalars.imp (fun s hs => ?_) (fun _ => id) fun _ _ => trivial
    rw [id_eq, Json.unescape_canonicalItems]
    exact hs
  have htext := Json.isScalar_of_parse hparse hscalars
  refine ⟨_, Python.dumpsLine_of_isPlain hplain hdepth', if_pos fun c hc => (htext c hc).2, _, _, ?_, hparse,
    canonicalBytes_read_dumpsTree hwell hreads⟩
  exact Unicode.decodeUtf8_encodeUtf8 fun c hc => ⟨(htext c hc).1, .inr (htext c hc).2⟩

theorem IsPortableInput.python_main (h : IsPortableInput I text raw ms) (hI : IsRoomy I) {depth : ℕ}
    (hdepth : 102 ≤ depth) : ∃ printed, Python.main I depth (Unicode.encodeUtf8 text) = .ok printed ∧
      ReadsAs printed (treeReport ms).toTree := by
  have hdocument := h.isPortableDocument
  obtain ⟨printed, hdumps, hencode, hreads⟩ := exists_dumpsLine (wellFormed_report hdocument)
    (readsTree_report hdocument) ((depth_report hdocument).trans hdepth)
  refine ⟨_, ?_, hreads⟩
  have hobj : Python.ofTree (.obj ms) = .obj (ms.map fun m => (id m.1, Python.ofTree m.2)) :=
    Json.map_obj ..
  have hrun : Python.run I (.ofList (ms.map fun m => (id m.1, Python.ofTree m.2)))
      = .ok (pythonReport (treeReport ms)) := python_run hI hdocument
  simp only [Python.main, h.strictLoadsBytes hI, hobj, hrun, python_toValue hdocument, hdumps, hencode]

theorem IsPortableInput.typeScript_main (h : IsPortableInput I text raw ms) :
    TypeScript.main (Unicode.encodeUtf16 text) = .ok (canonicalBytes (treeReport ms).toTree) := by
  have hdocument := h.isPortableDocument
  have hwell := wellFormed_report hdocument
  have hrun : TypeScript.run (.ofList (ms.map fun m => (Unicode.encodeUtf16 m.1, TypeScript.ofTree m.2)))
      = .ok (typeScriptReport (treeReport ms)) := typeScript_run hdocument
  simp only [TypeScript.main, h.strictParse, TypeScript.ofTree_obj, hrun, typeScript_toValue hdocument,
    TypeScript.canonicalStringify_ofTree hwell, TypeScript.utf8Encode_canonicalText hwell]

theorem IsPortableInput.rust_main (h : IsPortableInput I text raw ms) (hC : C.IsStandard) :
    Rust.main C (Unicode.encodeUtf8 text) = .ok (canonicalBytes (treeReport ms).toTree) := by
  have hdocument := h.isPortableDocument
  have hwell := wellFormed_report hdocument
  have hrun : Rust.run C (.ofList (ms.map fun m => (Rust.ofCodes m.1, Rust.ofTree m.2)))
      = .ok (rustReport (treeReport ms)) := rust_run hC hdocument
  simp only [Rust.main, h.decodeUtf8, h.strictFromStr, Rust.ofTree_obj, hrun, rust_toValue hdocument,
    Rust.canonicalToString_ofTree hwell]
  rfl

end Input

/-- The members of a document: metadata, bytes, inlined bytes, a bad key, and a string that is no
base64. -/
def portableMembers : List (Text × Tree) := [
  (Json.lit "zarr.json", .obj [
    (Json.lit "b", .num ⟨false, [2], [5, 0], none, by decide, by decide⟩),
    (Json.lit "a", .arr [.bool true])]),
  (Json.lit "c/0", .str (Json.lit "AQID")), (Json.lit "c/1", .str (Json.lit "WzFd")),
  (Json.lit "c//2", .null), (Json.lit "d", .str (Json.lit "?"))]

/-- The document, as it is parsed. -/
def portableRaw : Raw := (Json.obj portableMembers).map Json.canonicalItems id

theorem isPortablePayload_bytes : IsPortablePayload Python.cpython [1, 2, 3] where
  manageable := by
    have hvalue : ∃ e, Python.inlineBody Python.cpython [1, 2, 3] = .error (.value e) := ⟨_, rfl⟩
    obtain ⟨e, he⟩ := hvalue
    by_contra hmanageable
    rw [Python.inlineBody_eq_recursion_iff.2 hmanageable] at he
    cases he
  inlined u hu := by
    have hnone : Rules.inlineTree? [1, 2, 3] = none := by decide +kernel
    rw [hnone] at hu
    cases hu

theorem isPortablePayload_array : IsPortablePayload Python.cpython [91, 49, 93] where
  manageable := by
    have hvalue : ∃ v, Python.inlineBody Python.cpython [91, 49, 93] = .ok (some v) := ⟨_, rfl⟩
    obtain ⟨v, hv⟩ := hvalue
    by_contra hmanageable
    rw [Python.inlineBody_eq_recursion_iff.2 hmanageable] at hv
    cases hv
  inlined u hu := by
    have hsome : Rules.inlineTree? [91, 49, 93] = some (.arr [.num (.ofInt 1)]) := rfl
    rw [hsome] at hu
    cases hu
    decide

theorem isPortableInput_portableRaw :
    IsPortableInput Python.cpython portableRaw.text portableRaw portableMembers where
  parsed := Json.parse_none_text (Json.writable_map _)
  document := rfl
  portable := by decide +kernel
  proto := by decide +kernel
  payloads := by
    simp only [portableMembers, List.forall_mem_cons]
    refine ⟨fun s data hs => ?_, fun s data hs _ hdata => ?_, fun s data hs _ hdata => ?_,
      fun s data hs => ?_, fun s data hs _ hdata => ?_, List.forall_mem_nil _⟩
    · cases hs
    · cases hs
      cases hdata.symm.trans (by decide : Base64.decode (Json.lit "AQID") = some [1, 2, 3])
      exact isPortablePayload_bytes
    · cases hs
      cases hdata.symm.trans (by decide : Base64.decode (Json.lit "WzFd") = some [91, 49, 93])
      exact isPortablePayload_array
    · cases hs
    · cases hs
      cases hdata.symm.trans (by decide : Base64.decode (Json.lit "?") = none)

end Conformance
