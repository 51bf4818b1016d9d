import ZarrInline.Conformance.Reports

/-!
# The three harnesses make one report

Each of the three harnesses makes the report of a portable document (`python_run`, `rust_run`,
`typeScript_run`), and the value that it prints is the value of that report.
-/

namespace Conformance

open Json (Tree WellFormed canonicalBytes)
open Numeric (Text)
open Python (Interpreter)
open Rules (Rule treeIssue decodeTree encodeTree inlineTree? isContainer)
open Rust (Crates)

/-- The report as a value of a host. -/
theorem map_toTree {κ ν : Type} (f : Text → κ) (g : Numeric.NumberToken → ν) (r : TreeReport) :
    r.toTree.map f g = .obj [
      (f (Json.lit "issues"), .arr (r.issues.map fun i =>
        .obj [(f (Json.lit "rule"), .str (f (Json.lit i.1.name))), (f (Json.lit "key"), .str (f i.2))])),
      (f (Json.lit "decoded"), .obj (r.decoded.map fun m => (f m.1, m.2.map f g))),
      (f (Json.lit "reencoded"), .obj (r.reencoded.map fun m => (f m.1, m.2.map f g))),
      (f (Json.lit "errors"), .arr (r.errors.map fun k => .str (f k)))] := by
  simp only [TreeReport.toTree, Json.map_obj, Json.map_arr, Json.map_str, List.map_cons, List.map_nil,
    List.map_map, Function.comp_def]

/-! ## The report of Python -/

section Python

variable {I : Interpreter} {ms : List (Text × Tree)} {m : Text × Tree}

/-- A document of members. -/
def pythonDocument (ms : List (Text × Tree)) : Python.Document :=
  .ofList (ms.map fun m => (id m.1, Python.ofTree m.2))

/-- What the loop has collected. -/
def pythonCollected (decoded reencoded : List (Text × Tree)) (errors : List Text) : Python.Collected :=
  ⟨pythonDocument decoded, pythonDocument reencoded, errors⟩

/-- The report. -/
def pythonReport (r : TreeReport) : Python.Report :=
  ⟨r.issues, pythonDocument r.decoded, pythonDocument r.reencoded, r.errors⟩

theorem pythonDocument_snoc (ms : List (Text × Tree)) (key : Text) (t : Tree) :
    pythonDocument (ms ++ [(key, t)]) = (pythonDocument ms).set key (Python.ofTree t) := by
  rw [pythonDocument, List.map_append]
  exact ofList_snoc _ _ _

theorem python_visits (issueKeys : List Python.PyString) (m : Text × Tree) :
    Visits id Python.ofTree IsValueError (Python.decodeValue I) (Python.encodeValue I) issueKeys
      (Python.visit I issueKeys) pythonCollected m where
  skip hmem acc := if_pos hmem
  fail hskip e hcaught he ds rs es := by
    obtain ⟨error, rfl⟩ := hcaught
    rw [Python.visit, if_neg hskip]
    simp only [he]
    rfl
  keep hskip data u hdecode hencode ds rs es := by
    rw [Python.visit, if_neg hskip]
    simp only [hdecode, hencode, pythonCollected, pythonDocument_snoc]
    rfl

theorem entries_pythonDocument (h : Json.Ordered Json.noRank (ms.map Prod.fst)) :
    (pythonDocument ms).entries = ms.map fun m => (id m.1, Python.ofTree m.2) :=
  entries_ofList h (fun _ _ _ _ => id) fun _ _ => rfl

/-- The report of Python. -/
theorem python_run (hI : IsRoomy I) (h : IsPortableDocument I ms) :
    Python.run I (pythonDocument ms) = .ok (pythonReport (treeReport ms)) := by
  have hentries := entries_pythonDocument h.ordered
  have hmember : ∀ m ∈ ms, Rules.memberIssue Char.toNat Python.kinds (id m.1) (Python.ofTree m.2)
      = (treeIssue m.1 m.2).map fun issue => ⟨issue.rule, id m.1, issue.message⟩ :=
    fun m _ => python_memberIssue
  have hloop : (pythonDocument ms).entries.foldlM
      (Python.visit I ((Python.validate (pythonDocument ms)).map Rules.ValidationIssue.key))
      ⟨.empty, .empty, []⟩
        = .ok (pythonCollected (decodedMembers ms) (reencodedMembers ms) (undecodableKeys ms)) := by
    rw [hentries]
    exact loop_eq_ok (fun m _ => python_visits _ m)
      (fun m hm => mem_keys_validate id Python.ofTree hentries hmember hm) fun m hm => python_follows hI h hm
  have hissues : (Python.validate (pythonDocument ms)).map (fun i => (i.rule, i.key)) = treeIssues ms :=
    (map_validate id Python.ofTree hentries hmember).trans (List.map_id _)
  have hsorted : (((Python.validate (pythonDocument ms)).mergeSort fun a b =>
      Python.issueLe (a.key, a.rule) (b.key, b.rule)).map fun i => (i.rule, i.key))
        = sortPython (treeIssues ms) := by
    rw [← hissues]
    exact List.map_mergeSort fun _ _ _ _ => rfl
  simp only [Python.run, hloop, hsorted]
  rfl

theorem python_toValue (h : IsPortableDocument I ms) :
    (pythonReport (treeReport ms)).toValue = Python.ofTree (treeReport ms).toTree := by
  have hdecoded := entries_pythonDocument (h.ordered.sublist (collect_sublist _ ms) :
    Json.Ordered Json.noRank ((treeReport ms).decoded.map Prod.fst))
  have hreencoded := entries_pythonDocument (h.ordered.sublist (collect_sublist _ ms) :
    Json.Ordered Json.noRank ((treeReport ms).reencoded.map Prod.fst))
  rw [Python.ofTree, map_toTree]
  simp only [Python.Report.toValue, pythonReport, hdecoded, hreencoded]
  rfl

end Python

/-! ## The report of Rust -/

section Rust

variable {I : Interpreter} {C : Crates} {ms : List (Text × Tree)} {m : Text × Tree}

/-- A document of members. -/
def rustDocument (ms : List (Text × Tree)) : Rust.Document :=
  .ofList (ms.map fun m => (Rust.ofCodes m.1, Rust.ofTree m.2))

/-- What the loop has collected. -/
def rustCollected (decoded reencoded : List (Text × Tree)) (errors : List Text) : Rust.Collected :=
  ⟨rustDocument decoded, rustDocument reencoded, errors.map Rust.ofCodes⟩

/-- The report. -/
def rustReport (r : TreeReport) : Rust.Report :=
  ⟨r.issues.map (Prod.map id Rust.ofCodes), rustDocument r.decoded, rustDocument r.reencoded,
    r.errors.map Rust.ofCodes⟩

theorem rustDocument_snoc (ms : List (Text × Tree)) (key : Text) (t : Tree) :
    rustDocument (ms ++ [(key, t)]) = (rustDocument ms).set (Rust.ofCodes key) (Rust.ofTree t) := by
  rw [rustDocument, List.map_append]
  exact ofList_snoc _ _ _

theorem rust_visits (issueKeys : List Rust.RustString) (m : Text × Tree) :
    Visits Rust.ofCodes Rust.ofTree IsReported (Rust.decodeValue C) (Rust.encodeValue C) issueKeys
      (Rust.visit C issueKeys) rustCollected m where
  skip hmem acc := if_pos hmem
  fail hskip e hcaught he ds rs es := by
    rw [Rust.visit, if_neg hskip, rustCollected, rustCollected, List.map_append]
    simp only [he]
    cases e with
    | panic => exact absurd rfl hcaught
    | _ => rfl
  keep hskip data u hdecode hencode ds rs es := by
    rw [Rust.visit, if_neg hskip]
    simp only [hdecode, hencode, rustCollected, rustDocument_snoc]
    rfl

theorem entries_rustDocument (hordered : Json.Ordered Json.noRank (ms.map Prod.fst))
    (hscalars : ∀ m ∈ ms, ∀ c ∈ m.1, Unicode.IsScalar c) :
    (rustDocument ms).entries = ms.map fun m => (Rust.ofCodes m.1, Rust.ofTree m.2) := by
  refine entries_ofList hordered (fun m hm n hn heq => ?_) fun _ _ => rfl
  rw [← Rust.codes_ofCodes (hscalars m hm), heq, Rust.codes_ofCodes (hscalars n hn)]

/-- The report of Rust. -/
theorem rust_run (hC : C.IsStandard) (h : IsPortableDocument I ms) :
    Rust.run C (rustDocument ms) = .ok (rustReport (treeReport ms)) := by
  have hentries := entries_rustDocument h.ordered fun m => h.scalars
  have hmember := fun m (hm : m ∈ ms) => rust_memberIssue h hm
  have hloop : (rustDocument ms).entries.foldlM
      (Rust.visit C (((Rust.validate (rustDocument ms)).mergeSort fun a b =>
        Rust.issueLe (a.key, a.rule) (b.key, b.rule)).map Rules.ValidationIssue.key))
      ⟨.empty, .empty, []⟩
        = .ok (rustCollected (decodedMembers ms) (reencodedMembers ms) (undecodableKeys ms)) := by
    rw [hentries]
    refine loop_eq_ok (fun m _ => rust_visits _ m) (fun m hm => ?_) fun m hm => rust_follows hC h hm
    have hperm := ((Rust.validate (rustDocument ms)).mergeSort_perm fun a b =>
      Rust.issueLe (a.key, a.rule) (b.key, b.rule)).map Rules.ValidationIssue.key
    rw [hperm.mem_iff]
    exact mem_keys_validate Rust.ofCodes Rust.ofTree hentries hmember hm
  have hsorted : (((Rust.validate (rustDocument ms)).mergeSort fun a b =>
      Rust.issueLe (a.key, a.rule) (b.key, b.rule)).map fun i => (i.rule, i.key))
        = (sortPython (treeIssues ms)).map (Prod.map id Rust.ofCodes) := by
    rw [← sortRust_ofCodes (scalars_treeIssues fun m => h.scalars),
      ← map_validate Rust.ofCodes Rust.ofTree hentries hmember]
    exact List.map_mergeSort fun _ _ _ _ => rfl
  have herrors := sortStrings_ofCodes (scalars_undecodableKeys fun m => h.scalars)
  simp only [Rust.run, hloop, hsorted, rustCollected, herrors]
  rfl

theorem rust_toValue (h : IsPortableDocument I ms) :
    (rustReport (treeReport ms)).toValue = Rust.ofTree (treeReport ms).toTree := by
  have hentries : ∀ f, (rustDocument (collect f ms)).entries
      = (collect f ms).map fun m => (Rust.ofCodes m.1, Rust.ofTree m.2) := by
    intro f
    refine entries_rustDocument (h.ordered.sublist (collect_sublist f ms)) fun m hm => ?_
    obtain ⟨n, hn, data, -, rfl⟩ := exists_of_mem_collect hm
    exact h.scalars (m := n) hn
  have hcodes : ∀ s : String, Rust.ofCodes (Json.lit s) = s.toList := fun s => Rust.ofCodes_codes s.toList
  rw [Rust.ofTree, map_toTree]
  simp only [Rust.Report.toValue, rustReport, treeReport, decodedMembers, reencodedMembers, hentries, hcodes,
    List.map_map]
  rfl

end Rust

/-! ## The report of TypeScript -/

section TypeScript

variable {I : Interpreter} {ms : List (Text × Tree)} {m : Text × Tree}

/-- A document of members. -/
def typeScriptDocument (ms : List (Text × Tree)) : TypeScript.Document :=
  .ofList (ms.map fun m => (Unicode.encodeUtf16 m.1, TypeScript.ofTree m.2))

/-- What the loop has collected. -/
def typeScriptCollected (decoded reencoded : List (Text × Tree)) (errors : List Text) :
    TypeScript.Collected :=
  ⟨⟨typeScriptDocument decoded, .object⟩, ⟨typeScriptDocument reencoded, .object⟩,
    errors.map Unicode.encodeUtf16⟩

/-- The report. -/
def typeScriptReport (r : TreeReport) : TypeScript.ConformanceReport :=
  ⟨r.issues.map (Prod.map id Unicode.encodeUtf16), ⟨typeScriptDocument r.decoded, .object⟩,
    ⟨typeScriptDocument r.reencoded, .object⟩, r.errors.map Unicode.encodeUtf16⟩

theorem typeScriptDocument_snoc (ms : List (Text × Tree)) (key : Text) (t : Tree) :
    typeScriptDocument (ms ++ [(key, t)])
      = (typeScriptDocument ms).set (Unicode.encodeUtf16 key) (TypeScript.ofTree t) := by
  rw [typeScriptDocument, List.map_append]
  exact ofList_snoc _ _ _

/-- An assignment at a name other than `__proto__` writes a member. -/
theorem assign_of_ne {own : TypeScript.Document} {key : TypeScript.JsString} {value : TypeScript.JsValue}
    (h : key ≠ TypeScript.protoKey) :
    TypeScript.Accumulator.assign ⟨own, .object⟩ key value = ⟨own.set key value, .object⟩ :=
  if_neg fun hproto => h hproto.1

/-- The name of the accessor is a name of code points. -/
theorem encodeUtf16_ne_protoKey {key : Text} (hscalars : ∀ c ∈ key, Unicode.IsScalar c)
    (h : key ≠ Json.lit "__proto__") : Unicode.encodeUtf16 key ≠ TypeScript.protoKey := by
  intro heq
  have hcodes := congrArg Unicode.codePoints heq
  rw [Unicode.codePoints_encodeUtf16 hscalars] at hcodes
  exact h (hcodes.trans (by decide))

theorem ofTree_base64 (data : List UInt8) :
    TypeScript.ofTree (.str (Base64.encode data)) = .str (TypeScript.base64Encode data) := by
  have hlt : ∀ c ∈ Base64.encode data, c < 0x10000 := fun c hc =>
    (Base64.encode_lt data c hc).trans (by norm_num)
  rw [TypeScript.ofTree, Json.map_str, TypeScript.encodeUtf16_of_lt hlt]
  rfl

theorem typeScript_visits (h : IsPortableDocument I ms) (hm : m ∈ ms)
    (issueKeys : List TypeScript.JsString) :
    Visits Unicode.encodeUtf16 TypeScript.ofTree (fun _ => True) TypeScript.decodeValue
      TypeScript.encodeValue issueKeys (TypeScript.visit issueKeys) typeScriptCollected m where
  skip hmem acc := if_pos hmem
  fail hskip e _ he ds rs es := by
    rw [TypeScript.visit, if_neg hskip, typeScriptCollected, typeScriptCollected, List.map_append]
    simp only [he]
    rfl
  keep hskip data u hdecode hencode ds rs es := by
    have hproto := encodeUtf16_ne_protoKey (h.scalars hm) (h.proto m hm)
    rw [TypeScript.visit, if_neg hskip]
    simp only [hdecode, hencode, typeScriptCollected, typeScriptDocument_snoc, assign_of_ne hproto,
      ofTree_base64]

theorem entries_typeScriptDocument (hordered : Json.Ordered Json.noRank (ms.map Prod.fst))
    (hscalars : ∀ m ∈ ms, ∀ c ∈ m.1, Unicode.IsScalar c)
    (hrank : ∀ m ∈ ms, TypeScript.arrayIndex? (Unicode.encodeUtf16 m.1) = none) :
    (typeScriptDocument ms).entries
      = ms.map fun m => (Unicode.encodeUtf16 m.1, TypeScript.ofTree m.2) := by
  refine entries_ofList hordered (fun m hm n hn heq => ?_) hrank
  rw [← Unicode.codePoints_encodeUtf16 (hscalars m hm), heq,
    Unicode.codePoints_encodeUtf16 (hscalars n hn)]

/-- The report of TypeScript. -/
theorem typeScript_run (h : IsPortableDocument I ms) :
    TypeScript.run (typeScriptDocument ms) = .ok (typeScriptReport (treeReport ms)) := by
  have hentries := entries_typeScriptDocument h.ordered (fun m => h.scalars) fun m => h.rank
  have hmember := fun m (hm : m ∈ ms) => typeScript_memberIssue h hm
  have hloop : (typeScriptDocument ms).entries.foldlM
      (TypeScript.visit ((TypeScript.validate (typeScriptDocument ms)).map Rules.ValidationIssue.key))
      ⟨.empty, .empty, []⟩
        = .ok (typeScriptCollected (decodedMembers ms) (reencodedMembers ms) (undecodableKeys ms)) := by
    rw [hentries]
    exact loop_eq_ok (fun m hm => typeScript_visits h hm _)
      (fun m hm => mem_keys_validate Unicode.encodeUtf16 TypeScript.ofTree hentries hmember hm)
      fun m hm => typeScript_follows h hm
  have hissues := map_validate Unicode.encodeUtf16 TypeScript.ofTree hentries hmember
  have hsorted : TypeScript.sortBy TypeScript.compareIssues
      ((TypeScript.validate (typeScriptDocument ms)).map fun i => (i.rule, i.key))
        = (sortPython (treeIssues ms)).map (Prod.map id Unicode.encodeUtf16) := by
    rw [← sortTypeScript_encodeUtf16 (scalars_treeIssues fun m => h.scalars), ← hissues]
    rfl
  have herrors := sortKeys_encodeUtf16 (scalars_undecodableKeys fun m => h.scalars)
  simp only [TypeScript.run, hloop, hsorted, typeScriptCollected, herrors]
  rfl

theorem encodeUtf16_lit {s : String} (h : ∀ c ∈ Json.lit s, c < 0x10000) :
    Unicode.encodeUtf16 (Json.lit s) = TypeScript.js s := by
  rw [TypeScript.encodeUtf16_of_lt h]
  exact List.map_map

theorem typeScript_toValue (h : IsPortableDocument I ms) :
    (typeScriptReport (treeReport ms)).toValue = TypeScript.ofTree (treeReport ms).toTree := by
  have hentries : ∀ f, (typeScriptDocument (collect f ms)).entries
      = (collect f ms).map fun m => (Unicode.encodeUtf16 m.1, TypeScript.ofTree m.2) := by
    intro f
    refine entries_typeScriptDocument (h.ordered.sublist (collect_sublist f ms)) (fun m hm => ?_)
      fun m hm => ?_
    · obtain ⟨n, hn, data, -, rfl⟩ := exists_of_mem_collect hm
      exact h.scalars (m := n) hn
    · obtain ⟨n, hn, data, -, rfl⟩ := exists_of_mem_collect hm
      exact h.rank (m := n) hn
  have hrule : ∀ rule : Rule, Unicode.encodeUtf16 (Json.lit rule.name) = TypeScript.js rule.name := by
    intro rule
    cases rule <;> exact encodeUtf16_lit (by decide)
  rw [TypeScript.ofTree, map_toTree]
  simp only [TypeScript.ConformanceReport.toValue, TypeScript.Accumulator.toValue, typeScriptReport,
    treeReport, decodedMembers, reencodedMembers, hentries, hrule, List.map_map]
  rfl

end TypeScript

end Conformance
