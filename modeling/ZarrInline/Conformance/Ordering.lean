import ZarrInline.Conformance.Determinism
import ZarrInline.Python.Conformance
import ZarrInline.Rust.Conformance
import ZarrInline.TypeScript.Ordering

/-!
# The order of a report in the three languages

TypeScript orders strings by a loop over code units, Python by code points, and Rust by
bytes.  The three orders are one, so each of the harnesses puts the same issues and the
same keys in the same sequence (`reportOrder_agree`).
-/

namespace Conformance

open TypeScript (JsString compareFrom compareCodePoints compareIssues sortBy)
open Rust (RustString)
open Python (PyString)
open Rules (Rule)

/-! ## Sorting by key, then by rule -/

/-- Issues in the order of the Python report. -/
def sortPython (issues : List (Rule × PyString)) : List (Rule × PyString) :=
  issues.mergeSort fun a b => Python.issueLe (a.2, a.1) (b.2, b.1)

/-- Issues in the order of the Rust report. -/
def sortRust (issues : List (Rule × RustString)) : List (Rule × RustString) :=
  issues.mergeSort fun a b => Rust.issueLe (a.2, a.1) (b.2, b.1)

/-- Issues in the order of the TypeScript report. -/
def sortTypeScript (issues : List (Rule × JsString)) : List (Rule × JsString) :=
  sortBy compareIssues issues

/-- The reports hold the issues in these orders. -/
theorem issues_python {I : Python.Interpreter} {document : Python.Document} {report : Python.Report}
    (h : Python.run I document = .ok report) :
    report.issues = sortPython ((Python.validate document).map fun i => (i.rule, i.key)) := by
  unfold Python.run at h
  simp only at h
  split at h
  · cases h
  · cases h
    exact List.map_mergeSort fun _ _ _ _ => rfl

theorem issues_rust {C : Rust.Crates} {document : Rust.Document} {report : Rust.Report}
    (h : Rust.run C document = .ok report) :
    report.issues = sortRust ((Rust.validate document).map fun i => (i.rule, i.key)) := by
  unfold Rust.run at h
  simp only at h
  split at h
  · cases h
  · cases h
    exact List.map_mergeSort fun _ _ _ _ => rfl

theorem issues_typeScript {document : TypeScript.Document} {report : TypeScript.ConformanceReport}
    (h : TypeScript.run document = .ok report) :
    report.issues = sortTypeScript ((TypeScript.validate document).map fun i => (i.rule, i.key)) := by
  unfold TypeScript.run at h
  simp only at h
  split at h
  · cases h
  · cases h
    rfl

/-! ## The orders -/

theorem codes_lt_iff {a b : RustString} : Rust.codes a < Rust.codes b ↔ a < b := by
  rw [← Rust.asBytes_lt_iff]
  exact (Unicode.encodeUtf8_lt_iff (fun c hc => (Rust.isScalar_codes a c hc).1)
    fun c hc => (Rust.isScalar_codes b c hc).1).symm

theorem codes_inj {a b : RustString} : Rust.codes a = Rust.codes b ↔ a = b := by
  refine ⟨fun h => ?_, congrArg _⟩
  rw [← Rust.ofCodes_codes a, h, Rust.ofCodes_codes]

/-- The names of the rules are ordered alike. -/
theorem ruleName_le (r s : Rule) :
    (compareCodePoints (TypeScript.js r.name) (TypeScript.js s.name) ≤ 0 ↔
        Python.py r.name ≤ Python.py s.name) ∧
      (r.name.toList ≤ s.name.toList ↔ Python.py r.name ≤ Python.py s.name) := by
  rw [TypeScript.compareCodePoints_le_iff]
  cases r <;> cases s <;> decide

/-- TypeScript and Python order issues alike. -/
theorem compareIssues_le_iff (a b : Rule × JsString) : decide (compareIssues a b ≤ 0)
    = Python.issueLe (Unicode.codePoints a.2, a.1) (Unicode.codePoints b.2, b.1) := by
  rw [Python.issueLe, decide_eq_decide, compareIssues]
  rcases lt_trichotomy (compareCodePoints a.2 b.2) 0 with hlt | heq | hgt
  · rw [if_pos hlt.ne]
    exact iff_of_true hlt.le (Or.inl (TypeScript.compareCodePoints_neg_iff.1 hlt))
  · have hkey := TypeScript.compareCodePoints_eq_zero_iff.1 heq
    rw [if_neg (not_not.2 heq), (ruleName_le a.1 b.1).1, hkey]
    simp
  · have hpos := TypeScript.compareCodePoints_pos_iff.1 hgt
    rw [if_pos hgt.ne']
    refine iff_of_false hgt.not_ge ?_
    rintro (h | ⟨h, -⟩)
    · exact hpos.asymm h
    · exact hpos.ne' h

/-- Rust and Python order issues alike. -/
theorem issueLe_codes (a b : Rule × RustString) : Rust.issueLe (a.2, a.1) (b.2, b.1)
    = Python.issueLe (Rust.codes a.2, a.1) (Rust.codes b.2, b.1) := by
  rw [Python.issueLe, Rust.issueLe, decide_eq_decide]
  simp only [codes_lt_iff, codes_inj, (ruleName_le a.1 b.1).2]

theorem sortTypeScript_map (issues : List (Rule × JsString)) :
    (sortTypeScript issues).map (Prod.map id Unicode.codePoints)
      = sortPython (issues.map (Prod.map id Unicode.codePoints)) :=
  List.map_mergeSort fun a _ b _ => compareIssues_le_iff a b

theorem sortRust_map (issues : List (Rule × RustString)) :
    (sortRust issues).map (Prod.map id Rust.codes)
      = sortPython (issues.map (Prod.map id Rust.codes)) :=
  List.map_mergeSort fun a _ b _ => issueLe_codes a b

theorem sortKeys_typeScript (keys : List JsString) :
    (sortBy compareCodePoints keys).map Unicode.codePoints
      = Text.sortStrings (keys.map Unicode.codePoints) :=
  List.map_mergeSort fun _ _ _ _ => decide_eq_decide.2 TypeScript.compareCodePoints_le_iff

theorem sortKeys_rust (keys : List RustString) :
    (Text.sortStrings keys).map Rust.codes = Text.sortStrings (keys.map Rust.codes) :=
  List.map_mergeSort fun a _ b _ => decide_eq_decide.2 (by rw [← not_lt, ← not_lt, codes_lt_iff])

/-- The loop of `compareCodePoints` compares the code points of any two strings, and so
their UTF-8 if they have any.  The three harnesses sort the same issues, and the same keys,
to the same sequence of code points. -/
theorem reportOrder_agree :
    (∀ a b : JsString,
      (compareFrom a b 0 0 < 0 ↔ Unicode.codePoints a < Unicode.codePoints b) ∧
      (0 < compareFrom a b 0 0 ↔ Unicode.codePoints b < Unicode.codePoints a) ∧
      (compareFrom a b 0 0 = 0 ↔ a = b) ∧ compareFrom a b 0 0 = compareCodePoints a b) ∧
    (∀ a b : JsString, Unicode.IsWellFormed a → Unicode.IsWellFormed b →
      (compareFrom a b 0 0 < 0 ↔ TypeScript.utf8Encode a < TypeScript.utf8Encode b)) ∧
    (∀ a b : RustString, (a < b ↔ Rust.asBytes a < Rust.asBytes b) ∧
      (a < b ↔ compareFrom (jsString a) (jsString b) 0 0 < 0)) ∧
    (∀ issues : List (Rule × JsString),
      (sortTypeScript issues).map (Prod.map id Unicode.codePoints)
        = sortPython (issues.map (Prod.map id Unicode.codePoints))) ∧
    (∀ issues : List (Rule × RustString),
      (sortRust issues).map (Prod.map id Rust.codes)
        = sortPython (issues.map (Prod.map id Rust.codes))) ∧
    (∀ keys : List JsString, (sortBy compareCodePoints keys).map Unicode.codePoints
      = Text.sortStrings (keys.map Unicode.codePoints)) ∧
    (∀ keys : List RustString, (Text.sortStrings keys).map Rust.codes
      = Text.sortStrings (keys.map Rust.codes)) := by
  refine ⟨fun a b => ?_, fun a b ha hb => ?_, fun a b => ⟨Rust.asBytes_lt_iff.symm, ?_⟩,
    sortTypeScript_map, sortRust_map, sortKeys_typeScript, sortKeys_rust⟩
  · rw [TypeScript.compareFrom_zero]
    exact ⟨TypeScript.compareCodePoints_neg_iff, TypeScript.compareCodePoints_pos_iff,
      TypeScript.compareCodePoints_eq_zero_iff, rfl⟩
  · rw [TypeScript.compareFrom_zero, TypeScript.compareCodePoints_neg_iff,
      TypeScript.utf8Encode_of_isWellFormed ha, TypeScript.utf8Encode_of_isWellFormed hb]
    exact (Unicode.encodeUtf8_lt_iff (Unicode.codePoints_lt a) (Unicode.codePoints_lt b)).symm
  · rw [TypeScript.compareFrom_zero, TypeScript.compareCodePoints_neg_iff, codePoints_jsString,
      codePoints_jsString, codes_lt_iff]

end Conformance
