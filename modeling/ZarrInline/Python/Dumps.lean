import ZarrInline.Json.Spaced
import ZarrInline.Python.FileBacking

/-!
# `json.dumps` on one line

`json.dumps` without `indent`, as the conformance harness and `StringBacking` call it.  What it
writes of a value of JSON numbers reads back as the value (`strictLoads_dumpsLine`).
-/

namespace Python

open Numeric (Text Double NumberToken)

/-- `json.dumps` of what is neither a string nor a container.  With `allow_nan` it writes the floats
that are not finite in words. -/
def dumpsLineAtom (allowNan : Bool) : PyAtom → Except DumpsError Text
  | .float .nan => if allowNan then .ok (Json.lit "NaN") else .error .nonFinite
  | .float (.infinity neg) =>
      if allowNan then .ok (Json.lit (if neg then "-Infinity" else "Infinity")) else .error .nonFinite
  | a => dumpsAtom a

/-- `json.dumps(value, ensure_ascii=False, allow_nan=allow_nan)`, for a value that nests as deep as
the encoder goes. -/
def dumpsLine (depth : ℕ) (allowNan : Bool) (value : PyValue) : Except DumpsError Text :=
  Json.writeSpaced (fun s => Json.strText (Json.canonicalItems s)) (dumpsLineAtom allowNan)
    (fun level => if level < depth then .ok () else .error .recursion) value 0

variable {I : Interpreter} {depth : ℕ} {v : PyValue} {text : Text}

/-- An atom that is a JSON number is written as its token. -/
theorem dumpsAtom_of_isPlain {a : PyAtom} (h : a.IsPlain) : dumpsAtom a = .ok (reprToken a).render := by
  cases a with
  | int i => exact if_pos h
  | float x => exact if_pos h
  | oddDict name => exact h.elim
  | other type => exact h.elim

theorem dumpsAtom_eq_ok_iff {a : PyAtom} : dumpsAtom a = .ok text ↔
    a.IsPlain ∧ text = (reprToken a).render := by
  constructor
  · intro h
    refine ⟨?_, (dumpsAtom_eq_ok h).1⟩
    cases a with
    | int i =>
        rw [dumpsAtom] at h
        split at h
        · assumption
        · cases h
    | float x =>
        rw [dumpsAtom] at h
        split at h
        · assumption
        · cases h
    | oddDict name => cases h
    | other type => cases h
  · rintro ⟨ha, rfl⟩
    exact dumpsAtom_of_isPlain ha

/-- Without `allow_nan`, what is written are JSON numbers. -/
theorem dumpsLineAtom_false (a : PyAtom) : dumpsLineAtom false a = dumpsAtom a := by
  cases a with
  | float x => cases x <;> rfl
  | _ => rfl

theorem dumpsLineAtom_of_isPlain {allowNan : Bool} {a : PyAtom} (h : a.IsPlain) :
    dumpsLineAtom allowNan a = .ok (reprToken a).render := by
  rw [← dumpsAtom_of_isPlain h]
  cases a with
  | float x =>
      cases x with
      | finite neg u hu => rfl
      | _ => exact h.elim
  | _ => rfl

/-- Without `allow_nan`, a value is written if and only if its atoms are JSON numbers and it nests
no deeper than the encoder goes. -/
theorem dumpsLine_eq_ok_iff : dumpsLine depth false v = .ok text ↔
    (IsPlain v ∧ v.depth ≤ depth) ∧ text = (dumpsTree v).spaced := by
  have henter : ∀ level, (if level < depth then .ok () else .error .recursion : Except DumpsError Unit)
      = .ok () ↔ level < depth := by
    intro level
    split
    · next h => exact iff_of_true rfl h
    · next h => exact iff_of_false (fun h => by cases h) h
  have hnum : ∀ a t, dumpsLineAtom false a = .ok t ↔ a.IsPlain ∧ t = (reprToken a).render := by
    intro a t
    rw [dumpsLineAtom_false, dumpsAtom_eq_ok_iff]
  rw [dumpsLine, Json.writeSpaced_eq_ok_iff (fun _ => rfl) hnum henter (Nat.zero_le _), Nat.zero_add]
  rfl

/-- A value of JSON numbers is written whether or not other floats are. -/
theorem dumpsLine_of_isPlain {allowNan : Bool} (h : IsPlain v) (hdepth : v.depth ≤ depth) :
    dumpsLine depth allowNan v = .ok (dumpsTree v).spaced := by
  have hatoms : ∀ a : PyAtom, a.IsPlain → dumpsLineAtom allowNan a = dumpsLineAtom false a := fun a ha =>
    (dumpsLineAtom_of_isPlain ha).trans (dumpsLineAtom_of_isPlain ha).symm
  have hsame : dumpsLine depth allowNan v = dumpsLine depth false v := Json.writeSpaced_congr hatoms h 0
  rw [hsame]
  exact dumpsLine_eq_ok_iff.2 ⟨⟨h, hdepth⟩, rfl⟩

theorem reads_reprToken {a : PyAtom} (h : a.IsPlain) :
    acceptsNumber (reprToken a) = true ∧ numberValue (reprToken a) = a :=
  (dumpsAtom_eq_ok (dumpsAtom_of_isPlain h)).2

/-- The tree of a written value is read as the value. -/
theorem ofRaw_dumpsTree (hplain : IsPlain v)
    (hordered : v.Every (fun _ => True) (fun _ => True) (Json.Ordered Json.noRank)) :
    ofRaw (dumpsTree v) = v := by
  have hread : Json.read (dumpsTree v) = v.map id reprToken :=
    Json.load_map (hordered.imp (fun s _ => Json.unescape_canonicalItems s) (fun _ => id) fun _ => id)
  rw [ofRaw, hread, Json.map_map]
  exact Json.map_eq_self hplain (fun _ _ => rfl) fun a ha => (reads_reprToken ha).2

/-- What is written is read back, nesting permitting. -/
theorem strictLoads_dumpsLine (hplain : IsPlain v)
    (hordered : v.Every (fun _ => True) (fun _ => True) (Json.Ordered Json.noRank))
    (hdepth : v.depth ≤ I.scanDepth) : strictLoads I (dumpsTree v).spaced = .ok v := by
  have hwithin : Json.Within I.limits (dumpsTree v) := by
    constructor
    · rw [Json.Accepted, dumpsTree, Json.every_map]
      exact hplain.imp (fun _ => id) (fun a ha => (reads_reprToken ha).1) fun _ => id
    · rw [dumpsTree, Json.depth_map]
      intro d hd
      rw [← Option.some.inj hd]
      exact hdepth
  rw [strictLoads, Json.parse_spaced (writable_dumpsTree v) hwithin]
  exact congrArg Except.ok (ofRaw_dumpsTree hplain hordered)

end Python
