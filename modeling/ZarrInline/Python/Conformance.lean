import ZarrInline.Python.Dumps
import ZarrInline.Python.Validator
import ZarrInline.Text.Sorting

/-!
# The conformance report in Python

`conformance.py`.  Of the errors of `decode_value` only a `ValueError` puts a key among the
errors.  Any other error ends the run, and so does every error of `encode_value`.
-/

namespace Python

variable {I : Interpreter}

/-- Keys and rules in the order of tuples. -/
def issueLe (a b : PyString × Rules.Rule) : Bool :=
  decide (a.1 < b.1 ∨ (a.1 = b.1 ∧ py a.2.name ≤ py b.2.name))

/-- The report of `run`. -/
structure Report where
  issues : List (Rules.Rule × PyString)
  decoded : Document
  reencoded : Document
  errors : List PyString

/-- What the loop of `run` has collected. -/
structure Collected where
  decoded : Document
  reencoded : Document
  errors : List PyString

/-- The body of the loop of `run`. -/
def visit (I : Interpreter) (issueKeys : List PyString) (acc : Collected) (m : PyString × PyValue) :
    Except PyError Collected :=
  if m.1 ∈ issueKeys then .ok acc
  else
    match decodeValue I m.1 m.2 with
    | .error (.value _) => .ok { acc with errors := acc.errors ++ [m.1] }
    | .error .recursion => .error .recursion
    | .ok data =>
        match encodeValue I m.1 data with
        | .error e => .error e
        | .ok encoded =>
            .ok { acc with
              decoded := acc.decoded.set m.1 (.str (Base64.encode data))
              reencoded := acc.reencoded.set m.1 encoded }

/-- `run`. -/
def run (I : Interpreter) (document : Document) : Except PyError Report :=
  let issues := validate document
  match document.entries.foldlM (visit I (issues.map Rules.ValidationIssue.key)) ⟨.empty, .empty, []⟩ with
  | .error e => .error e
  | .ok acc =>
      .ok {
        issues := (issues.mergeSort fun a b => issueLe (a.key, a.rule) (b.key, b.rule)).map
          fun i => (i.rule, i.key)
        decoded := acc.decoded
        reencoded := acc.reencoded
        errors := Text.sortStrings acc.errors }

/-- The report as a dict. -/
def Report.toValue (report : Report) : PyValue :=
  .obj [
    (py "issues", .arr (report.issues.map fun i =>
      .obj [(py "rule", .str (py i.1.name)), (py "key", .str i.2)])),
    (py "decoded", .obj report.decoded.entries),
    (py "reencoded", .obj report.reencoded.entries),
    (py "errors", .arr (report.errors.map Json.str))]

/-- Why `main` prints no report. -/
inductive MainError where
  | invalidJson (e : PyError)
  | notObject
  | report (e : PyError)
  | dumps (e : DumpsError)
  | encode (e : PyError)

/-- `main`: what it writes to its output.  `depth` is the nesting at which `json.dumps` gives up. -/
def main (I : Interpreter) (depth : ℕ) (stdin : Bytes) : Except MainError Bytes :=
  match strictLoadsBytes I stdin with
  | .error e => .error (.invalidJson e)
  | .ok (.obj members) =>
      match run I (.ofList members) with
      | .error e => .error (.report e)
      | .ok report =>
          match dumpsLine depth true report.toValue with
          | .error e => .error (.dumps e)
          | .ok text =>
              match utf8Encode text with
              | .error e => .error (.encode e)
              | .ok bytes => .ok bytes
  | .ok _ => .error .notObject

end Python
