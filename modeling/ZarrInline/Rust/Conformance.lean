import ZarrInline.Rust.Panics
import ZarrInline.Text.Sorting

/-!
# The conformance report in Rust

`bin/conformance.rs`.  The report sorts the keys of a document into those with an issue,
those that decode and those that do not, and encodes again what decodes.

An error of the encoding would end the run without a report.  It cannot come from a
document that was parsed: the bytes of a metadata key are the canonical text of a value
that nests at most 126, inside a document that nests at most 127, so they are parsed.
-/

namespace Rust

variable {C : Crates}

/-! ## The source -/

/-- `String`s and rules in their order, keys first. -/
def issueLe (a b : RustString × Rules.Rule) : Bool :=
  decide (a.1 < b.1 ∨ (a.1 = b.1 ∧ a.2.name.toList ≤ b.2.name.toList))

/-- The report of `run`. -/
structure Report where
  issues : List (Rules.Rule × RustString)
  decoded : Document
  reencoded : Document
  errors : List RustString

/-- What the loop of `run` has collected. -/
structure Collected where
  decoded : Document
  reencoded : Document
  errors : List RustString

/-- `STANDARD.encode`. -/
def standardEncode (data : Bytes) : RustString := ofCodes (Base64.encode data)

/-- The body of the loop of `run`. -/
def visit (C : Crates) (issueKeys : List RustString) (acc : Collected) (m : RustString × Value) :
    Except RustError Collected :=
  if m.1 ∈ issueKeys then .ok acc
  else
    match decodeValue C m.1 m.2 with
    | .error .panic => .error .panic
    | .error _ => .ok { acc with errors := acc.errors ++ [m.1] }
    | .ok data =>
        match encodeValue C m.1 data with
        | .error e => .error e
        | .ok revalue =>
            .ok { acc with
              decoded := acc.decoded.set m.1 (.str (standardEncode data))
              reencoded := acc.reencoded.set m.1 revalue }

/-- `run`. -/
def run (C : Crates) (document : Document) : Except RustError Report :=
  let issues := (validate document).mergeSort fun a b => issueLe (a.key, a.rule) (b.key, b.rule)
  match document.entries.foldlM (visit C (issues.map Rules.ValidationIssue.key)) ⟨.empty, .empty, []⟩ with
  | .error e => .error e
  | .ok acc =>
      .ok {
        issues := issues.map fun i => (i.rule, i.key)
        decoded := acc.decoded
        reencoded := acc.reencoded
        errors := Text.sortStrings acc.errors }

/-- The report as `json!` builds it. -/
def Report.toValue (report : Report) : Value :=
  .obj [
    ("issues".toList, .arr (report.issues.map fun i =>
      .obj [("rule".toList, .str i.1.name.toList), ("key".toList, .str i.2)])),
    ("decoded".toList, .obj report.decoded.entries),
    ("reencoded".toList, .obj report.reencoded.entries),
    ("errors".toList, .arr (report.errors.map Json.str))]

/-- Why `main` prints no report. -/
inductive MainError where
  /-- The input is no UTF-8. -/
  | stdin
  | input (e : RustError)
  | notObject
  | report (e : RustError)
  | panic

/-- `main`: what it prints. -/
def main (C : Crates) (stdin : Bytes) : Except MainError Bytes :=
  match Unicode.decodeUtf8 false stdin with
  | none => .error .stdin
  | some input =>
      match strictFromStr C (ofCodes input) with
      | .error e => .error (.input e)
      | .ok (.obj members) =>
          match run C (.ofList members) with
          | .error .panic => .error .panic
          | .error e => .error (.report e)
          | .ok report =>
              match canonicalToString C report.toValue with
              | .error _ => .error .panic
              | .ok out => .ok (Unicode.encodeUtf8 out)
      | .ok _ => .error .notObject

/-! ## What a report is to be -/

/-- A key occurs in exactly one of the issues, the errors and what decodes, and in a list
once. -/
def OccursOnce (report : Report) (key : RustString) : Prop :=
  ((report.issues.map Prod.snd).count key = 1 ∧ key ∉ report.errors ∧ key ∉ report.decoded.keys) ∨
    (key ∉ report.issues.map Prod.snd ∧ report.errors.count key = 1 ∧ key ∉ report.decoded.keys) ∨
    (key ∉ report.issues.map Prod.snd ∧ key ∉ report.errors ∧ key ∈ report.decoded.keys)

/-- The report is a partition of the keys of the document, and what decodes is encoded to a
value that decodes to the same bytes. -/
structure IsPartition (C : Crates) (document : Document) (report : Report) : Prop where
  occurs : ∀ key ∈ document.keys, OccursOnce report key
  known : ∀ key, key ∈ report.issues.map Prod.snd ∨ key ∈ report.errors ∨
    key ∈ report.decoded.keys → key ∈ document.keys
  same : report.decoded.keys = report.reencoded.keys
  reencoded : ∀ key revalue, report.reencoded.get key = some revalue →
    ∃ value data, document.get key = some value ∧ decodeValue C key value = .ok data ∧
      report.decoded.get key = some (.str (standardEncode data)) ∧
      decodeValue C key revalue = decodeValue C key value

/-! ## What decodes is encoded again -/

/-- The bytes of a value that nests at most 127 are encoded, to a value that decodes to them. -/
theorem exists_encodeValue_of_decodeValue {key : RustString} {value : Value} {data : Bytes}
    (hvalue : IsValue value) (hdepth : value.depth ≤ 127) (h : decodeValue C key value = .ok data) :
    ∃ revalue, encodeValue C key data = .ok revalue ∧ decodeValue C key revalue = .ok data := by
  cases hkey : isMetadataKey key with
  | false =>
      obtain ⟨revalue, hencode⟩ := exists_encodeValue (C := C) hkey data
      exact ⟨revalue, hencode, decodeValue_of_encodeValue hkey hencode⟩
  | true =>
      have hobject : isObject value = true := by
        unfold decodeValue at h
        rw [if_pos hkey] at h
        split at h
        · cases h
        · next hobject => exact not_not.1 hobject
      have hkind := (TakesJson.of_metadata hkey).2 hobject
      have hdata : Unicode.encodeUtf8 (canonicalTree value).text = data := by
        rw [hkind.decodeValue_eq, canonicalToString_eq hvalue.hasNumbers] at h
        exact Except.ok.inj h
      refine ⟨canonicalValue value, ?_, ?_⟩
      · rw [← hdata, encodeValue_canonicalTree hvalue hkind, if_pos hdepth]
      · rw [decodeValue_canonicalValue hvalue.hasNumbers, h]

/-! ## The loop -/

/-- The bytes of a member without an issue. -/
def decodedAt (C : Crates) (key : RustString) (value : Value) : Option Bytes :=
  if (Rules.memberIssue id kinds key value).isSome then none else (decodeValue C key value).toOption

/-- The member has no issue and decodes. -/
def decodes (C : Crates) (key : RustString) (value : Value) : Bool := (decodedAt C key value).isSome

/-- The member has no issue and does not decode. -/
def undecodable (C : Crates) (key : RustString) (value : Value) : Bool :=
  (Rules.memberIssue id kinds key value).isNone && (decodeValue C key value).toOption.isNone

/-- What the loop has collected after the members `ms`. -/
structure Collects (C : Crates) (ms : List (RustString × Value)) (acc : Collected) : Prop where
  decoded : acc.decoded.keys = (ms.filter fun m => decodes C m.1 m.2).map Prod.fst
  reencoded : acc.reencoded.keys = (ms.filter fun m => decodes C m.1 m.2).map Prod.fst
  value : ∀ key revalue, acc.reencoded.get key = some revalue →
    ∃ value data, (key, value) ∈ ms ∧ decodeValue C key value = .ok data ∧
      acc.decoded.get key = some (.str (standardEncode data)) ∧ decodeValue C key revalue = .ok data
  errors : acc.errors = (ms.filter fun m => undecodable C m.1 m.2).map Prod.fst

/-- A new name is written after the others. -/
theorem keys_set_of_not_mem {d : Document} {key : RustString} {value : Value} (h : key ∉ d.keys) :
    (d.set key value).keys = d.keys ++ [key] := by
  have hentries : Json.set Json.noRank key value d.entries = d.entries ++ [(key, value)] := by
    have hnew : key ∉ d.entries.map Prod.fst := h
    rw [Json.set, if_neg hnew]
    exact Json.insertNew_eq_append fun m _ => Json.not_precedes_of_rank_eq_none rfl
  show (Json.set Json.noRank key value d.entries).map Prod.fst = _
  rw [hentries, List.map_append]
  rfl

section Loop

variable {issueKeys : List RustString} {ms : List (RustString × Value)} {acc : Collected}
  {m : RustString × Value}

/-- A member that does not decode, or has an issue. -/
theorem Collects.pass (h : Collects C ms acc) (hnone : decodes C m.1 m.2 = false) :
    Collects C (ms ++ [m])
      { acc with errors := acc.errors ++ if undecodable C m.1 m.2 then [m.1] else [] } where
  decoded := by
    rw [List.filter_append, List.filter_singleton, hnone, h.decoded]
    simp
  reencoded := by
    rw [List.filter_append, List.filter_singleton, hnone, h.reencoded]
    simp
  value := by
    intro key revalue hget
    obtain ⟨value, data, hmem, hrest⟩ := h.value key revalue hget
    exact ⟨value, data, List.mem_append_left _ hmem, hrest⟩
  errors := by
    rw [List.filter_append, List.filter_singleton, List.map_append, ← h.errors]
    cases undecodable C m.1 m.2 <;> rfl

/-- A member that decodes. -/
theorem Collects.decode (h : Collects C ms acc) (hm : m.1 ∉ ms.map Prod.fst) {data : Bytes}
    {revalue : Value} (hissue : (Rules.memberIssue id kinds m.1 m.2).isSome = false)
    (hdata : decodeValue C m.1 m.2 = .ok data) (hdecode : decodeValue C m.1 revalue = .ok data) :
    Collects C (ms ++ [m]) { acc with
      decoded := acc.decoded.set m.1 (.str (standardEncode data))
      reencoded := acc.reencoded.set m.1 revalue } := by
  have hnew : m.1 ∉ (ms.filter fun n => decodes C n.1 n.2).map Prod.fst := fun hmem =>
    hm (List.Sublist.subset (List.filter_sublist.map _) hmem)
  have hdecodes : decodes C m.1 m.2 = true := by
    rw [decodes, decodedAt, hissue, hdata]
    rfl
  have hfails : undecodable C m.1 m.2 = false := by
    rw [undecodable, hdata]
    exact Bool.and_false _
  refine ⟨?_, ?_, ?_, ?_⟩
  · show (acc.decoded.set m.1 _).keys = _
    rw [keys_set_of_not_mem (h.decoded ▸ hnew), h.decoded, List.filter_append,
      List.filter_singleton, hdecodes, List.map_append]
    rfl
  · show (acc.reencoded.set m.1 _).keys = _
    rw [keys_set_of_not_mem (h.reencoded ▸ hnew), h.reencoded, List.filter_append,
      List.filter_singleton, hdecodes, List.map_append]
    rfl
  · intro key w hw
    have hw' : (acc.reencoded.set m.1 revalue).get key = some w := hw
    show ∃ value data', _ ∧ _ ∧ (acc.decoded.set m.1 _).get key = _ ∧ _
    rw [Json.Members.get_set] at hw' ⊢
    split at hw'
    · next hkey =>
        subst hkey
        cases hw'
        exact ⟨m.2, data, by simp, hdata, if_pos rfl, hdecode⟩
    · next hkey =>
        obtain ⟨value, data', hmem, hvalue, hget, hrest⟩ := h.value key w hw'
        exact ⟨value, data', List.mem_append_left _ hmem, hvalue, by rw [if_neg hkey, hget], hrest⟩
  · rw [List.filter_append, List.filter_singleton, hfails, h.errors]
    simp

/-- One pass of the loop. -/
theorem Collects.visit (h : Collects C ms acc) (hm : m.1 ∉ ms.map Prod.fst)
    (hissue : m.1 ∈ issueKeys ↔ (Rules.memberIssue id kinds m.1 m.2).isSome)
    (hvalue : IsValue m.2) (hdepth : m.2.depth ≤ 127) :
    ∃ acc', visit C issueKeys acc m = .ok acc' ∧ Collects C (ms ++ [m]) acc' := by
  rw [Rust.visit]
  cases hsome : (Rules.memberIssue id kinds m.1 m.2).isSome with
  | true =>
      have hnone : decodes C m.1 m.2 = false := by
        rw [decodes, decodedAt, if_pos hsome]
        rfl
      have hfails : undecodable C m.1 m.2 = false := by
        rw [undecodable, Option.isNone_eq_false_iff.2 hsome, Bool.false_and]
      have hpass := h.pass hnone
      rw [hfails] at hpass
      refine ⟨acc, by rw [if_pos (hissue.2 hsome)], ?_⟩
      simpa using hpass
  | false =>
      rw [if_neg fun hmem => by rw [hissue, hsome] at hmem; cases hmem]
      cases hdata : decodeValue C m.1 m.2 with
      | ok data =>
          obtain ⟨revalue, hencode, hdecode⟩ := exists_encodeValue_of_decodeValue hvalue hdepth hdata
          exact ⟨_, by simp only [hencode], h.decode hm hsome hdata hdecode⟩
      | error e =>
          have hnone : decodes C m.1 m.2 = false := by
            rw [decodes, decodedAt, hsome, hdata]
            rfl
          have hfails : undecodable C m.1 m.2 = true := by
            rw [undecodable, hdata, Option.isNone_iff_eq_none.2 (Option.not_isSome_iff_eq_none.1
              (by rw [hsome]; exact Bool.false_ne_true))]
            rfl
          have hpass := h.pass hnone
          rw [hfails] at hpass
          cases e with
          | panic => exact absurd trivial (decodeValue_not_panic (fun _ => hvalue.hasNumbers) hdata)
          | _ => exact ⟨_, rfl, hpass⟩

/-- The loop ends, and has collected every member. -/
theorem exists_foldlM_visit (hnodup : (ms.map Prod.fst).Nodup)
    (hissue : ∀ m ∈ ms, m.1 ∈ issueKeys ↔ (Rules.memberIssue id kinds m.1 m.2).isSome)
    (hvalue : ∀ m ∈ ms, IsValue m.2 ∧ m.2.depth ≤ 127) :
    ∃ acc, ms.foldlM (Rust.visit C issueKeys) ⟨.empty, .empty, []⟩ = .ok acc ∧ Collects C ms acc := by
  induction ms using List.reverseRecOn with
  | nil => exact ⟨_, rfl, rfl, rfl, nofun, rfl⟩
  | append_singleton ms m ih =>
      rw [List.map_append, List.nodup_append] at hnodup
      obtain ⟨acc, hacc, hcollects⟩ := ih hnodup.1 (fun n hn => hissue n (by simp [hn]))
        fun n hn => hvalue n (by simp [hn])
      have hm : m.1 ∉ ms.map Prod.fst := fun hmem => hnodup.2.2 m.1 hmem m.1 (by simp) rfl
      obtain ⟨hmvalue, hmdepth⟩ := hvalue m (by simp)
      obtain ⟨acc', hacc', hcollects'⟩ := hcollects.visit hm (hissue m (by simp)) hmvalue hmdepth
      refine ⟨acc', ?_, hcollects'⟩
      rw [List.foldlM_append, hacc]
      simp only [bind, Except.bind, List.foldlM_cons, hacc', List.foldlM_nil]
      rfl

end Loop

/-! ## The report of a document -/

/-- A parsed document nests at most 127. -/
theorem depth_le_of_strictFromSlice {data : Bytes} {value : Value}
    (h : strictFromSlice C data = .ok value) : value.depth ≤ 127 := by
  obtain ⟨text, raw, -, hparse, hscalars, rfl⟩ :=
    serdeRead_eq_some_iff.1 (strictFromSlice_eq_ok_iff.1 h).1
  have hfits : serdeLimits.Fits raw.depth := (Json.parse_eq_ok_iff.1 hparse).2.2
  have hraw : raw.depth ≤ 127 := by simpa [Json.Limits.Fits, serdeLimits] using hfits
  rw [ofRaw_eq_load hscalars]
  exact (Json.depth_load_le raw).trans hraw

variable {document : Document}

/-- What a report says of the keys of a document. -/
structure Reports (C : Crates) (document : Document) (report : Report) : Prop where
  collects : Collects C document.entries ⟨report.decoded, report.reencoded,
    (document.entries.filter fun m => undecodable C m.1 m.2).map Prod.fst⟩
  issues : (report.issues.map Prod.snd).Perm
    ((document.entries.filter fun m => (Rules.memberIssue id kinds m.1 m.2).isSome).map Prod.fst)
  errors : report.errors.Perm
    ((document.entries.filter fun m => undecodable C m.1 m.2).map Prod.fst)

/-- `run` returns a report. -/
theorem exists_run (hvalue : ∀ m ∈ document.entries, IsValue m.2 ∧ m.2.depth ≤ 127) :
    ∃ report, run C document = .ok report ∧ Reports C document report := by
  let sorted := (validate document).mergeSort fun a b => issueLe (a.key, a.rule) (b.key, b.rule)
  have hsorted : sorted.Perm (validate document) := List.mergeSort_perm _ _
  obtain ⟨acc, hacc, hcollects⟩ := @exists_foldlM_visit C (sorted.map Rules.ValidationIssue.key)
    document.entries document.nodup_keys
    (fun m hm => by
      have hget := Json.Members.get_of_mem hm
      rw [(hsorted.map _).mem_iff, validate, Rules.mem_keys_validate]
      constructor
      · rintro ⟨value, hvalue, hissue⟩
        rw [hget] at hvalue
        cases hvalue
        exact hissue
      · exact fun hissue => ⟨m.2, hget, hissue⟩)
    hvalue
  refine ⟨_, by rw [run, hacc], ?_, ?_, ?_⟩
  · rw [← hcollects.errors]
    exact hcollects
  · show ((sorted.map fun i => (i.rule, i.key)).map Prod.snd).Perm _
    rw [List.map_map]
    exact (hsorted.map _).trans (List.Perm.of_eq Rules.keys_validate)
  · rw [← hcollects.errors]
    exact Text.sortStrings_perm _

/-- A report is a partition of the keys. -/
theorem Reports.isPartition {report : Report} (h : Reports C document report) :
    IsPartition C document report where
  occurs := by
    intro key hkey
    obtain ⟨value, hvalue⟩ := Option.isSome_iff_exists.1 (Json.Members.get_isSome_iff.2 hkey)
    have hissues := (h.issues.count_eq key).trans (Json.Members.count_map_filter
      (fun k v => (Rules.memberIssue id kinds k v).isSome) hvalue)
    have herrors := (h.errors.count_eq key).trans
      (Json.Members.count_map_filter (undecodable C) hvalue)
    have hdecoded : key ∈ report.decoded.keys ↔ decodes C key value = true := by
      rw [h.collects.decoded]
      exact Json.Members.mem_map_filter hvalue
    rw [OccursOnce, hdecoded, ← List.count_eq_zero, ← List.count_eq_zero, hissues, herrors, decodes,
      undecodable, decodedAt]
    cases Rules.memberIssue id kinds key value with
    | some issue => exact Or.inl ⟨rfl, rfl, Bool.false_ne_true⟩
    | none =>
        cases decodeValue C key value with
        | ok data => exact Or.inr (Or.inr ⟨rfl, rfl, rfl⟩)
        | error e => exact Or.inr (Or.inl ⟨rfl, rfl, Bool.false_ne_true⟩)
  known := by
    rintro key (hkey | hkey | hkey)
    · exact Json.Members.mem_keys_of_mem_filter
        (p := fun k v => (Rules.memberIssue id kinds k v).isSome) (h.issues.mem_iff.1 hkey)
    · exact Json.Members.mem_keys_of_mem_filter (h.errors.mem_iff.1 hkey)
    · exact Json.Members.mem_keys_of_mem_filter (h.collects.decoded ▸ hkey)
  same := h.collects.decoded.trans h.collects.reencoded.symm
  reencoded := by
    intro key revalue hget
    obtain ⟨value, data, hmem, hdata, hdecoded, hdecode⟩ := h.collects.value key revalue hget
    exact ⟨value, data, Json.Members.get_of_mem hmem, hdata, hdecoded, hdecode.trans hdata.symm⟩

/-- Over every document that was parsed strictly, `run` returns a report, and the report is a
partition of the keys whose encoded values decode as those of the document. -/
theorem run_total (C : Crates) (text : RustString) (document : Document)
    (h : strictFromStr C text = .ok (.obj document.entries)) :
    ∃ report, run C document = .ok report ∧ IsPartition C document report := by
  have hvalue : IsValue (.obj document.entries) := isValue_of_strictFromSlice h
  have hdepth : (Json.obj document.entries : Value).depth ≤ 127 := depth_le_of_strictFromSlice h
  obtain ⟨report, hrun, hreports⟩ := @exists_run C document fun m hm =>
    ⟨(((Json.every_obj _).1 hvalue).2 m hm).2,
      ((Json.depth_obj_le_iff.1 hdepth m hm).trans (Nat.le_succ 126))⟩
  exact ⟨report, hrun, hreports.isPartition⟩

/-- A document of three members. -/
def sampleDocument : Document :=
  ((Json.Members.empty.set "a/c/0".toList (.str "AAEC".toList)).set "b".toList
    (.arr [.num (.ofInt 1)])).set "c".toList .null

theorem run_total_sample :
    ∃ report, run crates sampleDocument = .ok report ∧
      IsPartition crates sampleDocument report := by
  have hcodes : codes "\x7b\"a/c/0\":\"AAEC\",\"b\":[1],\"c\":null\x7d".toList
      = (canonicalTree (.obj sampleDocument.entries)).text := by decide
  have hvalue : IsValue (.obj sampleDocument.entries) := by decide
  have hcanonical : canonicalValue (.obj sampleDocument.entries) = .obj sampleDocument.entries := rfl
  have hdepth : (Json.obj sampleDocument.entries : Value).depth ≤ 127 := by decide
  refine run_total crates "\x7b\"a/c/0\":\"AAEC\",\"b\":[1],\"c\":null\x7d".toList sampleDocument ?_
  rw [strictFromStr, asBytes, hcodes, strictFromSlice_canonicalTree hvalue, if_pos hdepth, hcanonical]

end Rust
