import ZarrInline.TypeScript.Skipping

/-!
# The conformance report in TypeScript

`conformance.ts`.  The report sorts the keys of a document into those with an issue, those
that decode and those that do not.  It collects what decodes in two objects by assignment
to a property, and on an object that inherits from `Object.prototype` the property
`__proto__` is an accessor: what is assigned there is dropped, or becomes the prototype.

So the report is a partition of the keys (`IsPartition`) for every document but those with
a member `__proto__` that decodes.
-/

namespace TypeScript

/-! ## Assignment to a property -/

/-- The prototype of an object: `Object.prototype`, `null`, or another object. -/
inductive Prototype where
  | object
  | null
  | other (v : JsValue)

/-- An object that is filled by assignments. -/
structure Accumulator where
  own : Document
  prototype : Prototype

/-- `{}`. -/
def Accumulator.empty : Accumulator := ⟨.empty, .object⟩

/-- The name of the accessor of `Object.prototype`. -/
def protoKey : JsString := js "__proto__"

/-- Looking the property `__proto__` up finds the accessor. -/
def Prototype.hasAccessor : Prototype → Bool
  | .object => true
  | .null => false
  | .other (.obj ms) => (Json.lookup protoKey ms).isNone
  | .other _ => true

/-- The setter of `__proto__`: an object or `null` becomes the prototype, any other value
is dropped. -/
def Accumulator.setPrototype (o : Accumulator) : JsValue → Accumulator
  | .null => { o with prototype := .null }
  | .arr xs => { o with prototype := .other (.arr xs) }
  | .obj ms => { o with prototype := .other (.obj ms) }
  | .num .function => { o with prototype := .other (.num .function) }
  | .num (.exotic plain) => { o with prototype := .other (.num (.exotic plain)) }
  | _ => o

/-- `o[key] = value`. -/
def Accumulator.assign (o : Accumulator) (key : JsString) (value : JsValue) : Accumulator :=
  if key = protoKey ∧ (o.own.get key).isNone ∧ o.prototype.hasAccessor then o.setPrototype value
  else { o with own := o.own.set key value }

/-- The object as a value. -/
def Accumulator.toValue (o : Accumulator) : JsValue :=
  match o.prototype with
  | .other _ => .num (.exotic false)
  | _ => .obj o.own.entries

/-! ## The report -/

/-- `compareCodePoints`. -/
def compareCodePoints (a b : JsString) : ℤ := go (Unicode.codePoints a) (Unicode.codePoints b)
where
  /-- The loop, over the code points that are left. -/
  go : List ℕ → List ℕ → ℤ
    | ca :: as, cb :: bs => if ca ≠ cb then (if ca < cb then -1 else 1) else go as bs
    | as, bs => (Unicode.encodeUtf16 as).length - (Unicode.encodeUtf16 bs).length

/-- `Array.prototype.sort` with a comparison. -/
def sortBy {α : Type} (compare : α → α → ℤ) (xs : List α) : List α :=
  xs.mergeSort fun a b => decide (compare a b ≤ 0)

/-- `ConformanceReport`. -/
structure ConformanceReport where
  issues : List (Rules.Rule × JsString)
  decoded : Accumulator
  reencoded : Accumulator
  errors : List JsString

/-- What the loop of `run` has collected. -/
structure Collected where
  decoded : Accumulator
  reencoded : Accumulator
  errors : List JsString

/-- The body of the loop of `run`. -/
def visit (issueKeys : List JsString) (acc : Collected) (m : JsString × JsValue) :
    Except JsError Collected :=
  if m.1 ∈ issueKeys then .ok acc
  else
    match decodeValue m.1 m.2 with
    | .error _ => .ok { acc with errors := acc.errors ++ [m.1] }
    | .ok data =>
        match encodeValue m.1 data with
        | .error e => .error e
        | .ok encoded =>
            .ok { acc with
              decoded := acc.decoded.assign m.1 (.str (base64Encode data))
              reencoded := acc.reencoded.assign m.1 encoded }

/-- The order of the issues: by key, then by rule. -/
def compareIssues (a b : Rules.Rule × JsString) : ℤ :=
  if compareCodePoints a.2 b.2 ≠ 0 then compareCodePoints a.2 b.2
  else compareCodePoints (js a.1.name) (js b.1.name)

/-- `run`. -/
def run (document : Document) : Except JsError ConformanceReport :=
  let issues := validate document
  match document.entries.foldlM (visit (issues.map Rules.ValidationIssue.key)) ⟨.empty, .empty, []⟩ with
  | .error e => .error e
  | .ok acc =>
      .ok {
        issues := sortBy compareIssues (issues.map fun i => (i.rule, i.key))
        decoded := acc.decoded
        reencoded := acc.reencoded
        errors := sortBy compareCodePoints acc.errors }

/-- The report as a value. -/
def ConformanceReport.toValue (report : ConformanceReport) : JsValue :=
  .obj [
    (js "issues", .arr (report.issues.map fun i =>
      .obj [(js "rule", .str (js i.1.name)), (js "key", .str i.2)])),
    (js "decoded", report.decoded.toValue),
    (js "reencoded", report.reencoded.toValue),
    (js "errors", .arr (report.errors.map Json.str))]

/-- Why `main` prints no report. -/
inductive MainError where
  | invalidJson (e : JsError)
  | notObject
  | report (e : JsError)

/-- `main`, from the text of its input: what it writes to its output. -/
def main (text : JsString) : Except MainError Bytes :=
  match strictParse text with
  | .error e => .error (.invalidJson e)
  | .ok (.obj members) =>
      match run (.ofList members) with
      | .error e => .error (.report e)
      | .ok report =>
          match canonicalStringify report.toValue with
          | .error e => .error (.report e)
          | .ok out => .ok (utf8Encode out)
  | .ok _ => .error .notObject

/-! ## What a report is to be -/

/-- No key and no string of a document has a lone surrogate. -/
def NoLoneSurrogates (document : Document) : Prop :=
  ∀ key value, document.get key = some value →
    Unicode.IsWellFormed key ∧ value.Every Unicode.IsWellFormed (fun _ => True) (fun _ => True)

/-- A key occurs in exactly one of the issues, the errors and what decodes, and in a list
once. -/
def OccursOnce (report : ConformanceReport) (key : JsString) : Prop :=
  ((report.issues.map Prod.snd).count key = 1 ∧ key ∉ report.errors ∧
      key ∉ report.decoded.own.keys) ∨
    (key ∉ report.issues.map Prod.snd ∧ report.errors.count key = 1 ∧
      key ∉ report.decoded.own.keys) ∨
    (key ∉ report.issues.map Prod.snd ∧ key ∉ report.errors ∧ key ∈ report.decoded.own.keys)

/-- The report is a partition of the keys of the document, it decodes and encodes each
member, and it can be written. -/
structure IsPartition (document : Document) (report : ConformanceReport) : Prop where
  occurs : ∀ key ∈ document.keys, OccursOnce report key
  known : ∀ key, key ∈ report.issues.map Prod.snd ∨ key ∈ report.errors → key ∈ document.keys
  same : ∀ key, key ∈ report.decoded.own.keys ↔ key ∈ report.reencoded.own.keys
  decoded : ∀ key text, report.decoded.own.get key = some text →
    ∃ value data, document.get key = some value ∧ decodeValue key value = .ok data ∧
      text = .str (base64Encode data)
  reencoded : ∀ key encoded, report.reencoded.own.get key = some encoded →
    ∃ value data, document.get key = some value ∧ decodeValue key value = .ok data ∧
      decodeValue key encoded = .ok data
  written : NoLoneSurrogates document → ∃ text, canonicalStringify report.toValue = .ok text

/-! ## What decodes is encoded again -/

/-- The bytes of a member without an issue. -/
def decodedAt (key : JsString) (value : JsValue) : Option Bytes :=
  if (memberIssue key value).isSome then none else (decodeValue key value).toOption

/-- The member has no issue and does not decode. -/
def undecodable (key : JsString) (value : JsValue) : Bool :=
  (memberIssue key value).isNone && (decodeValue key value).toOption.isNone

theorem isWellFormed_base64Encode (data : Bytes) : Unicode.IsWellFormed (base64Encode data) :=
  Unicode.isWellFormed_map_ofNat fun c hc => (Base64.encode_lt data c hc).trans (by norm_num)

/-- What `encodeValue` stores at a byte key can be written. -/
theorem every_encodeValue_byteKey {key : JsString} (hkey : isMetadataKey key = false) {data : Bytes}
    {encoded : JsValue} (h : encodeValue key data = .ok encoded) :
    encoded.Every Unicode.IsWellFormed JsAtom.IsCanonical (fun _ => True) := by
  cases hinl : tryInlineJson data with
  | none =>
      rw [(encodeValue_of_none hkey hinl).1] at h
      cases h
      exact (Json.every_str _).2 (isWellFormed_base64Encode data)
  | some v =>
      rw [(encodeValue_of_some hkey hinl).1] at h
      cases h
      exact (tryInlineJson_sound hinl).2.1.imp (fun _ => id) (fun _ => id) fun _ _ => trivial

/-- The bytes of a value are encoded, to a value that decodes to them and can be written. -/
theorem exists_encodeValue_of_decodeValue {key : JsString} {value : JsValue} {data : Bytes}
    (hord : value.Every (fun _ => True) (fun _ => True) (Json.Ordered arrayIndex?))
    (h : decodeValue key value = .ok data) :
    ∃ encoded, encodeValue key data = .ok encoded ∧ decodeValue key encoded = .ok data ∧
      encoded.Every Unicode.IsWellFormed JsAtom.IsCanonical (fun _ => True) := by
  cases hkey : isMetadataKey key with
  | false =>
      obtain ⟨w, hw, hdec⟩ := exists_encodeValue hkey data
      exact ⟨w, hw, hdec, every_encodeValue_byteKey hkey hw⟩
  | true =>
      simp only [decodeValue, hkey, if_true] at h
      split_ifs at h with hplain
      obtain ⟨s, hs, rfl⟩ := Json.exists_of_map_eq_ok h
      have hcont := isContainer_of_isPlainObject (Or.inr hplain) hs
      have hjson : IsJson value :=
        ((canonicalStringify_eq_ok_iff.1 hs).1.and hord).imp (fun _ h => h.1) (fun _ h => h.1)
          fun _ h => h.2
      have hplain' : isPlainObject (value.map id reparse) = true := by
        cases value with
        | obj ms => rw [Json.map_obj]; rfl
        | arr xs => cases hplain
        | _ => exact hcont.elim
      have hs' : canonicalStringify (value.map id reparse) = .ok s := by
        rw [canonicalStringify_map_reparse hcont, hs]
      refine ⟨value.map id reparse, ?_, ?_, (canonicalStringify_eq_ok_iff.1 hs').1⟩
      · simp only [encodeValue, hkey, if_true, utf8Decode_utf8Encode (isWellFormed_canonicalStringify hs),
          bind, Except.bind, strictParse_canonicalStringify hjson hs, hplain']
      · simp only [decodeValue, hkey, if_true, hplain', hs', Except.map]

/-! ## The loop -/

section Assign

variable {o : Accumulator} {key l : JsString} {value : JsValue}

/-- An assignment writes a member, except at `__proto__`. -/
theorem get_assign (hown : o.own.get protoKey = none) (hproto : key = protoKey → o.prototype = .object) :
    (o.assign key value).own.get l
      = if key = l ∧ key ≠ protoKey then some value else o.own.get l := by
  rw [Accumulator.assign]
  rcases eq_or_ne key protoKey with rfl | hne
  · have hset : (o.setPrototype value).own = o.own := by
      rw [Accumulator.setPrototype.eq_def]
      split <;> rfl
    rw [if_pos ⟨rfl, by rw [hown]; rfl, by rw [hproto rfl]; rfl⟩, hset,
      if_neg fun h => h.2 rfl]
  · rw [if_neg fun h => hne h.1]
    show (o.own.set key value).get l = _
    rw [Json.Members.get_set]
    simp only [hne, ne_eq, not_false_eq_true, and_true]

theorem prototype_assign (hne : key ≠ protoKey) : (o.assign key value).prototype = o.prototype := by
  rw [Accumulator.assign, if_neg fun h => hne h.1]

end Assign

/-- What the loop has collected after the members `ms`. -/
structure Collects (ms : List (JsString × JsValue)) (acc : Collected) : Prop where
  decoded : ∀ key, acc.decoded.own.get key =
    if key = protoKey then none
    else ((Json.lookup key ms).bind (decodedAt key)).map fun data => .str (base64Encode data)
  reencoded : ∀ key, (acc.reencoded.own.get key).map (decodeValue key) =
    if key = protoKey then none
    else ((Json.lookup key ms).bind (decodedAt key)).map Except.ok
  prototype : (Json.lookup protoKey ms).bind (decodedAt protoKey) = none →
    acc.decoded.prototype = .object ∧ acc.reencoded.prototype = .object
  written : ∀ key encoded, acc.reencoded.own.get key = some encoded →
    encoded.Every Unicode.IsWellFormed JsAtom.IsCanonical (fun _ => True)
  errors : acc.errors = (ms.filter fun m => undecodable m.1 m.2).map Prod.fst

section Loop

variable {issueKeys : List JsString} {ms : List (JsString × JsValue)} {acc : Collected}
  {m : JsString × JsValue}

theorem lookup_decodedAt (hm : m.1 ∉ ms.map Prod.fst) (key : JsString) :
    (Json.lookup key (ms ++ [m])).bind (decodedAt key)
      = if m.1 = key then decodedAt m.1 m.2 else (Json.lookup key ms).bind (decodedAt key) := by
  rw [Json.lookup_append_singleton hm]
  split_ifs with hkey
  · subst hkey
    rfl
  · rfl

/-- A member that does not decode, or has an issue. -/
theorem Collects.pass (h : Collects ms acc) (hm : m.1 ∉ ms.map Prod.fst)
    (hnone : decodedAt m.1 m.2 = none) :
    Collects (ms ++ [m])
      { acc with errors := acc.errors ++ if undecodable m.1 m.2 then [m.1] else [] } := by
  have hlookup : ∀ key, (Json.lookup key (ms ++ [m])).bind (decodedAt key)
      = (Json.lookup key ms).bind (decodedAt key) := by
    intro key
    rw [lookup_decodedAt hm, hnone]
    split_ifs with hkey
    · rw [← hkey, Json.lookup_eq_none_iff.2 hm]
      rfl
    · rfl
  refine ⟨?_, ?_, ?_, h.written, ?_⟩
  · simp only [hlookup]
    exact h.decoded
  · simp only [hlookup]
    exact h.reencoded
  · rw [hlookup]
    exact h.prototype
  · rw [List.filter_append, List.filter_singleton, List.map_append, ← h.errors]
    cases undecodable m.1 m.2 <;> rfl

/-- A member that decodes. -/
theorem Collects.decode (h : Collects ms acc) (hm : m.1 ∉ ms.map Prod.fst) {data : Bytes}
    {encoded : JsValue} (hdata : decodedAt m.1 m.2 = some data)
    (hdec : decodeValue m.1 encoded = .ok data)
    (hevery : encoded.Every Unicode.IsWellFormed JsAtom.IsCanonical (fun _ => True)) :
    Collects (ms ++ [m]) { acc with
      decoded := acc.decoded.assign m.1 (.str (base64Encode data))
      reencoded := acc.reencoded.assign m.1 encoded } := by
  have hplain : m.1 = protoKey → acc.decoded.prototype = .object ∧ acc.reencoded.prototype = .object := by
    intro hproto
    refine h.prototype ?_
    rw [← hproto, Json.lookup_eq_none_iff.2 hm]
    rfl
  have hdecoded : acc.decoded.own.get protoKey = none := by rw [h.decoded, if_pos rfl]
  have hreencoded : acc.reencoded.own.get protoKey = none := by
    have hmap := h.reencoded protoKey
    rw [if_pos rfl] at hmap
    exact Option.map_eq_none_iff.1 hmap
  refine ⟨fun key => ?_, fun key => ?_, fun hproto => ?_, fun key e he => ?_, ?_⟩
  · show (acc.decoded.assign m.1 _).own.get key = _
    rw [get_assign hdecoded fun hkey => (hplain hkey).1, lookup_decodedAt hm, hdata, h.decoded]
    rcases eq_or_ne key protoKey with rfl | hne
    · rw [if_neg fun hkey => hkey.2 hkey.1, if_pos rfl, if_pos rfl]
    · rw [if_neg hne, if_neg hne]
      by_cases hkey : m.1 = key
      · rw [if_pos ⟨hkey, hkey ▸ hne⟩, if_pos hkey]
        rfl
      · rw [if_neg fun hand => hkey hand.1, if_neg hkey]
  · show ((acc.reencoded.assign m.1 _).own.get key).map _ = _
    rw [get_assign hreencoded fun hkey => (hplain hkey).2, lookup_decodedAt hm, hdata]
    rcases eq_or_ne key protoKey with rfl | hne
    · rw [if_neg fun hkey => hkey.2 hkey.1, if_pos rfl, hreencoded]
      rfl
    · rw [if_neg hne]
      by_cases hkey : m.1 = key
      · rw [if_pos ⟨hkey, hkey ▸ hne⟩, if_pos hkey, ← hkey, Option.map_some, hdec]
        rfl
      · rw [if_neg fun hand => hkey hand.1, if_neg hkey, h.reencoded, if_neg hne]
  · rw [lookup_decodedAt hm, hdata] at hproto
    split_ifs at hproto with hkey
    obtain ⟨h1, h2⟩ := h.prototype hproto
    exact ⟨(prototype_assign hkey).trans h1, (prototype_assign hkey).trans h2⟩
  · replace he : (acc.reencoded.assign m.1 encoded).own.get key = some e := he
    rw [get_assign hreencoded fun hkey => (hplain hkey).2] at he
    split_ifs at he
    · cases he
      exact hevery
    · exact h.written key e he
  · have hfails : undecodable m.1 m.2 = false := by
      rw [decodedAt] at hdata
      split_ifs at hdata
      rw [undecodable, hdata, Option.isNone_some, Bool.and_false]
    rw [List.filter_append, List.filter_singleton, hfails, h.errors]
    simp

/-- One pass of the loop. -/
theorem Collects.visit (h : Collects ms acc) (hm : m.1 ∉ ms.map Prod.fst)
    (hissue : m.1 ∈ issueKeys ↔ (memberIssue m.1 m.2).isSome)
    (hord : m.2.Every (fun _ => True) (fun _ => True) (Json.Ordered arrayIndex?)) :
    ∃ acc', visit issueKeys acc m = .ok acc' ∧ Collects (ms ++ [m]) acc' := by
  rw [TypeScript.visit]
  by_cases hsome : (memberIssue m.1 m.2).isSome
  · have hnone : decodedAt m.1 m.2 = none := by rw [decodedAt, if_pos hsome]
    have hfails : undecodable m.1 m.2 = false := by
      rw [undecodable, Option.isNone_eq_false_iff.2 hsome, Bool.false_and]
    have hpass := h.pass hm hnone
    rw [hfails] at hpass
    refine ⟨acc, by rw [if_pos (hissue.2 hsome)], ?_⟩
    simpa using hpass
  · rw [if_neg fun hmem => hsome (hissue.1 hmem)]
    cases hdata : decodeValue m.1 m.2 with
    | error e =>
        have hnone : decodedAt m.1 m.2 = none := by
          rw [decodedAt, if_neg hsome, hdata]
          rfl
        have hfails : undecodable m.1 m.2 = true := by
          rw [undecodable, hdata, Option.not_isSome_iff_eq_none.1 hsome]
          rfl
        have hpass := h.pass hm hnone
        rw [hfails] at hpass
        exact ⟨_, rfl, hpass⟩
    | ok data =>
        obtain ⟨encoded, hencoded, hdec, hevery⟩ := exists_encodeValue_of_decodeValue hord hdata
        have hsome' : decodedAt m.1 m.2 = some data := by
          rw [decodedAt, if_neg hsome, hdata]
          rfl
        exact ⟨_, by simp only [hencoded], h.decode hm hsome' hdec hevery⟩

/-- The loop ends, and has collected every member. -/
theorem exists_foldlM_visit (hnodup : (ms.map Prod.fst).Nodup)
    (hissue : ∀ m ∈ ms, m.1 ∈ issueKeys ↔ (memberIssue m.1 m.2).isSome)
    (hord : ∀ m ∈ ms, m.2.Every (fun _ => True) (fun _ => True) (Json.Ordered arrayIndex?)) :
    ∃ acc, ms.foldlM (TypeScript.visit issueKeys) ⟨.empty, .empty, []⟩ = .ok acc ∧ Collects ms acc := by
  induction ms using List.reverseRecOn with
  | nil =>
      refine ⟨_, rfl, fun key => ?_, fun key => ?_, fun _ => ⟨rfl, rfl⟩, fun key e he => ?_, rfl⟩
      · show none = _
        split_ifs <;> rfl
      · show none = _
        split_ifs <;> rfl
      · cases he
  | append_singleton ms m ih =>
      rw [List.map_append, List.nodup_append] at hnodup
      obtain ⟨acc, hacc, hcollects⟩ := ih hnodup.1 (fun n hn => hissue n (by simp [hn]))
        fun n hn => hord n (by simp [hn])
      have hm : m.1 ∉ ms.map Prod.fst := fun hmem => hnodup.2.2 m.1 hmem m.1 (by simp) rfl
      obtain ⟨acc', hacc', hcollects'⟩ := hcollects.visit hm (hissue m (by simp)) (hord m (by simp))
      refine ⟨acc', ?_, hcollects'⟩
      rw [List.foldlM_append, hacc]
      simp only [bind, Except.bind, List.foldlM_cons, hacc', List.foldlM_nil]
      rfl

end Loop

/-! ## The report of a document -/

/-- What a report says of the keys of a document. -/
structure Reports (document : Document) (report : ConformanceReport) : Prop where
  collects : Collects document.entries ⟨report.decoded, report.reencoded,
    (document.entries.filter fun m => undecodable m.1 m.2).map Prod.fst⟩
  issues : (report.issues.map Prod.snd).Perm
    ((document.entries.filter fun m => (memberIssue m.1 m.2).isSome).map Prod.fst)
  errors : report.errors.Perm
    ((document.entries.filter fun m => undecodable m.1 m.2).map Prod.fst)

/-- Every object enumerates its members in order.  This holds of every value of the
language. -/
def InOrder (document : Document) : Prop :=
  ∀ key value, document.get key = some value →
    value.Every (fun _ => True) (fun _ => True) (Json.Ordered arrayIndex?)

variable {document : Document} {report : ConformanceReport}

/-- `run` returns a report. -/
theorem exists_run (hord : InOrder document) :
    ∃ report, run document = .ok report ∧ Reports document report := by
  obtain ⟨acc, hacc, hcollects⟩ := @exists_foldlM_visit
    ((validate document).map Rules.ValidationIssue.key) document.entries document.nodup_keys
    (fun m hm => by
      have hget := Json.Members.get_of_mem hm
      rw [mem_keys_validate]
      constructor
      · rintro ⟨value, hvalue, hissue⟩
        rw [hget] at hvalue
        cases hvalue
        exact hissue
      · exact fun hissue => ⟨m.2, hget, hissue⟩)
    fun m hm => hord m.1 m.2 (Json.Members.get_of_mem hm)
  have hsort : ∀ {α : Type} (compare : α → α → ℤ) (xs : List α), (sortBy compare xs).Perm xs :=
    fun compare xs => List.mergeSort_perm _ _
  rw [run, hacc]
  refine ⟨_, rfl, ?_, ?_, ?_⟩
  · rw [← hcollects.errors]
    exact hcollects
  · refine ((hsort _ _).map Prod.snd).trans ?_
    rw [List.map_map]
    exact (List.Perm.of_eq Rules.keys_validate)
  · rw [← hcollects.errors]
    exact hsort _ _

/-- A key is counted once, unless it is `__proto__` and its member decodes. -/
theorem Reports.occursOnce (h : Reports document report) {key : JsString} {value : JsValue}
    (hvalue : document.get key = some value)
    (hproto : key = protoKey → decodedAt key value = none) : OccursOnce report key := by
  have hissues := (h.issues.count_eq key).trans (Json.Members.count_map_filter (fun k v => (memberIssue k v).isSome) hvalue)
  have herrors := (h.errors.count_eq key).trans (Json.Members.count_map_filter undecodable hvalue)
  have hdecoded : key ∈ report.decoded.own.keys ↔ (decodedAt key value).isSome := by
    rw [← Json.Members.get_isSome_iff, h.collects.decoded]
    split_ifs with hkey
    · rw [hproto hkey]
      rfl
    · rw [Option.isSome_map, show Json.lookup key document.entries = some value from hvalue]
      rfl
  rw [OccursOnce, hdecoded, ← List.count_eq_zero, ← List.count_eq_zero, hissues, herrors]
  rw [undecodable, decodedAt]
  cases memberIssue key value with
  | some issue => exact Or.inl ⟨rfl, rfl, Bool.false_ne_true⟩
  | none =>
      cases decodeValue key value with
      | ok data => exact Or.inr (Or.inr ⟨rfl, rfl, rfl⟩)
      | error e => exact Or.inr (Or.inl ⟨rfl, rfl, Bool.false_ne_true⟩)

/-- A member `__proto__` that decodes is lost. -/
theorem Reports.not_occursOnce (h : Reports document report) {value : JsValue} {data : Bytes}
    (hvalue : document.get protoKey = some value) (hdata : decodedAt protoKey value = some data) :
    ¬ OccursOnce report protoKey := by
  have hissues := (h.issues.count_eq protoKey).trans
    (Json.Members.count_map_filter (fun k v => (memberIssue k v).isSome) hvalue)
  have herrors := (h.errors.count_eq protoKey).trans (Json.Members.count_map_filter undecodable hvalue)
  have hdecoded : protoKey ∉ report.decoded.own.keys := by
    rw [← Json.Members.get_eq_none_iff, h.collects.decoded, if_pos rfl]
  rw [decodedAt] at hdata
  split_ifs at hdata with hissue
  rw [if_neg hissue] at hissues
  rw [undecodable, hdata, Option.isNone_some, Bool.and_false] at herrors
  rintro (⟨h1, -⟩ | ⟨-, h2, -⟩ | ⟨-, -, h3⟩)
  · rw [hissues] at h1
    cases h1
  · rw [herrors] at h2
    cases h2
  · exact hdecoded h3

theorem decodeValue_of_decodedAt {key : JsString} {value : JsValue} {data : Bytes}
    (h : decodedAt key value = some data) : decodeValue key value = .ok data := by
  rw [decodedAt] at h
  split_ifs at h
  cases hvalue : decodeValue key value with
  | error e => rw [hvalue] at h; cases h
  | ok data' => rw [hvalue] at h; cases h; rfl

theorem Reports.exists_of_decoded (h : Reports document report) {key : JsString} {text : JsValue}
    (htext : report.decoded.own.get key = some text) :
    ∃ value data, document.get key = some value ∧ decodeValue key value = .ok data ∧
      text = .str (base64Encode data) := by
  rw [h.collects.decoded] at htext
  split_ifs at htext
  obtain ⟨data, hdata, rfl⟩ := Option.map_eq_some_iff.1 htext
  obtain ⟨value, hvalue, hdec⟩ := Option.bind_eq_some_iff.1 hdata
  exact ⟨value, data, hvalue, decodeValue_of_decodedAt hdec, rfl⟩

theorem Reports.exists_of_reencoded (h : Reports document report) {key : JsString}
    {encoded : JsValue} (hencoded : report.reencoded.own.get key = some encoded) :
    ∃ value data, document.get key = some value ∧ decodeValue key value = .ok data ∧
      decodeValue key encoded = .ok data := by
  have hmap : (report.reencoded.own.get key).map (decodeValue key) = _ := h.collects.reencoded key
  rw [hencoded, Option.map_some] at hmap
  split_ifs at hmap
  obtain ⟨data, hdata, hdec⟩ := Option.map_eq_some_iff.1 hmap.symm
  obtain ⟨value, hvalue, hvalue'⟩ := Option.bind_eq_some_iff.1 hdata
  exact ⟨value, data, hvalue, decodeValue_of_decodedAt hvalue', hdec.symm⟩

/-- The two objects have the same names. -/
theorem Reports.mem_keys_iff (h : Reports document report) (key : JsString) :
    key ∈ report.decoded.own.keys ↔ key ∈ report.reencoded.own.keys := by
  have hmap : (report.reencoded.own.get key).map (decodeValue key) = _ := h.collects.reencoded key
  have hsome := congrArg Option.isSome hmap
  rw [Option.isSome_map] at hsome
  rw [← Json.Members.get_isSome_iff, ← Json.Members.get_isSome_iff, hsome, h.collects.decoded]
  split_ifs
  · rfl
  · rw [Option.isSome_map, Option.isSome_map]

theorem Reports.mem_keys (h : Reports document report) {key : JsString}
    (hkey : key ∈ report.issues.map Prod.snd ∨ key ∈ report.errors) : key ∈ document.keys := by
  rcases hkey with hkey | hkey
  · exact Json.Members.mem_keys_of_mem_filter (p := fun k v => (memberIssue k v).isSome)
      (h.issues.mem_iff.1 hkey)
  · exact Json.Members.mem_keys_of_mem_filter (h.errors.mem_iff.1 hkey)

/-- The report of a document without lone surrogates can be written, if no member
`__proto__` decodes. -/
theorem Reports.exists_canonicalStringify (h : Reports document report)
    (hproto : ∀ value, document.get protoKey = some value → decodedAt protoKey value = none)
    (hwf : NoLoneSurrogates document) : ∃ text, canonicalStringify report.toValue = .ok text := by
  have hkey : ∀ key ∈ document.keys, Unicode.IsWellFormed key := by
    intro key hmem
    obtain ⟨value, hvalue⟩ := Option.isSome_iff_exists.1 (Json.Members.get_isSome_iff.2 hmem)
    exact (hwf key value hvalue).1
  have hplain := h.collects.prototype (by
    cases hvalue : document.get protoKey with
    | none => rw [show Json.lookup protoKey document.entries = none from hvalue]; rfl
    | some value =>
        rw [show Json.lookup protoKey document.entries = some value from hvalue]
        exact hproto value hvalue)
  have hdecoded : report.decoded.toValue = .obj report.decoded.own.entries := by
    rw [Accumulator.toValue, hplain.1]
  have hreencoded : report.reencoded.toValue = .obj report.reencoded.own.entries := by
    rw [Accumulator.toValue, hplain.2]
  refine ⟨_, canonicalStringify_eq_ok_iff.2 ⟨?_, rfl⟩⟩
  have hword : ∀ w ∈ ["issues", "decoded", "reencoded", "errors", "rule", "key", "R1", "R2"],
      Unicode.IsWellFormed (js w) := by decide
  have hrule : ∀ r : Rules.Rule, Unicode.IsWellFormed (js r.name) := fun r => by
    cases r <;> exact hword _ (by simp [Rules.Rule.name])
  rw [ConformanceReport.toValue, hdecoded, hreencoded]
  simp only [Json.every_obj, Json.every_arr, Json.every_str, List.forall_mem_cons, List.forall_mem_map,
    true_and, List.not_mem_nil, false_implies, implies_true, and_true]
  refine ⟨⟨hword _ (by simp), fun i hi => ?_⟩, ⟨hword _ (by simp), fun m hm => ?_⟩,
    ⟨hword _ (by simp), fun m hm => ?_⟩, hword _ (by simp), fun key hmem => ?_⟩
  · exact ⟨⟨hword _ (by simp), hrule i.1⟩, hword _ (by simp),
      hkey i.2 (h.mem_keys (Or.inl (List.mem_map_of_mem hi)))⟩
  · obtain ⟨value, data, hvalue, -, htext⟩ := h.exists_of_decoded (Json.Members.get_of_mem hm)
    rw [htext]
    exact ⟨(hwf m.1 value hvalue).1, (Json.every_str _).2 (isWellFormed_base64Encode data)⟩
  · obtain ⟨value, data, hvalue, -⟩ := h.exists_of_reencoded (Json.Members.get_of_mem hm)
    exact ⟨(hwf m.1 value hvalue).1, h.collects.written m.1 m.2 (Json.Members.get_of_mem hm)⟩
  · exact hkey key (h.mem_keys (Or.inr hmem))

/-- The report is a partition if no member `__proto__` decodes. -/
theorem Reports.isPartition (h : Reports document report)
    (hproto : ∀ value, document.get protoKey = some value → decodedAt protoKey value = none) :
    IsPartition document report where
  occurs := by
    intro key hmem
    obtain ⟨value, hvalue⟩ := Option.isSome_iff_exists.1 (Json.Members.get_isSome_iff.2 hmem)
    refine h.occursOnce hvalue ?_
    rintro rfl
    exact hproto value hvalue
  known := fun _ => h.mem_keys
  same := h.mem_keys_iff
  decoded := fun _ _ => h.exists_of_decoded
  reencoded := fun _ _ => h.exists_of_reencoded
  written := h.exists_canonicalStringify hproto

/-- `run` gives a partition of the keys of a document if and only if a member `__proto__`,
where there is one, has an issue or does not decode. -/
theorem run_isPartition_iff (document : Document) (hord : InOrder document) :
    (∃ report, run document = .ok report ∧ IsPartition document report) ↔
      ∀ value, document.get protoKey = some value →
        (memberIssue protoKey value).isSome ∨ ∃ e, decodeValue protoKey value = .error e := by
  have hnone : ∀ value, decodedAt protoKey value = none ↔
      (memberIssue protoKey value).isSome ∨ ∃ e, decodeValue protoKey value = .error e := by
    intro value
    rw [decodedAt]
    cases (memberIssue protoKey value).isSome with
    | true => simp
    | false => cases decodeValue protoKey value <;> simp [Except.toOption]
  simp only [← hnone]
  obtain ⟨report, hrun, hreports⟩ := exists_run hord
  constructor
  · rintro ⟨report', hrun', hpartition⟩ value hvalue
    rw [hrun] at hrun'
    cases hrun'
    by_contra hsome
    obtain ⟨data, hdata⟩ := Option.ne_none_iff_exists'.1 hsome
    exact hreports.not_occursOnce hvalue hdata
      (hpartition.occurs protoKey (Json.Members.get_isSome_iff.1 (by rw [hvalue]; rfl)))
  · exact fun hproto => ⟨report, hrun, hreports.isPartition hproto⟩

/-- A document with one byte string. -/
def byteDocument (key : JsString) : Document := .ofList [(key, .str (js "AA=="))]

theorem get_byteDocument (key l : JsString) :
    (byteDocument key).get l = if key = l then some (.str (js "AA==")) else none := by
  have hentries : (byteDocument key).entries = [(key, .str (js "AA=="))] := rfl
  rw [Json.Members.get, hentries, Json.lookup_cons]
  rfl

theorem inOrder_byteDocument (key : JsString) : InOrder (byteDocument key) := by
  intro l value hvalue
  rw [get_byteDocument] at hvalue
  split_ifs at hvalue
  cases hvalue
  exact (Json.every_str _).2 trivial

theorem run_isPartition_iff_byteDocument :
    (∃ report, run (byteDocument (js "a/c/0")) = .ok report ∧
        IsPartition (byteDocument (js "a/c/0")) report) ↔
      ∀ value, (byteDocument (js "a/c/0")).get protoKey = some value →
        (memberIssue protoKey value).isSome ∨ ∃ e, decodeValue protoKey value = .error e :=
  run_isPartition_iff (byteDocument (js "a/c/0")) (inOrder_byteDocument _)

/-- One byte at `__proto__` is lost. -/
theorem not_isPartition_protoKey : InOrder (byteDocument protoKey) ∧
    ¬ ∃ report, run (byteDocument protoKey) = .ok report ∧
      IsPartition (byteDocument protoKey) report := by
  refine ⟨inOrder_byteDocument _, ?_⟩
  rintro ⟨report, hrun, hpartition⟩
  obtain ⟨report', hrun', hreports⟩ := exists_run (inOrder_byteDocument protoKey)
  rw [hrun] at hrun'
  cases hrun'
  have hget : (byteDocument protoKey).get protoKey = some (.str (js "AA==")) := by
    rw [get_byteDocument, if_pos rfl]
  have hdata : decodedAt protoKey (.str (js "AA==")) = some [0] := by decide +kernel
  exact hreports.not_occursOnce hget hdata
    (hpartition.occurs protoKey (Json.Members.get_isSome_iff.1 (by rw [hget]; rfl)))

end TypeScript
