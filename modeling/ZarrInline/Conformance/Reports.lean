import ZarrInline.Conformance.Naming
import ZarrInline.Conformance.Ordering
import ZarrInline.Python.Trees
import ZarrInline.Rust.Trees
import ZarrInline.TypeScript.Trees

/-!
# One report in three languages

The report of a document is told over trees, without a host (`treeReport`): the issues in
order, what decodes with its bytes and with what they are stored as, and the keys that do not
decode.  Each of the three harnesses collects that report in its own strings and values, for
documents that are portable (`IsPortableDocument`).
-/

namespace Conformance

open Json (Tree WellFormed canonicalBytes)
open Numeric (Text)
open Python (Interpreter)
open Rules (Rule treeIssue decodeTree encodeTree inlineTree? isContainer)
open Rust (Crates)

/-! ## The report over trees -/

/-- The bytes of a member without an issue. -/
def bytesAt (m : Text × Tree) : Option (List UInt8) :=
  if (treeIssue m.1 m.2).isSome then none else decodeTree m.1 m.2

/-- The member has no issue and no bytes. -/
def isUndecodable (m : Text × Tree) : Bool := (treeIssue m.1 m.2).isNone && (decodeTree m.1 m.2).isNone

/-- The issues, in the order of the document. -/
def treeIssues (ms : List (Text × Tree)) : List (Rule × Text) :=
  ms.filterMap fun m => (treeIssue m.1 m.2).map fun i => (i.rule, m.1)

/-- What decodes, with what becomes of its bytes. -/
def collect (f : List UInt8 → Tree) (ms : List (Text × Tree)) : List (Text × Tree) :=
  ms.filterMap fun m => (bytesAt m).map fun data => (m.1, f data)

/-- The bytes of what decodes, as base64. -/
def decodedMembers : List (Text × Tree) → List (Text × Tree) := collect fun data => .str (Base64.encode data)

/-- What the bytes are stored as. -/
def reencodedMembers : List (Text × Tree) → List (Text × Tree) := collect encodeTree

/-- The keys that do not decode. -/
def undecodableKeys (ms : List (Text × Tree)) : List Text := (ms.filter isUndecodable).map Prod.fst

/-- A report. -/
structure TreeReport where
  issues : List (Rule × Text)
  decoded : List (Text × Tree)
  reencoded : List (Text × Tree)
  errors : List Text

/-- The report of a document. -/
def treeReport (ms : List (Text × Tree)) : TreeReport where
  issues := sortPython (treeIssues ms)
  decoded := decodedMembers ms
  reencoded := reencodedMembers ms
  errors := Text.sortStrings (undecodableKeys ms)

section Snoc

variable (ms : List (Text × Tree)) {m : Text × Tree}

/-- A member with an issue adds nothing to what is collected. -/
theorem collected_of_issue (h : (treeIssue m.1 m.2).isSome = true) :
    decodedMembers (ms ++ [m]) = decodedMembers ms ∧ reencodedMembers (ms ++ [m]) = reencodedMembers ms ∧
      undecodableKeys (ms ++ [m]) = undecodableKeys ms := by
  have hbytes : bytesAt m = none := if_pos h
  have hkey : isUndecodable m = false := by
    rw [isUndecodable, Option.isNone_eq_false_iff.2 h, Bool.false_and]
  simp [decodedMembers, reencodedMembers, collect, undecodableKeys, List.filterMap_append, hbytes, hkey]

/-- A member that does not decode adds its key. -/
theorem collected_of_undecodable (h : treeIssue m.1 m.2 = none) (hbytes : decodeTree m.1 m.2 = none) :
    decodedMembers (ms ++ [m]) = decodedMembers ms ∧ reencodedMembers (ms ++ [m]) = reencodedMembers ms ∧
      undecodableKeys (ms ++ [m]) = undecodableKeys ms ++ [m.1] := by
  have hnone : bytesAt m = none := by rw [bytesAt, h]; exact hbytes
  have hkey : isUndecodable m = true := by rw [isUndecodable, h, hbytes]; rfl
  simp [decodedMembers, reencodedMembers, collect, undecodableKeys, List.filterMap_append, hnone, hkey]

/-- A member that decodes adds its bytes and what they are stored as. -/
theorem collected_of_bytes (h : treeIssue m.1 m.2 = none) {data : List UInt8}
    (hbytes : decodeTree m.1 m.2 = some data) :
    decodedMembers (ms ++ [m]) = decodedMembers ms ++ [(m.1, .str (Base64.encode data))] ∧
      reencodedMembers (ms ++ [m]) = reencodedMembers ms ++ [(m.1, encodeTree data)] ∧
      undecodableKeys (ms ++ [m]) = undecodableKeys ms := by
  have hsome : bytesAt m = some data := by rw [bytesAt, h]; exact hbytes
  have hkey : isUndecodable m = false := by rw [isUndecodable, hbytes, Option.isNone_some, Bool.and_false]
  simp [decodedMembers, reencodedMembers, collect, undecodableKeys, List.filterMap_append, hsome, hkey]

end Snoc

/-! ## Loops over members -/

/-- A loop that goes from the state of the members before a member to that of the members up to
it ends in the state of all members. -/
theorem foldlM_eq_ok {σ α β ε : Type} {visit : σ → β → Except ε σ} {image : α → β} {xs : List α}
    (state : List α → σ)
    (h : ∀ done x rest, xs = done ++ x :: rest → visit (state done) (image x) = .ok (state (done ++ [x]))) :
    (xs.map image).foldlM visit (state []) = .ok (state xs) := by
  have hloop : ∀ rest done, xs = done ++ rest →
      (rest.map image).foldlM visit (state done) = .ok (state xs) := by
    intro rest
    induction rest with
    | nil =>
        intro done hxs
        rw [List.append_nil] at hxs
        rw [hxs]
        rfl
    | cons x rest ih =>
        intro done hxs
        rw [List.map_cons, List.foldlM_cons, h done x rest hxs]
        exact ih (done ++ [x]) (by rw [hxs, List.append_assoc]; rfl)
  exact hloop xs [] rfl

/-- A member is written last. -/
theorem ofList_snoc {κ α : Type} [DecidableEq κ] {rank : κ → Option ℕ} (ms : List (κ × α)) (k : κ) (x : α) :
    (Json.Members.ofList (ms ++ [(k, x)]) : Json.Members rank α) = (Json.Members.ofList ms).set k x := by
  ext1
  show Json.collapse rank (ms ++ [(k, x)]) = Json.set rank k x (Json.collapse rank ms)
  rw [Json.collapse, List.foldl_append]
  rfl

/-- The members of a document with distinct names, none of which is an index, stand as they were
written. -/
theorem entries_ofList {κ α : Type} [DecidableEq κ] {rank : κ → Option ℕ} {name : Text → κ}
    {image : Tree → α} {ms : List (Text × Tree)} (hordered : Json.Ordered Json.noRank (ms.map Prod.fst))
    (hname : ∀ m ∈ ms, ∀ n ∈ ms, name m.1 = name n.1 → m.1 = n.1)
    (hrank : ∀ m ∈ ms, rank (name m.1) = none) :
    (Json.Members.ofList (ms.map fun m => (name m.1, image m.2)) : Json.Members rank α).entries
      = ms.map fun m => (name m.1, image m.2) := by
  have hnames : (ms.map fun m => (name m.1, image m.2)).map Prod.fst = (ms.map Prod.fst).map name := by
    rw [List.map_map, List.map_map]
    rfl
  show Json.collapse rank (ms.map fun m => (name m.1, image m.2)) = _
  rw [Json.collapse_congr_rank (List.forall_mem_map.2 hrank)]
  refine Json.collapse_of_ordered ?_
  rw [hnames]
  refine Json.ordered_noRank_map hordered fun k hk l hl => ?_
  obtain ⟨m, hm, rfl⟩ := List.mem_map.1 hk
  obtain ⟨n, hn, rfl⟩ := List.mem_map.1 hl
  exact hname m hm n hn

/-! ## Portable documents -/

/-- A tree that the three treat alike. -/
structure IsPortableTree (t : Tree) : Prop where
  wellFormed : WellFormed t
  reads : Python.ReadsTree t
  names : TypeScript.NamesTree t
  depth_le : t.depth ≤ 100

instance : DecidablePred IsPortableTree := fun t =>
  decidable_of_iff (WellFormed t ∧ Python.ReadsTree t ∧ TypeScript.NamesTree t ∧ t.depth ≤ 100)
    ⟨fun h => ⟨h.1, h.2.1, h.2.2.1, h.2.2.2⟩, fun h => ⟨h.1, h.2, h.3, h.4⟩⟩

/-- A payload that the three store alike. -/
structure IsPortablePayload (I : Interpreter) (data : List UInt8) : Prop where
  manageable : Python.Manageable I data
  inlined : ∀ u, inlineTree? data = some u → IsPortableTree u

/-- The members of a document that the three treat alike. -/
structure IsPortableDocument (I : Interpreter) (ms : List (Text × Tree)) : Prop where
  tree : IsPortableTree (.obj ms)
  proto : ∀ m ∈ ms, m.1 ≠ Json.lit "__proto__"
  payloads : ∀ m ∈ ms, ∀ s data, m.2 = .str s → Rules.isMetadataKey Char.toNat m.1 = false →
    Base64.decode s = some data → IsPortablePayload I data

/-- The interpreter nests what is portable. -/
structure IsRoomy (I : Interpreter) : Prop where
  scan : 100 ≤ I.scanDepth
  frames : 100 + max I.textFrames I.floatFrames < I.frames

section Portable

variable {I : Interpreter} {t : Tree} {ms : List (Text × Tree)} {m : Text × Tree}

theorem IsPortableTree.nests (h : IsPortableTree t) (hI : IsRoomy I) : Python.Nests I t where
  scan := h.depth_le.trans hI.scan
  frames := (Nat.add_le_add_right h.depth_le _).trans_lt hI.frames

theorem IsPortableDocument.value (h : IsPortableDocument I ms) (hm : m ∈ ms) : IsPortableTree m.2 where
  wellFormed := (((Json.every_obj ms).1 h.tree.wellFormed).2 m hm).2
  reads := (((Json.every_obj ms).1 h.tree.reads).2 m hm).2
  names := (((Json.every_obj ms).1 h.tree.names).2 m hm).2
  depth_le := (Json.depth_lt_of_mem_obj hm).le.trans h.tree.depth_le

theorem IsPortableDocument.scalars (h : IsPortableDocument I ms) (hm : m ∈ ms) :
    ∀ c ∈ m.1, Unicode.IsScalar c :=
  (((Json.every_obj ms).1 h.tree.wellFormed).2 m hm).1

theorem IsPortableDocument.rank (h : IsPortableDocument I ms) (hm : m ∈ ms) :
    TypeScript.arrayIndex? (Unicode.encodeUtf16 m.1) = none :=
  ((Json.every_obj ms).1 h.tree.names).1 m.1 (List.mem_map_of_mem hm)

theorem IsPortableDocument.ordered (h : IsPortableDocument I ms) :
    Json.Ordered Json.noRank (ms.map Prod.fst) :=
  ((Json.every_obj ms).1 h.tree.wellFormed).1

end Portable

/-! ## The codecs of the three -/

/-- The codec of a host does at a member what the rules say.  What it raises where a value does
not decode is caught. -/
structure Follows {V ε : Type} (image : Tree → V) (Caught : ε → Prop)
    (decode : V → Except ε (List UInt8)) (encode : List UInt8 → Except ε V) (m : Text × Tree) : Prop where
  decodes : ∀ data, decodeTree m.1 m.2 = some data → decode (image m.2) = .ok data
  fails : decodeTree m.1 m.2 = none → ∃ e, Caught e ∧ decode (image m.2) = .error e
  encodes : ∀ data, decodeTree m.1 m.2 = some data → encode data = .ok (image (encodeTree data))

/-- It does so if it does at what is stored as it stands, and at strings. -/
theorem follows_of_kind {V ε : Type} {image : Tree → V} {Caught : ε → Prop}
    {decode : V → Except ε (List UInt8)} {encode : List UInt8 → Except ε V} {m : Text × Tree}
    (hissue : treeIssue m.1 m.2 = none)
    (hcontainer : isContainer m.2 = true → (Rules.isMetadataKey Char.toNat m.1 = true → m.2.isObj = true) →
      decode (image m.2) = .ok (canonicalBytes m.2) ∧
        encode (canonicalBytes m.2) = .ok (image (encodeTree (canonicalBytes m.2))))
    (hstring : ∀ s, m.2 = .str s → Rules.isMetadataKey Char.toNat m.1 = false →
      ((decode (image (.str s))).toOption = Base64.decode s ∧
        ∀ e, decode (image (.str s)) = .error e → Caught e) ∧
        ∀ data, Base64.decode s = some data → encode data = .ok (image (encodeTree data))) :
    Follows image Caught decode encode m := by
  rcases Rules.kind_of_treeIssue hissue with ⟨hcont, hobj⟩ | ⟨hkey, s, hs⟩
  · obtain ⟨hdecode, hencode⟩ := hcontainer hcont hobj
    have hbytes := Rules.decodeTree_of_isContainer hcont hobj
    refine ⟨fun data hdata => ?_, fun hnone => ?_, fun data hdata => ?_⟩
    · rw [hbytes] at hdata
      cases hdata
      exact hdecode
    · rw [hbytes] at hnone
      cases hnone
    · rw [hbytes] at hdata
      cases hdata
      exact hencode
  · obtain ⟨⟨hdecode, hcaught⟩, hencode⟩ := hstring s hs hkey
    have hbytes : decodeTree m.1 m.2 = Base64.decode s := by
      rw [hs]
      exact Rules.decodeTree_str hkey
    refine ⟨fun data hdata => ?_, fun hnone => ?_, fun data hdata => hencode data (hbytes ▸ hdata)⟩
    · rw [hbytes, ← hdecode] at hdata
      rw [hs]
      exact Json.eq_ok_of_toOption hdata
    · rw [hbytes, ← hdecode] at hnone
      rw [hs]
      cases hresult : decode (image (.str s)) with
      | ok data => rw [hresult] at hnone; cases hnone
      | error e => exact ⟨e, hcaught e hresult, rfl⟩

section Codecs

variable {I : Interpreter} {C : Crates} {ms : List (Text × Tree)} {m : Text × Tree}

/-- An error that `run` of `conformance.py` catches. -/
def IsValueError (e : Python.PyError) : Prop := ∃ error, e = .value error

theorem python_follows (hI : IsRoomy I) (h : IsPortableDocument I ms) (hm : m ∈ ms)
    (hissue : treeIssue m.1 m.2 = none) :
    Follows Python.ofTree IsValueError (Python.decodeValue I m.1) (Python.encodeValue I m.1) m := by
  have hvalue := h.value hm
  refine follows_of_kind hissue (fun hcont hobj => ⟨?_, ?_⟩) fun s hs hkey => ⟨⟨?_, fun e he => ?_⟩, ?_⟩
  · exact Python.decodeValue_ofTree hvalue.wellFormed hvalue.reads (hvalue.nests hI) hcont hobj
  · exact Python.encodeValue_canonicalBytes hvalue.wellFormed hvalue.reads (hvalue.nests hI) hcont hobj
  · show (Python.decodeValue I m.1 (.str s)).toOption = _
    rw [Python.decodeValue_str hkey, Python.b64decode]
    cases Base64.decode s <;> rfl
  · have he' : Python.decodeValue I m.1 (.str s) = .error e := he
    rw [Python.decodeValue_str hkey, Python.b64decode] at he'
    split at he'
    · cases he'
    · exact ⟨_, (Except.error.inj he').symm⟩
  · intro data hdata
    have hpayload := h.payloads m hm s data hs hkey hdata
    refine Python.encodeValue_eq_ofTree hkey ⟨hpayload.manageable, fun u hu => ?_⟩
    exact ⟨(hpayload.inlined u hu).reads, (hpayload.inlined u hu).nests hI⟩

/-- The ASCII characters show in the code units of a key. -/
theorem shows_encodeUnits {key : Text} (h : ∀ c ∈ key, Unicode.IsScalar c) :
    Rules.Shows Unicode.encodeUnits Char.toNat TypeScript.unit key := by
  intro c hc
  have hmark : ∀ x ∈ Rules.ruleCharacters,
      Text.Marks Unicode.encodeUnits x.toNat (TypeScript.unit x) c := fun x hx =>
    Crosscheck.marks_encodeUnits (Rules.ruleCharacters_lt x hx) (h c hc).1
  exact ⟨(hmark '/' List.mem_cons_self).ne_nil, hmark⟩

/-- The ASCII characters show in the characters of a key. -/
theorem shows_ofNat {key : Text} (h : ∀ c ∈ key, Unicode.IsScalar c) :
    Rules.Shows (fun c => [Char.ofNat c]) Char.toNat id key := by
  intro c hc
  have hmark : ∀ x ∈ Rules.ruleCharacters, Text.Marks (fun c => [Char.ofNat c]) x.toNat (id x) c := by
    intro x hx
    have hself := Crosscheck.marks_ofNat (Rules.ruleCharacters_lt x hx) (h c hc)
    rwa [Char.ofNat_toNat] at hself
  exact ⟨(hmark '/' List.mem_cons_self).ne_nil, hmark⟩

theorem ofCodes_eq_flatMap (key : Text) : Rust.ofCodes key = key.flatMap fun c => [Char.ofNat c] := by
  rw [Rust.ofCodes, List.map_eq_flatMap]

theorem isMetadataKey_encodeUtf16 {key : Text} (h : ∀ c ∈ key, Unicode.IsScalar c) :
    TypeScript.isMetadataKey (Unicode.encodeUtf16 key) = Rules.isMetadataKey Char.toNat key :=
  Rules.isMetadataKey_flatMap (shows_encodeUnits h)

theorem isMetadataKey_ofCodes {key : Text} (h : ∀ c ∈ key, Unicode.IsScalar c) :
    Rust.isMetadataKey (Rust.ofCodes key) = Rules.isMetadataKey Char.toNat key := by
  rw [ofCodes_eq_flatMap]
  exact Rules.isMetadataKey_flatMap (shows_ofNat h)

theorem scalars_of_str {s : Text} (hvalue : IsPortableTree m.2) (hs : m.2 = .str s) :
    ∀ c ∈ s, Unicode.IsScalar c := by
  have hwell := hvalue.wellFormed
  rw [hs] at hwell
  exact (Json.every_str s).1 hwell

theorem typeScript_follows (h : IsPortableDocument I ms) (hm : m ∈ ms) (hissue : treeIssue m.1 m.2 = none) :
    Follows TypeScript.ofTree (fun _ => True) (TypeScript.decodeValue (Unicode.encodeUtf16 m.1))
      (TypeScript.encodeValue (Unicode.encodeUtf16 m.1)) m := by
  have hvalue := h.value hm
  have hmetadata := isMetadataKey_encodeUtf16 (h.scalars hm)
  refine follows_of_kind hissue (fun hcont hobj => ?_) fun s hs hkey => ⟨⟨?_, fun _ _ => trivial⟩, ?_⟩
  · rw [← hmetadata] at hobj
    exact ⟨TypeScript.decodeValue_ofTree hvalue.wellFormed hcont hobj,
      TypeScript.encodeValue_canonicalBytes hvalue.wellFormed hvalue.names hcont hobj⟩
  · exact TypeScript.decodeValue_str (hmetadata.trans hkey) (scalars_of_str hvalue hs)
  · intro data hdata
    have hpayload := h.payloads m hm s data hs hkey hdata
    exact TypeScript.encodeValue_eq_ofTree (hmetadata.trans hkey) fun u hu => (hpayload.inlined u hu).names

/-- An error that `run` of `conformance.rs` takes for a key that does not decode. -/
def IsReported (e : Rust.RustError) : Prop := e ≠ .panic

theorem rust_follows (hC : C.IsStandard) (h : IsPortableDocument I ms) (hm : m ∈ ms)
    (hissue : treeIssue m.1 m.2 = none) :
    Follows Rust.ofTree IsReported (Rust.decodeValue C (Rust.ofCodes m.1))
      (Rust.encodeValue C (Rust.ofCodes m.1)) m := by
  have hvalue := h.value hm
  have hmetadata := isMetadataKey_ofCodes (h.scalars hm)
  have hdepth : ∀ {t : Tree}, IsPortableTree t → t.depth ≤ 127 := fun ht => ht.depth_le.trans (by decide)
  refine follows_of_kind hissue (fun hcont hobj => ?_) fun s hs hkey => ⟨⟨?_, fun e he => ?_⟩, ?_⟩
  · rw [← hmetadata] at hobj
    exact ⟨Rust.decodeValue_ofTree hvalue.wellFormed hcont hobj,
      Rust.encodeValue_canonicalBytes hvalue.wellFormed (hdepth hvalue) hcont hobj⟩
  · exact Rust.decodeValue_str hC (hmetadata.trans hkey) (scalars_of_str hvalue hs)
  · exact Rust.ne_panic_of_decodeValue_str (hmetadata.trans hkey) he
  · intro data hdata
    have hpayload := h.payloads m hm s data hs hkey hdata
    exact Rust.encodeValue_eq_ofTree hC (hmetadata.trans hkey) fun u hu => hdepth (hpayload.inlined u hu)

end Codecs

/-! ## The issues of the three -/

section Issues

variable {χ V : Type} [DecidableEq χ] {rank : List χ → Option ℕ} {ascii : Char → χ} {kinds : Rules.Kinds V}
  (name : Text → List χ) (image : Tree → V) {ms : List (Text × Tree)} {d : Json.Members rank V}
  (hentries : d.entries = ms.map fun m => (name m.1, image m.2))
  (hmember : ∀ m ∈ ms, Rules.memberIssue ascii kinds (name m.1) (image m.2)
    = (treeIssue m.1 m.2).map fun issue => ⟨issue.rule, name m.1, issue.message⟩)

include hentries hmember

/-- A host that sees the violations of the tree lists its issues. -/
theorem map_validate : (Rules.validate ascii kinds d).map (fun i => (i.rule, i.key))
    = (treeIssues ms).map (Prod.map id name) := by
  rw [Rules.validate, hentries, List.filterMap_map, List.map_filterMap, treeIssues, List.map_filterMap]
  refine List.filterMap_congr fun m hm => ?_
  rw [Function.comp_apply, hmember m hm, Option.map_map, Option.map_map]
  rfl

theorem mem_keys_validate {m : Text × Tree} (hm : m ∈ ms) :
    name m.1 ∈ (Rules.validate ascii kinds d).map Rules.ValidationIssue.key ↔
      (treeIssue m.1 m.2).isSome = true := by
  have hmem : (name m.1, image m.2) ∈ d.entries := by
    rw [hentries]
    exact List.mem_map_of_mem hm
  have hissue : (Rules.memberIssue ascii kinds (name m.1) (image m.2)).isSome
      = (treeIssue m.1 m.2).isSome := by
    rw [hmember m hm, Option.isSome_map]
  rw [Rules.mem_keys_validate, Json.Members.get_of_mem hmem]
  constructor
  · rintro ⟨value, hvalue, hsome⟩
    cases hvalue
    exact hissue.symm.trans hsome
  · intro hsome
    exact ⟨_, rfl, hissue.trans hsome⟩

end Issues

section Members

variable {I : Interpreter} {ms : List (Text × Tree)} {m : Text × Tree}

theorem python_memberIssue : Rules.memberIssue Char.toNat Python.kinds m.1 (Python.ofTree m.2)
    = (treeIssue m.1 m.2).map fun issue => ⟨issue.rule, m.1, issue.message⟩ := by
  rw [Python.memberIssue_ofTree]
  cases hissue : treeIssue m.1 m.2 with
  | none => rfl
  | some issue =>
      have hname : issue.key = m.1 := Rules.key_memberIssue hissue
      rw [Option.map_some, ← hname]

theorem typeScript_memberIssue (h : IsPortableDocument I ms) (hm : m ∈ ms) :
    Rules.memberIssue TypeScript.unit TypeScript.kinds (Unicode.encodeUtf16 m.1) (TypeScript.ofTree m.2)
      = (treeIssue m.1 m.2).map fun issue => ⟨issue.rule, Unicode.encodeUtf16 m.1, issue.message⟩ :=
  Rules.memberIssue_flatMap (shows_encodeUnits (h.scalars hm)) TypeScript.isObject_ofTree
    TypeScript.isArray_ofTree TypeScript.isString_ofTree

theorem rust_memberIssue (h : IsPortableDocument I ms) (hm : m ∈ ms) :
    Rules.memberIssue id Rust.kinds (Rust.ofCodes m.1) (Rust.ofTree m.2)
      = (treeIssue m.1 m.2).map fun issue => ⟨issue.rule, Rust.ofCodes m.1, issue.message⟩ := by
  rw [ofCodes_eq_flatMap]
  exact Rules.memberIssue_flatMap (shows_ofNat (h.scalars hm)) Rust.isObject_ofTree Rust.isArray_ofTree
    Rust.isString_ofTree

end Members

/-! ## Sorting -/

section Sorting

variable {issues : List (Rule × Text)} {keys : List Text} {ms : List (Text × Tree)}

theorem sortRust_ofCodes (h : ∀ i ∈ issues, ∀ c ∈ i.2, Unicode.IsScalar c) :
    sortRust (issues.map (Prod.map id Rust.ofCodes))
      = (sortPython issues).map (Prod.map id Rust.ofCodes) := by
  refine (List.map_mergeSort fun a ha b hb => ?_).symm
  have hle := issueLe_codes (Prod.map id Rust.ofCodes a) (Prod.map id Rust.ofCodes b)
  simp only [Prod.map_snd, Prod.map_fst, id_eq, Rust.codes_ofCodes (h a ha),
    Rust.codes_ofCodes (h b hb)] at hle
  exact hle.symm

theorem sortTypeScript_encodeUtf16 (h : ∀ i ∈ issues, ∀ c ∈ i.2, Unicode.IsScalar c) :
    sortTypeScript (issues.map (Prod.map id Unicode.encodeUtf16))
      = (sortPython issues).map (Prod.map id Unicode.encodeUtf16) := by
  refine (List.map_mergeSort fun a ha b hb => ?_).symm
  have hle := compareIssues_le_iff (Prod.map id Unicode.encodeUtf16 a) (Prod.map id Unicode.encodeUtf16 b)
  simp only [Prod.map_snd, Prod.map_fst, id_eq, Unicode.codePoints_encodeUtf16 (h a ha),
    Unicode.codePoints_encodeUtf16 (h b hb)] at hle
  exact hle.symm

theorem sortStrings_ofCodes (h : ∀ k ∈ keys, ∀ c ∈ k, Unicode.IsScalar c) :
    Text.sortStrings (keys.map Rust.ofCodes) = (Text.sortStrings keys).map Rust.ofCodes := by
  refine (List.map_mergeSort fun a ha b hb => decide_eq_decide.2 ?_).symm
  have hlt := codes_lt_iff (a := Rust.ofCodes b) (b := Rust.ofCodes a)
  rw [Rust.codes_ofCodes (h a ha), Rust.codes_ofCodes (h b hb)] at hlt
  rw [← not_lt, ← not_lt, hlt]

theorem sortKeys_encodeUtf16 (h : ∀ k ∈ keys, ∀ c ∈ k, Unicode.IsScalar c) :
    TypeScript.sortBy TypeScript.compareCodePoints (keys.map Unicode.encodeUtf16)
      = (Text.sortStrings keys).map Unicode.encodeUtf16 := by
  refine (List.map_mergeSort fun a ha b hb => decide_eq_decide.2 ?_).symm
  have hle := TypeScript.compareCodePoints_le_iff (a := Unicode.encodeUtf16 a) (b := Unicode.encodeUtf16 b)
  rw [Unicode.codePoints_encodeUtf16 (h a ha), Unicode.codePoints_encodeUtf16 (h b hb)] at hle
  exact hle.symm

/-- The issues of a document are about its keys. -/
theorem scalars_treeIssues (h : ∀ m ∈ ms, ∀ c ∈ m.1, Unicode.IsScalar c) :
    ∀ i ∈ treeIssues ms, ∀ c ∈ i.2, Unicode.IsScalar c := by
  intro i hi
  obtain ⟨m, hm, hissue⟩ := List.mem_filterMap.1 hi
  obtain ⟨issue, -, rfl⟩ := Option.map_eq_some_iff.1 hissue
  exact h m hm

theorem scalars_undecodableKeys (h : ∀ m ∈ ms, ∀ c ∈ m.1, Unicode.IsScalar c) :
    ∀ k ∈ undecodableKeys ms, ∀ c ∈ k, Unicode.IsScalar c := by
  intro k hk
  obtain ⟨m, hm, rfl⟩ := List.mem_map.1 hk
  exact h m (List.mem_of_mem_filter hm)

end Sorting

/-! ## The loops of the three -/

section Loop

variable {χ V ε σ : Type} {name : Text → List χ} {image : Tree → V} {Caught : ε → Prop}
  {decode : List χ → V → Except ε (List UInt8)} {encode : List χ → List UInt8 → Except ε V}
  {issueKeys : List (List χ)} {visit : σ → List χ × V → Except ε σ}
  {collected : List (Text × Tree) → List (Text × Tree) → List Text → σ} {ms : List (Text × Tree)}

/-- The body of a loop that skips the keys with an issue, and collects what decodes, what the bytes
are stored as, and the keys that do not decode. -/
structure Visits (name : Text → List χ) (image : Tree → V) (Caught : ε → Prop)
    (decode : List χ → V → Except ε (List UInt8)) (encode : List χ → List UInt8 → Except ε V)
    (issueKeys : List (List χ)) (visit : σ → List χ × V → Except ε σ)
    (collected : List (Text × Tree) → List (Text × Tree) → List Text → σ) (m : Text × Tree) : Prop where
  skip : name m.1 ∈ issueKeys → ∀ acc, visit acc (name m.1, image m.2) = .ok acc
  fail : name m.1 ∉ issueKeys → ∀ e, Caught e → decode (name m.1) (image m.2) = .error e →
    ∀ ds rs es, visit (collected ds rs es) (name m.1, image m.2) = .ok (collected ds rs (es ++ [m.1]))
  keep : name m.1 ∉ issueKeys → ∀ data u, decode (name m.1) (image m.2) = .ok data →
    encode (name m.1) data = .ok (image u) → ∀ ds rs es,
      visit (collected ds rs es) (name m.1, image m.2)
        = .ok (collected (ds ++ [(m.1, .str (Base64.encode data))]) (rs ++ [(m.1, u)]) es)

/-- After some members, a member adds to the report what the rules say. -/
theorem Visits.step {m : Text × Tree}
    (h : Visits name image Caught decode encode issueKeys visit collected m)
    (hkey : name m.1 ∈ issueKeys ↔ (treeIssue m.1 m.2).isSome = true)
    (hfollows : treeIssue m.1 m.2 = none →
      Follows image Caught (decode (name m.1)) (encode (name m.1)) m) (done : List (Text × Tree)) :
    visit (collected (decodedMembers done) (reencodedMembers done) (undecodableKeys done))
        (name m.1, image m.2)
      = .ok (collected (decodedMembers (done ++ [m])) (reencodedMembers (done ++ [m]))
          (undecodableKeys (done ++ [m]))) := by
  cases hissue : treeIssue m.1 m.2 with
  | some issue =>
      have hsome : (treeIssue m.1 m.2).isSome = true := by rw [hissue]; rfl
      obtain ⟨hdecoded, hreencoded, herrors⟩ := collected_of_issue done hsome
      rw [h.skip (hkey.2 hsome), hdecoded, hreencoded, herrors]
  | none =>
      have hskip : name m.1 ∉ issueKeys := by
        intro hmem
        have hsome := hkey.1 hmem
        rw [hissue] at hsome
        cases hsome
      cases hbytes : decodeTree m.1 m.2 with
      | none =>
          obtain ⟨hdecoded, hreencoded, herrors⟩ := collected_of_undecodable done hissue hbytes
          obtain ⟨e, hcaught, he⟩ := (hfollows hissue).fails hbytes
          rw [h.fail hskip e hcaught he, hdecoded, hreencoded, herrors]
      | some data =>
          obtain ⟨hdecoded, hreencoded, herrors⟩ := collected_of_bytes done hissue hbytes
          rw [h.keep hskip data _ ((hfollows hissue).decodes data hbytes)
            ((hfollows hissue).encodes data hbytes), hdecoded, hreencoded, herrors]

/-- The loop over a document collects its report. -/
theorem loop_eq_ok (hvisits : ∀ m ∈ ms, Visits name image Caught decode encode issueKeys visit collected m)
    (hkeys : ∀ m ∈ ms, name m.1 ∈ issueKeys ↔ (treeIssue m.1 m.2).isSome = true)
    (hfollows : ∀ m ∈ ms, treeIssue m.1 m.2 = none →
      Follows image Caught (decode (name m.1)) (encode (name m.1)) m) :
    (ms.map fun m => (name m.1, image m.2)).foldlM visit (collected [] [] [])
      = .ok (collected (decodedMembers ms) (reencodedMembers ms) (undecodableKeys ms)) := by
  let state : List (Text × Tree) → σ := fun done =>
    collected (decodedMembers done) (reencodedMembers done) (undecodableKeys done)
  refine foldlM_eq_ok state fun done m rest hms => ?_
  have hm : m ∈ ms := hms ▸ List.mem_append_right _ List.mem_cons_self
  exact (hvisits m hm).step (hkeys m hm) (hfollows m hm) done

end Loop

/-! ## The report as a tree -/

/-- The report as a tree. -/
def TreeReport.toTree (r : TreeReport) : Tree :=
  .obj [
    (Json.lit "issues", .arr (r.issues.map fun i =>
      .obj [(Json.lit "rule", .str (Json.lit i.1.name)), (Json.lit "key", .str i.2)])),
    (Json.lit "decoded", .obj r.decoded),
    (Json.lit "reencoded", .obj r.reencoded),
    (Json.lit "errors", .arr (r.errors.map Json.str))]

/-- What holds of the parts of a report holds of the report. -/
theorem every_toTree {p : Text → Prop} {q : Numeric.NumberToken → Prop} {names : List Text → Prop}
    [DecidablePred p] [DecidablePred q] [DecidablePred names] {r : TreeReport}
    (hlit : ∀ s : Text, (∀ c ∈ s, c < 128) → p s)
    (hreport : names [Json.lit "issues", Json.lit "decoded", Json.lit "reencoded", Json.lit "errors"])
    (hissue : names [Json.lit "rule", Json.lit "key"]) (hissues : ∀ i ∈ r.issues, p i.2)
    (hdecoded : (Json.obj r.decoded).Every p q names) (hreencoded : (Json.obj r.reencoded).Every p q names)
    (herrors : ∀ k ∈ r.errors, p k) : r.toTree.Every p q names := by
  have hrule : ∀ rule : Rule, ∀ c ∈ Json.lit rule.name, c < 128 := by
    intro rule
    cases rule <;> decide
  rw [TreeReport.toTree, Json.every_obj]
  refine ⟨hreport, ?_⟩
  simp only [List.forall_mem_cons, Json.every_arr, List.forall_mem_map]
  refine ⟨⟨hlit _ (by decide), fun i hi => ?_⟩, ⟨hlit _ (by decide), hdecoded⟩,
    ⟨hlit _ (by decide), hreencoded⟩, ⟨hlit _ (by decide), fun k hk => ?_⟩, List.forall_mem_nil _⟩
  · rw [Json.every_obj]
    refine ⟨hissue, ?_⟩
    simp only [List.forall_mem_cons, Json.every_str]
    exact ⟨⟨hlit _ (by decide), hlit _ (hrule i.1)⟩, ⟨hlit _ (by decide), hissues i hi⟩,
      List.forall_mem_nil _⟩
  · exact (Json.every_str k).2 (herrors k hk)

section Collect

variable {I : Interpreter} {ms : List (Text × Tree)} {m : Text × Tree} {f : List UInt8 → Tree}

theorem exists_of_mem_collect (h : m ∈ collect f ms) :
    ∃ n ∈ ms, ∃ data, bytesAt n = some data ∧ m = (n.1, f data) := by
  obtain ⟨n, hn, hdata⟩ := List.mem_filterMap.1 h
  obtain ⟨data, hbytes, rfl⟩ := Option.map_eq_some_iff.1 hdata
  exact ⟨n, hn, data, hbytes, rfl⟩

/-- What decodes stands in the order of the document. -/
theorem collect_sublist (f : List UInt8 → Tree) (ms : List (Text × Tree)) :
    ((collect f ms).map Prod.fst).Sublist (ms.map Prod.fst) := by
  induction ms with
  | nil => exact List.Sublist.refl _
  | cons m ms ih =>
      rw [collect, List.filterMap_cons, List.map_cons]
      cases bytesAt m with
      | none => exact ih.cons _
      | some data => exact ih.cons_cons _

/-- What decodes to portable trees is the part of a portable document. -/
theorem IsPortableDocument.collect (h : IsPortableDocument I ms)
    (hf : ∀ n ∈ ms, ∀ data, bytesAt n = some data → IsPortableTree (f data)) :
    WellFormed (.obj (collect f ms)) ∧ Python.ReadsTree (.obj (Conformance.collect f ms)) ∧
      TypeScript.NamesTree (.obj (Conformance.collect f ms)) ∧
      ∀ m ∈ Conformance.collect f ms, m.2.depth ≤ 100 := by
  have hall : ∀ m ∈ Conformance.collect f ms, (∃ n ∈ ms, m.1 = n.1) ∧ IsPortableTree m.2 := by
    intro m hm
    obtain ⟨n, hn, data, hbytes, rfl⟩ := exists_of_mem_collect hm
    exact ⟨⟨n, hn, rfl⟩, hf n hn data hbytes⟩
  refine ⟨(Json.every_obj _).2 ⟨h.ordered.sublist (collect_sublist f ms), fun m hm => ?_⟩,
    (Json.every_obj _).2 ⟨trivial, fun m hm => ⟨trivial, (hall m hm).2.reads⟩⟩,
    (Json.every_obj _).2 ⟨?_, fun m hm => ⟨trivial, (hall m hm).2.names⟩⟩,
    fun m hm => (hall m hm).2.depth_le⟩
  · obtain ⟨⟨n, hn, hname⟩, hvalue⟩ := hall m hm
    exact ⟨hname ▸ h.scalars hn, hvalue.wellFormed⟩
  · intro k hk
    obtain ⟨n, hn, rfl⟩ := List.mem_map.1 ((collect_sublist f ms).subset hk)
    exact h.rank hn

theorem IsPortableTree.base64 (data : List UInt8) : IsPortableTree (.str (Base64.encode data)) where
  wellFormed := (Json.every_str _).2 fun c hc =>
    Unicode.isScalar_of_lt ((Base64.encode_lt data c hc).trans (by norm_num))
  reads := (Json.every_str _).2 trivial
  names := (Json.every_str _).2 trivial
  depth_le := Nat.zero_le _

theorem IsPortableTree.canonicalForm {t : Tree} (h : IsPortableTree t) : IsPortableTree t.canonicalForm where
  wellFormed := h.wellFormed.canonicalForm
  reads := Python.readsTree_canonicalForm h.reads
  names := by
    rw [TypeScript.NamesTree, Json.canonicalForm, Json.every_map]
    exact h.names.imp (fun _ => id) (fun _ => id) fun ks hks => by rwa [List.map_id]
  depth_le := by
    rw [Json.depth_canonicalForm]
    exact h.depth_le

/-- What the bytes of a portable document are stored as is portable. -/
theorem IsPortableDocument.encodeTree (h : IsPortableDocument I ms) (hm : m ∈ ms) {data : List UInt8}
    (hbytes : bytesAt m = some data) : IsPortableTree (encodeTree data) := by
  have hissue : treeIssue m.1 m.2 = none := by
    cases hissue : treeIssue m.1 m.2 with
    | none => rfl
    | some issue => rw [bytesAt, hissue] at hbytes; cases hbytes
  have hdata : decodeTree m.1 m.2 = some data := by
    rw [bytesAt, hissue] at hbytes
    exact hbytes
  rcases Rules.kind_of_treeIssue hissue with ⟨hcont, hobj⟩ | ⟨hkey, s, hs⟩
  · rw [Rules.decodeTree_of_isContainer hcont hobj] at hdata
    cases hdata
    rw [Rules.encodeTree_canonicalBytes (h.value hm).wellFormed hcont]
    exact (h.value hm).canonicalForm
  · rw [hs, Rules.decodeTree_str hkey] at hdata
    cases hinline : inlineTree? data with
    | some u =>
        rw [Rules.encodeTree_of_some hinline]
        exact (h.payloads m hm s data hs hkey hdata).inlined u hinline
    | none =>
        rw [Rules.encodeTree_of_none hinline]
        exact IsPortableTree.base64 data

end Collect

section Portable

variable {I : Interpreter} {ms : List (Text × Tree)}

theorem mem_sortPython {issues : List (Rule × Text)} {i : Rule × Text} :
    i ∈ sortPython issues ↔ i ∈ issues :=
  (List.mergeSort_perm _ _).mem_iff

/-- The report of a portable document can be written. -/
theorem wellFormed_report (h : IsPortableDocument I ms) : WellFormed (treeReport ms).toTree := by
  have hscalars : ∀ m ∈ ms, ∀ c ∈ m.1, Unicode.IsScalar c := fun m => h.scalars
  refine every_toTree (fun s hs c hc => Unicode.isScalar_of_lt ((hs c hc).trans (by norm_num))) (by decide)
    (by decide) (fun i hi => ?_) (h.collect fun _ _ data _ => .base64 data).1
    (h.collect fun _ hn _ hbytes => h.encodeTree hn hbytes).1 fun k hk => ?_
  · exact scalars_treeIssues hscalars i (mem_sortPython.1 hi)
  · exact scalars_undecodableKeys hscalars k (Text.mem_sortStrings.1 hk)

/-- Its numbers are those of the document. -/
theorem readsTree_report (h : IsPortableDocument I ms) : Python.ReadsTree (treeReport ms).toTree :=
  every_toTree (fun _ _ => trivial) trivial trivial (fun _ _ => trivial)
    (h.collect fun _ _ data _ => .base64 data).2.1
    (h.collect fun _ hn _ hbytes => h.encodeTree hn hbytes).2.1 fun _ _ => trivial

/-- It nests two levels deeper. -/
theorem depth_report (h : IsPortableDocument I ms) : (treeReport ms).toTree.depth ≤ 102 := by
  have hdecoded := (h.collect fun _ _ data _ => .base64 data).2.2.2
  have hreencoded := (h.collect fun _ hn _ hbytes => h.encodeTree hn hbytes).2.2.2
  refine Json.depth_obj_le_iff.2 ?_
  simp only [List.forall_mem_cons]
  refine ⟨?_, Json.depth_obj_le_iff.2 hdecoded, Json.depth_obj_le_iff.2 hreencoded, ?_, List.forall_mem_nil _⟩
  · refine Json.depth_arr_le_iff.2 (List.forall_mem_map.2 fun i _ => Json.depth_obj_le_iff.2 ?_)
    simp only [List.forall_mem_cons]
    exact ⟨Nat.zero_le _, Nat.zero_le _, List.forall_mem_nil _⟩
  · exact Json.depth_arr_le_iff.2 (List.forall_mem_map.2 fun k _ => Nat.zero_le _)

end Portable

end Conformance
