import ZarrInline.Conformance.Crosscheck

/-!
# Names in the crosscheck input contract

The paths and the data types of a trace.  The three harnesses split a path in their own
strings, which encode the same code points.
-/

namespace Conformance.Crosscheck

open Numeric (Text Double NumberToken)
open Text (Marks)

/-! ## Paths -/

/-- A segment of a node path: not empty, not reserved, and not all periods. -/
def IsPortableSegment (segment : Text) : Prop :=
  segment ≠ [] ∧ ['_'.toNat, '_'.toNat].isPrefixOf segment = false ∧ ∃ c ∈ segment, c ≠ '.'.toNat

instance : DecidablePred IsPortableSegment := fun _ => inferInstanceAs (Decidable (_ ∧ _))

/-- A node path that no host library normalizes. -/
def IsPortablePath (path : Text) : Prop :=
  path ≠ [] ∧ ∀ segment ∈ path.splitOn '/'.toNat, IsPortableSegment segment

instance : DecidablePred IsPortablePath := fun _ => inferInstanceAs (Decidable (_ ∧ _))

section Segments

variable {β : Type} [DecidableEq β] {g : ℕ → List β} {slash underscore period : β}

/-- A harness whose strings encode the code points refuses the same segments. -/
theorem isPortablePath_iff (refused : List β → Bool)
    (hrefused : ∀ s, refused s = false ↔
      s ≠ [] ∧ [underscore, underscore].isPrefixOf s = false ∧ ∃ u ∈ s, u ≠ period)
    {path : Text} (hslash : ∀ c ∈ path, Marks g '/'.toNat slash c)
    (hunderscore : ∀ c ∈ path, Marks g '_'.toNat underscore c)
    (hperiod : ∀ c ∈ path, Marks g '.'.toNat period c) :
    IsPortablePath path ↔
      path.flatMap g ≠ [] ∧ ((path.flatMap g).splitOn slash).any refused = false := by
  rw [IsPortablePath, Text.splitOn_flatMap hslash, List.any_eq_false, List.forall_mem_map]
  refine and_congr (not_congr (Text.flatMap_eq_nil_iff_of_marks hslash).symm) ?_
  refine forall₂_congr fun segment hsegment => ?_
  have hseg : ∀ c ∈ segment, c ∈ path := fun c hc => Text.mem_of_mem_splitOn hsegment hc
  rw [Bool.not_eq_true, hrefused, IsPortableSegment,
    Text.two_isPrefixOf_flatMap fun c hc => hunderscore c (hseg c hc)]
  refine and_congr (not_congr (Text.flatMap_eq_nil_iff_of_marks fun c hc => hslash c (hseg c hc)).symm)
    (and_congr_right fun _ => ?_)
  have hall := Text.all_flatMap fun c hc => hperiod c (hseg c hc)
  rw [← not_iff_not]
  simp only [not_exists, not_and, not_not]
  exact hall.symm

end Segments

/-- Code points mark themselves. -/
theorem marks_self (a c : ℕ) : Marks (fun c => [c]) a a c :=
  ⟨by simp, by rintro rfl; rfl, fun h => by simpa using Ne.symm h⟩

/-- An ASCII character shows in UTF-16. -/
theorem marks_encodeUnits {a c : ℕ} (ha : a < 0x80) (hc : c < 0x110000) :
    Marks Unicode.encodeUnits a (UInt16.ofNat a) c := by
  have hne : ∀ {n : ℕ}, n < 2 ^ 16 → n ≠ a → UInt16.ofNat a ≠ UInt16.ofNat n := by
    intro n hn hna heq
    have hnat := congrArg UInt16.toNat heq
    rw [UInt16.toNat_ofNat_of_lt' (ha.trans (by norm_num)), UInt16.toNat_ofNat_of_lt' hn] at hnat
    exact hna hnat.symm
  refine ⟨?_, ?_, fun hca hmem => ?_⟩
  · rw [Unicode.encodeUnits]
    split_ifs <;> simp
  · rintro rfl
    rw [TypeScript.encodeUnits_of_lt (ha.trans (by norm_num))]
  · rw [Unicode.encodeUnits] at hmem
    split_ifs at hmem with hlt
    · exact hne hlt hca (List.mem_singleton.1 hmem)
    · rcases List.mem_cons.1 hmem with h | h
      · exact hne (by omega) (by omega) h
      · exact hne (by omega) (by omega) (List.mem_singleton.1 h)

/-- An ASCII character shows in characters. -/
theorem marks_ofNat {a c : ℕ} (ha : a < 0x80) (hc : Unicode.IsScalar c) :
    Marks (fun c => [Char.ofNat c]) a (Char.ofNat a) c := by
  refine ⟨by simp, by rintro rfl; rfl, fun hca hmem => hca ?_⟩
  have hchars : [Char.ofNat a] = [Char.ofNat c] := by
    rw [List.mem_singleton.1 hmem]
  have hcodes : ∀ n, Unicode.IsScalar n → Rust.codes (Rust.ofCodes [n]) = [n] := fun n hn =>
    Rust.codes_ofCodes (by simpa using hn)
  have heq := congrArg Rust.codes hchars
  have ha' := hcodes a (Unicode.isScalar_of_lt (ha.trans (by norm_num)))
  have hc' := hcodes c hc
  rw [Rust.ofCodes, List.map_singleton] at ha' hc'
  rw [ha', hc'] at heq
  exact (List.cons.inj heq).1.symm

/-! ## Strings -/

/-- The strings of a text are strings of code points. -/
def HasCodePoints (raw : Json.Raw) : Prop :=
  raw.Every (fun s => ∀ c ∈ Json.unescape s, c < 0x110000) (fun _ => True) (fun _ => True)

instance : DecidablePred HasCodePoints := fun raw => inferInstanceAs (Decidable (raw.Every _ _ _))

/-- The code points of a string. -/
def strToken? : Json.Raw → Option Text
  | .str s => some (Json.unescape s)
  | _ => none

theorem codePoints_of_strToken? {raw : Json.Raw} (h : HasCodePoints raw) {s : Text}
    (hs : strToken? raw = some s) : ∀ c ∈ s, c < 0x110000 := by
  cases raw with
  | str items => cases hs; exact (Json.every_str _).1 h
  | _ => cases hs

theorem scalars_of_strToken? {raw : Json.Raw} (h : Json.HasScalars raw) {s : Text}
    (hs : strToken? raw = some s) : ∀ c ∈ s, Unicode.IsScalar c := by
  cases raw with
  | str items => cases hs; exact (Json.every_str _).1 h
  | _ => cases hs

section Strings

variable {β : Type}

/-- What Python makes of a string only. -/
theorem python_bind_str {f : Python.PyValue → Option β} (hf : ∀ v, v.kind ≠ .str → f v = none)
    (raw : Json.Raw) :
    (Python.Crosscheck.readValue raw).bind f = (strToken? raw).bind fun s => f (.str s) := by
  cases raw with
  | str s => rfl
  | _ => exact Json.bind_eq_none_of_kind python_kind hf (by simp [Json.kind])

/-- What TypeScript makes of a string only. -/
theorem typescript_bind_str {f : TypeScript.JsValue → Option β}
    (hf : ∀ v, v.kind ≠ .str → f v = none) (raw : Json.Raw) :
    (TypeScript.Crosscheck.readValue raw).bind f
      = (strToken? raw).bind fun s => f (.str (Unicode.encodeUtf16 s)) := by
  cases raw with
  | str s => exact congrArg (fun t => f (.str t)) (TypeScript.stringValue_eq s)
  | _ => exact Json.bind_eq_none_of_kind typescript_kind hf (by simp [Json.kind])

/-- What Rust makes of a string only. -/
theorem rust_bind_str {f : Rust.Value → Option β} (hf : ∀ v, v.kind ≠ .str → f v = none)
    (raw : Json.Raw) :
    (Rust.Crosscheck.readValue raw).bind f
      = if Json.HasScalars raw then (strToken? raw).bind fun s => f (.str (Rust.ofCodes s))
        else none := by
  cases raw with
  | str s =>
      rw [Rust.Crosscheck.readValue]
      split_ifs <;> rfl
  | _ =>
      refine (Json.bind_eq_none_of_kind rust_kind hf (by simp [Json.kind])).trans ?_
      split_ifs <;> rfl

end Strings

/-- The code points of a node path. -/
def pathToken? (raw : Json.Raw) : Option Text :=
  (strToken? raw).bind fun s => if IsPortablePath s then some s else none

theorem python_segmentRefused (s : Python.PyString) : Python.Crosscheck.segmentRefused s = false ↔
    s ≠ [] ∧ ['_'.toNat, '_'.toNat].isPrefixOf s = false ∧ ∃ c ∈ s, c ≠ '.'.toNat := by
  have hdots : s ≠ [] → (s.toFinset ≠ {'.'.toNat} ↔ ∃ c ∈ s, c ≠ '.'.toNat) := by
    intro hs
    rw [Ne, Finset.eq_singleton_iff_nonempty_unique_mem]
    simp [hs]
  rw [Python.Crosscheck.segmentRefused, Bool.or_eq_false_iff, Bool.or_eq_false_iff,
    decide_eq_false_iff_not, decide_eq_false_iff_not, and_assoc]
  refine and_congr_right fun hs => and_congr_right fun _ => hdots hs

theorem typescript_segmentRefused (s : TypeScript.JsString) :
    TypeScript.Crosscheck.segmentRefused s = false ↔
      s ≠ [] ∧ [TypeScript.unit '_', TypeScript.unit '_'].isPrefixOf s = false ∧
        ∃ u ∈ s, u ≠ TypeScript.unit '.' := by
  rw [TypeScript.Crosscheck.segmentRefused, Bool.or_eq_false_iff, Bool.or_eq_false_iff,
    decide_eq_false_iff_not, List.length_eq_zero_iff, and_assoc]
  refine and_congr_right fun hs => and_congr_right fun _ => ?_
  rw [decide_eq_true hs, Bool.true_and, List.all_eq_false]
  simp

theorem rust_segmentRefused (s : Rust.RustString) : Rust.Crosscheck.segmentRefused s = false ↔
    s ≠ [] ∧ ['_', '_'].isPrefixOf s = false ∧ ∃ c ∈ s, c ≠ '.' := by
  rw [Rust.Crosscheck.segmentRefused, Bool.or_eq_false_iff, Bool.or_eq_false_iff,
    decide_eq_false_iff_not, and_assoc]
  refine and_congr_right fun hs => and_congr_right fun _ => ?_
  rw [List.all_eq_false]
  simp

/-- Two checks in a row. -/
theorem toOption_checks {ε α : Type} {p q : Prop} [Decidable p] [Decidable q] {refused : Bool}
    (h : q ↔ ¬ p ∧ refused = false) (e e' : ε) (a : α) :
    (if p then .error e else if refused = true then .error e' else .ok a : Except ε α).toOption
      = if q then some a else none := by
  by_cases hp : p
  · rw [if_pos hp, if_neg fun hq => (h.1 hq).1 hp]
    rfl
  · cases refused with
    | true =>
        rw [if_neg hp, if_pos rfl, if_neg fun hq => Bool.noConfusion (h.1 hq).2]
        rfl
    | false =>
        rw [if_neg hp, if_neg Bool.false_ne_true, if_pos (h.2 ⟨hp, rfl⟩)]
        rfl

/-- What the `_path` of Python accepts. -/
theorem python_path (raw : Json.Raw) (what : Python.PyString) :
    ((Python.Crosscheck.readValue raw).bind fun v => (Python.Crosscheck.path v what).toOption)
      = pathToken? raw := by
  have hother : ∀ v : Python.PyValue, v.kind ≠ .str →
      (Python.Crosscheck.path v what).toOption = none := by
    intro v hv
    cases v with
    | str s => exact absurd rfl hv
    | _ => rfl
  rw [python_bind_str hother, pathToken?]
  refine Option.bind_congr fun s _ => ?_
  have hportable := isPortablePath_iff Python.Crosscheck.segmentRefused python_segmentRefused
    (fun c (_ : c ∈ s) => marks_self _ c) (fun c _ => marks_self _ c) fun c _ => marks_self _ c
  rw [List.flatMap_singleton'] at hportable
  exact toOption_checks hportable _ _ s

/-- What the `portablePath` of TypeScript accepts. -/
theorem typescript_portablePath {raw : Json.Raw} (hraw : HasCodePoints raw)
    (what : TypeScript.JsString) :
    ((TypeScript.Crosscheck.readValue raw).bind fun v =>
        (TypeScript.Crosscheck.portablePath v what).toOption)
      = (pathToken? raw).map Unicode.encodeUtf16 := by
  have hother : ∀ v : TypeScript.JsValue, v.kind ≠ .str →
      (TypeScript.Crosscheck.portablePath v what).toOption = none := by
    intro v hv
    cases v with
    | str s => exact absurd rfl hv
    | _ => rfl
  rw [typescript_bind_str hother, pathToken?, Option.map_bind]
  refine Option.bind_congr fun s hs => ?_
  have hs : ∀ c ∈ s, c < 0x110000 := codePoints_of_strToken? hraw hs
  have hmark : ∀ a < 0x80, ∀ c ∈ s, Marks Unicode.encodeUnits a (UInt16.ofNat a) c :=
    fun a ha c hc => marks_encodeUnits ha (hs c hc)
  have hportable := isPortablePath_iff TypeScript.Crosscheck.segmentRefused typescript_segmentRefused
    (hmark _ (by decide)) (hmark _ (by decide)) (hmark _ (by decide))
  rw [Function.comp_apply, apply_ite (Option.map Unicode.encodeUtf16)]
  refine toOption_checks (hportable.trans (and_congr_left' (not_congr ?_))) _ _ _
  exact List.length_eq_zero_iff.symm

/-- What the `portable_path` of Rust accepts. -/
theorem rust_portablePath (raw : Json.Raw) (what : Rust.RustString) :
    ((Rust.Crosscheck.readValue raw).bind fun v => (Rust.Crosscheck.portablePath v what).toOption)
      = if Json.HasScalars raw then (pathToken? raw).map Rust.ofCodes else none := by
  have hother : ∀ v : Rust.Value, v.kind ≠ .str →
      (Rust.Crosscheck.portablePath v what).toOption = none := by
    intro v hv
    cases v with
    | str s => exact absurd rfl hv
    | _ => rfl
  rw [rust_bind_str hother, pathToken?, Option.map_bind]
  by_cases hraw : Json.HasScalars raw
  · rw [if_pos hraw, if_pos hraw]
    refine Option.bind_congr fun s hs => ?_
    have hs : ∀ c ∈ s, Unicode.IsScalar c := scalars_of_strToken? hraw hs
    have hmark : ∀ a < 0x80, ∀ c ∈ s, Marks (fun c => [Char.ofNat c]) a (Char.ofNat a) c :=
      fun a ha c hc => marks_ofNat ha (hs c hc)
    have hportable := isPortablePath_iff Rust.Crosscheck.segmentRefused rust_segmentRefused
      (hmark _ (by decide)) (hmark _ (by decide)) (hmark _ (by decide))
    have hcodes : s.flatMap (fun c => [Char.ofNat c]) = Rust.ofCodes s := by
      rw [Rust.ofCodes, List.map_eq_flatMap]
    rw [hcodes] at hportable
    rw [Function.comp_apply, apply_ite (Option.map Rust.ofCodes)]
    exact toOption_checks hportable _ _ _
  · rw [if_neg hraw, if_neg hraw]

/-! ## Data types -/

/-- The names of the data types. -/
def portableDtypes : List Text :=
  ["bool", "uint8", "int32", "int64", "float32", "float64"].map Json.lit

/-- The name of a data type. -/
def dtypeToken? (raw : Json.Raw) : Option Text :=
  (strToken? raw).bind fun s => if s ∈ portableDtypes then some s else none

theorem lt_of_mem_portableDtypes : ∀ t ∈ portableDtypes, ∀ c ∈ t, c < 128 := by decide

/-- Only an ASCII text is encoded as one. -/
theorem encodeUtf16_eq_ofAscii {s t : Text} (hs : ∀ c ∈ s, c < 0x110000) (ht : ∀ c ∈ t, c < 128) :
    Unicode.encodeUtf16 s = TypeScript.ofAscii t ↔ s = t := by
  constructor
  · intro h
    have hascii : ∀ c ∈ s, c < 128 := by
      intro c hc
      have hmark : ∀ d < 128, Marks Unicode.encodeUnits d (UInt16.ofNat d) c := fun d hd =>
        marks_encodeUnits hd (hs c hc)
      obtain ⟨u, hu⟩ := List.exists_mem_of_ne_nil _ (hmark 0 (by norm_num)).ne_nil
      have hunit : u ∈ TypeScript.ofAscii t := by
        rw [← h, Unicode.encodeUtf16]
        exact List.mem_flatMap.2 ⟨c, hc, hu⟩
      obtain ⟨d, hd, rfl⟩ := List.mem_map.1 hunit
      by_contra hlarge
      refine (hmark d (ht d hd)).not_mem (fun heq => ?_) hu
      exact hlarge (heq ▸ ht d hd)
    have hunits : TypeScript.ofAscii s = TypeScript.ofAscii t := by
      rw [← h, TypeScript.encodeUtf16_of_lt fun c hc => (hascii c hc).trans (by norm_num)]
    rw [← TypeScript.map_toNat_ofAscii hascii, hunits, TypeScript.map_toNat_ofAscii ht]
  · rintro rfl
    exact TypeScript.encodeUtf16_of_lt fun c hc => (ht c hc).trans (by norm_num)

/-- What the `_dtype` of Python accepts. -/
theorem python_dtype (raw : Json.Raw) (what : Python.PyString) :
    ((Python.Crosscheck.readValue raw).bind fun v => (Python.Crosscheck.dtype v what).toOption)
      = dtypeToken? raw := by
  have hother : ∀ v : Python.PyValue, v.kind ≠ .str →
      (Python.Crosscheck.dtype v what).toOption = none := by
    intro v hv
    cases v with
    | str s => exact absurd rfl hv
    | _ => rfl
  rw [python_bind_str hother, dtypeToken?]
  refine Option.bind_congr fun s _ => ?_
  rw [Python.Crosscheck.dtype, apply_ite Except.toOption]
  exact if_congr Iff.rfl rfl rfl

/-- What the `portableDtype` of TypeScript accepts. -/
theorem typescript_portableDtype {raw : Json.Raw} (hraw : HasCodePoints raw)
    (what : TypeScript.JsString) :
    ((TypeScript.Crosscheck.readValue raw).bind fun v =>
        (TypeScript.Crosscheck.portableDtype v what).toOption)
      = (dtypeToken? raw).map Unicode.encodeUtf16 := by
  have hother : ∀ v : TypeScript.JsValue, v.kind ≠ .str →
      (TypeScript.Crosscheck.portableDtype v what).toOption = none := by
    intro v hv
    cases v with
    | str s => exact absurd rfl hv
    | _ => rfl
  have hperm : TypeScript.Crosscheck.portableDtypes.Perm (portableDtypes.map TypeScript.ofAscii) := by
    decide
  rw [typescript_bind_str hother, dtypeToken?, Option.map_bind]
  refine Option.bind_congr fun s hs => ?_
  have hs : ∀ c ∈ s, c < 0x110000 := codePoints_of_strToken? hraw hs
  have hmem : Unicode.encodeUtf16 s ∈ TypeScript.Crosscheck.portableDtypes ↔ s ∈ portableDtypes := by
    rw [hperm.mem_iff, List.mem_map]
    constructor
    · rintro ⟨t, ht, heq⟩
      rwa [(encodeUtf16_eq_ofAscii hs (lt_of_mem_portableDtypes t ht)).1 heq.symm]
    · intro hmem
      exact ⟨s, hmem, ((encodeUtf16_eq_ofAscii hs (lt_of_mem_portableDtypes s hmem)).2 rfl).symm⟩
  rw [Function.comp_apply, apply_ite (Option.map Unicode.encodeUtf16),
    TypeScript.Crosscheck.portableDtype, apply_ite Except.toOption]
  exact if_congr hmem rfl rfl

/-- What the `portable_dtype` of Rust accepts. -/
theorem rust_portableDtype (raw : Json.Raw) (what : Rust.RustString) :
    ((Rust.Crosscheck.readValue raw).bind fun v => (Rust.Crosscheck.portableDtype v what).toOption)
      = (dtypeToken? raw).map Rust.ofCodes := by
  have hother : ∀ v : Rust.Value, v.kind ≠ .str →
      (Rust.Crosscheck.portableDtype v what).toOption = none := by
    intro v hv
    cases v with
    | str s => exact absurd rfl hv
    | _ => rfl
  have hcodes : Rust.Crosscheck.portableDtypes.map Rust.codes = portableDtypes := by decide
  rw [rust_bind_str hother, dtypeToken?, Option.map_bind]
  split_ifs with hraw
  · refine Option.bind_congr fun s hs => ?_
    have hs : ∀ c ∈ s, Unicode.IsScalar c := scalars_of_strToken? hraw hs
    have hmem : Rust.ofCodes s ∈ Rust.Crosscheck.portableDtypes ↔ s ∈ portableDtypes := by
      rw [← hcodes, List.mem_map]
      constructor
      · intro hmem
        exact ⟨_, hmem, Rust.codes_ofCodes hs⟩
      · rintro ⟨t, ht, rfl⟩
        rwa [Rust.ofCodes_codes]
    rw [Function.comp_apply, apply_ite (Option.map Rust.ofCodes),
      Rust.Crosscheck.portableDtype, apply_ite Except.toOption]
    exact if_congr hmem rfl rfl
  · -- the name of a data type is ASCII
    cases raw with
    | str items =>
        have hmem : Json.unescape items ∉ portableDtypes := by
          refine fun hmem => hraw ((Json.every_str _).2 fun c hc => ?_)
          exact Unicode.isScalar_of_lt ((lt_of_mem_portableDtypes _ hmem c hc).trans (by norm_num))
        show none = Option.map Rust.ofCodes (if Json.unescape items ∈ portableDtypes then _ else _)
        rw [if_neg hmem]
        rfl
    | _ => rfl

end Conformance.Crosscheck
