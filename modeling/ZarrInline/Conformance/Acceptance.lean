import ZarrInline.Conformance.Determinism
import ZarrInline.Python.Portable

/-!
# The metadata that the three accept

TypeScript and Rust take metadata for UTF-8 and check the numbers that are kept.  Python takes
the encoding that `json.detect_encoding` finds, reads the number tokens of replaced members
too, and no integer of more than 4300 digits.  The three accept the same portable bytes, and
give the same bytes back, where none of the three differences shows (`accepts_alike_iff`).
-/

namespace Conformance

open Python (Interpreter IsText ReadsNumbers)
open Rust (Crates)
open TypeScript (NoIndexNames)

variable {I : Interpreter} {C : Crates} {data : List UInt8} {text : List ℕ} {raw : Json.Raw}

/-! ## Portable bytes -/

/-- The bytes of a text that nests at most 100 levels, without lone surrogates, without a byte
order mark and without member names that are array indices. -/
structure IsPortable (data : List UInt8) : Prop where
  unmarked : [0xEF, 0xBB, 0xBF].isPrefixOf data = false
  depth_le : ∀ {text raw}, IsText data text raw → Json.depth raw ≤ 100
  scalars : ∀ {text raw}, IsText data text raw → Json.HasScalars raw
  names : ∀ {text raw}, IsText data text raw → NoIndexNames raw

theorem isPortable_of_isText (htext : IsText data text raw)
    (hmark : [0xEF, 0xBB, 0xBF].isPrefixOf data = false) (hdepth : Json.depth raw ≤ 100)
    (hscalars : Json.HasScalars raw) (hnames : NoIndexNames raw) : IsPortable data where
  unmarked := hmark
  depth_le h := (htext.unique h).2 ▸ hdepth
  scalars h := (htext.unique h).2 ▸ hscalars
  names h := (htext.unique h).2 ▸ hnames

/-- The key of the metadata at the root, in each language. -/
def pythonKey : Python.PyString := Python.py "zarr.json"

def typeScriptKey : TypeScript.JsString := TypeScript.ofAscii (Json.lit "zarr.json")

def rustKey : Rust.RustString := "zarr.json".toList

/-- The three store what decodes to the same bytes, and the bytes were JSON in UTF-8. -/
structure AcceptedAs (I : Interpreter) (C : Crates) (data out : List UInt8) : Prop where
  python : ∃ v, Python.encodeValue I pythonKey data = .ok v ∧
    Python.decodeValue I pythonKey v = .ok out
  typeScript : ∃ v, TypeScript.encodeValue typeScriptKey data = .ok v ∧
    TypeScript.decodeValue typeScriptKey v = .ok out
  rust : ∃ v, Rust.encodeValue C rustKey data = .ok v ∧ Rust.decodeValue C rustKey v = .ok out
  json : ∃ text raw, Unicode.decodeUtf8 false data = some text ∧ Json.parse .none text = .ok raw

/-- The three fail. -/
structure Refused (I : Interpreter) (C : Crates) (data : List UInt8) : Prop where
  python : ∀ v, Python.encodeValue I pythonKey data ≠ .ok v
  typeScript : ∀ v, TypeScript.encodeValue typeScriptKey data ≠ .ok v
  rust : ∀ v, Rust.encodeValue C rustKey data ≠ .ok v

/-- The three agree on the bytes of a metadata document. -/
def AcceptsAlike (I : Interpreter) (C : Crates) (data : List UInt8) : Prop :=
  Refused I C data ∨ ∃ out, AcceptedAs I C data out

/-- Nothing that only Python sees is in the text of an object: in UTF-8, its number tokens are
read if those that are kept are in range, and in another encoding they are not all read. -/
def HidesNothing (data : List UInt8) : Prop :=
  ∀ text raw, IsText data text raw → (Json.read raw).isObj = true →
    if Python.detectEncoding data = .utf8 false then (Json.read raw).HasNumbers → ReadsNumbers raw
    else ¬ ReadsNumbers raw

/-! ## What each accepts -/

/-- The bytes that an object is read as. -/
def objectBytes (raw : Json.Raw) : List UInt8 :=
  Unicode.encodeUtf8 (Json.canonicalText (Json.read raw))

/-- The text of an object in UTF-8, with its numbers in range. -/
structure IsUtf8Object (data : List UInt8) (raw : Json.Raw) : Prop where
  utf8 : Python.detectEncoding data = .utf8 false
  text : ∃ text, IsText data text raw
  obj : (Json.read raw).isObj = true
  numbers : (Json.read raw).HasNumbers

/-- The decoder of TypeScript takes UTF-8. -/
theorem decodeUtf8_of_utf8Decode {s : TypeScript.JsString}
    (hdecode : TypeScript.utf8Decode data = .ok s) :
    Unicode.decodeUtf8 false data = some (Unicode.codePoints s) := by
  obtain ⟨hwell, rfl⟩ := TypeScript.utf8Decode_eq_ok hdecode
  rw [TypeScript.utf8Encode_of_isWellFormed hwell]
  exact Unicode.decodeUtf8_encodeUtf8 fun c hc =>
    ⟨(Unicode.codePoints_isScalar hwell c hc).1, Or.inr (Unicode.codePoints_isScalar hwell c hc).2⟩

theorem utf8Decode_of_decodeUtf8 (hdecode : Unicode.decodeUtf8 false data = some text) :
    TypeScript.utf8Decode data = .ok (Unicode.encodeUtf16 text) := by
  rw [TypeScript.utf8Decode, hdecode]

theorem isUtf8Object_of_rust {v : Rust.Value} (hv : Rust.encodeValue C rustKey data = .ok v) :
    ∃ raw, IsUtf8Object data raw := by
  obtain ⟨hparse, hobject⟩ := (Rust.encodeValue_metadata_eq_ok (by decide)).1 hv
  obtain ⟨hread, hnumbers⟩ := Rust.strictFromSlice_eq_ok_iff.1 hparse
  obtain ⟨text, raw, hdecode, hraw, hscalars, rfl⟩ := Rust.serdeRead_eq_some_iff.1 hread
  obtain ⟨hutf8, htext⟩ := Python.isText_of_utf8 hdecode (Json.parse_none_of_parse hraw)
  exact ⟨raw, hutf8, ⟨_, htext⟩, Rust.isObject_ofRaw.symm.trans hobject,
    Json.hasNumbers_map.1 hnumbers⟩

section Portable

variable (h : IsPortable data)

include h

theorem IsPortable.python_iff (hdepth : 100 ≤ I.scanDepth) (htext : IsText data text raw)
    {v : Python.PyValue} : Python.encodeValue I pythonKey data = .ok v ↔
      ReadsNumbers raw ∧ (Json.read raw).isObj = true ∧ Python.ofRaw raw = v := by
  rw [Python.encodeValue_metadata_eq_ok (by decide),
    Python.strictLoadsBytes_eq_ok_iff htext ((h.depth_le htext).trans hdepth), and_assoc]
  refine and_congr_right fun _ => ?_
  constructor
  · rintro ⟨rfl, hdict⟩
    exact ⟨Python.isDict_ofRaw.symm.trans hdict, rfl⟩
  · rintro ⟨hobj, rfl⟩
    exact ⟨rfl, Python.isDict_ofRaw.trans hobj⟩

theorem IsPortable.python_decodeValue (hframes : 100 + max I.textFrames I.floatFrames ≤ I.frames)
    (htext : IsText data text raw) (hnumbers : ReadsNumbers raw) (hobj : (Json.read raw).isObj = true) :
    Python.decodeValue I pythonKey (Python.ofRaw raw) = .ok (objectBytes raw) := by
  refine Python.decodeValue_ofRaw (by decide) hnumbers (h.scalars htext) hobj ?_
  have hdepth := h.depth_le htext
  omega

theorem IsPortable.isUtf8Object_of_typeScript {v : TypeScript.JsValue}
    (hv : TypeScript.encodeValue typeScriptKey data = .ok v) : ∃ raw, IsUtf8Object data raw := by
  obtain ⟨s, hdecode, hparse, hplain⟩ := (TypeScript.encodeValue_metadata_eq_ok (by decide)).1 hv
  obtain ⟨raw, hraw, -⟩ := TypeScript.strictParse_eq_ok.1 hparse
  obtain ⟨hutf8, htext⟩ := Python.isText_of_utf8 (decodeUtf8_of_utf8Decode hdecode) hraw
  refine ⟨raw, hutf8, ⟨_, htext⟩, ?_, ?_⟩
  · rw [← TypeScript.isPlainObject_strictParse hraw (h.names htext) (h.scalars htext) hparse]
    exact hplain
  · exact (TypeScript.exists_strictParse_iff hraw (h.names htext) (h.scalars htext)).1 ⟨v, hparse⟩

theorem IsPortable.exists_typeScript (hobj : IsUtf8Object data raw) :
    ∃ v, TypeScript.encodeValue typeScriptKey data = .ok v ∧
      TypeScript.decodeValue typeScriptKey v = .ok (objectBytes raw) := by
  obtain ⟨text, htext⟩ := hobj.text
  have hnames := h.names htext
  have hscalars := h.scalars htext
  have hraw : Json.parse .none (Unicode.codePoints (Unicode.encodeUtf16 text)) = .ok raw := by
    rw [Unicode.codePoints_encodeUtf16 (Json.isScalar_of_parse htext.parsed hscalars)]
    exact htext.parsed
  obtain ⟨v, hv⟩ := (TypeScript.exists_strictParse_iff hraw hnames hscalars).2 hobj.numbers
  have hplain : TypeScript.isPlainObject v = true :=
    (TypeScript.isPlainObject_strictParse hraw hnames hscalars hv).trans hobj.obj
  obtain ⟨s, hs, hbytes⟩ := TypeScript.canonicalStringify_strictParse hraw hnames hscalars hv
  refine ⟨v, (TypeScript.encodeValue_metadata_eq_ok (by decide)).2 ⟨_, ?_, hv, hplain⟩, ?_⟩
  · exact utf8Decode_of_decodeUtf8 (htext.decodeUtf8 hobj.utf8 hscalars)
  · rw [TypeScript.decodeValue_metadata (by decide) hplain, hs]
    exact congrArg Except.ok hbytes

theorem IsPortable.exists_rust (hobj : IsUtf8Object data raw) :
    ∃ v, Rust.encodeValue C rustKey data = .ok v ∧
      Rust.decodeValue C rustKey v = .ok (objectBytes raw) := by
  obtain ⟨text, htext⟩ := hobj.text
  have hscalars := h.scalars htext
  have hnumbers : Json.HasNumbers (Rust.ofRaw raw) := Json.hasNumbers_map.2 hobj.numbers
  have hobject : Rust.isObject (Rust.ofRaw raw) = true := Rust.isObject_ofRaw.trans hobj.obj
  have hraw : Json.parse Rust.serdeLimits text = .ok raw := by
    refine Json.parse_eq_ok_iff.2 ⟨(Json.parse_eq_ok_iff.1 htext.parsed).1, ?_, fun d hd => ?_⟩
    · exact Json.every_of_forall (fun _ => trivial) (fun _ => rfl) (fun _ => trivial) raw
    · rw [← Option.some.inj hd]
      exact (h.depth_le htext).trans (by decide)
  refine ⟨Rust.ofRaw raw, (Rust.encodeValue_metadata_eq_ok (by decide)).2 ⟨?_, hobject⟩, ?_⟩
  · exact Rust.strictFromSlice_eq_ok_iff.2 ⟨Rust.serdeRead_eq_some_iff.2
      ⟨text, raw, htext.decodeUtf8 hobj.utf8 hscalars, hraw, hscalars, rfl⟩, hnumbers⟩
  · have hkey : Rust.isMetadataKey rustKey = true := by decide
    have hdecode : Rust.decodeValue C rustKey (Rust.ofRaw raw)
        = (Rust.canonicalToString C (Rust.ofRaw raw)).map Unicode.encodeUtf8 := by
      simp only [Rust.decodeValue, hkey, hobject, if_true, not_true_eq_false, if_false]
    rw [hdecode, Rust.canonicalToString_eq hnumbers, Rust.canonicalTree_ofRaw hscalars]
    rfl

end Portable

/-! ## Where they agree -/

/-- The three agree on portable bytes if and only if the text of an object hides nothing that
only Python sees. -/
theorem accepts_alike_iff (I : Interpreter) (C : Crates) (data : List UInt8) (h : IsPortable data)
    (hdepth : 100 ≤ I.scanDepth) (hframes : 100 + max I.textFrames I.floatFrames ≤ I.frames) :
    AcceptsAlike I C data ↔ HidesNothing data := by
  constructor
  · intro hagree text raw htext hobj
    split
    · next hutf8 =>
        intro hnumbers
        rcases hagree with hrefused | ⟨out, haccepted⟩
        · obtain ⟨v, hv, -⟩ := h.exists_typeScript ⟨hutf8, ⟨_, htext⟩, hobj, hnumbers⟩
          exact absurd hv (hrefused.typeScript v)
        · obtain ⟨v, hv, -⟩ := haccepted.python
          exact ((h.python_iff hdepth htext).1 hv).1
    · next hwide =>
        intro hreads
        have hv := (h.python_iff hdepth htext).2 ⟨hreads, hobj, rfl⟩
        rcases hagree with hrefused | ⟨out, haccepted⟩
        · exact hrefused.python _ hv
        · obtain ⟨v, hv, -⟩ := haccepted.typeScript
          obtain ⟨raw', hraw'⟩ := h.isUtf8Object_of_typeScript hv
          exact hwide hraw'.utf8
  · intro hhides
    by_cases hobject : ∃ raw, IsUtf8Object data raw
    · obtain ⟨raw, hraw⟩ := hobject
      obtain ⟨text, htext⟩ := hraw.text
      have hreads : ReadsNumbers raw := by
        have himp := hhides text raw htext hraw.obj
        rw [if_pos hraw.utf8] at himp
        exact himp hraw.numbers
      have hpython := (h.python_iff hdepth htext).2 ⟨hreads, hraw.obj, rfl⟩
      exact Or.inr ⟨objectBytes raw, ⟨_, hpython, h.python_decodeValue hframes htext hreads hraw.obj⟩,
        h.exists_typeScript hraw, h.exists_rust hraw, text, raw,
        htext.decodeUtf8 hraw.utf8 (h.scalars htext), htext.parsed⟩
    · refine Or.inl ⟨fun v hv => ?_, fun v hv => hobject (h.isUtf8Object_of_typeScript hv),
        fun v hv => hobject (isUtf8Object_of_rust hv)⟩
      obtain ⟨hload, -⟩ := (Python.encodeValue_metadata_eq_ok (by decide)).1 hv
      obtain ⟨text, raw, htext⟩ := Python.isText_of_strictLoadsBytes hload
      obtain ⟨hreads, hobj, -⟩ := (h.python_iff hdepth htext).1 hv
      have himp := hhides text raw htext hobj
      split at himp
      · next hutf8 => exact hobject ⟨raw, hutf8, ⟨_, htext⟩, hobj, hreads.hasNumbers⟩
      · exact himp hreads

theorem accepts_alike_iff_sample :
    IsPortable (Rust.asBytes sampleText) ∧
      (AcceptsAlike Python.cpython Rust.crates (Rust.asBytes sampleText) ↔
        HidesNothing (Rust.asBytes sampleText)) := by
  have htext : IsText (Rust.asBytes sampleText) (Rust.codes sampleText) sampleTree :=
    ⟨by decide +kernel, parse_sampleText (Json.within_none _)⟩
  have hportable := isPortable_of_isText htext (by decide +kernel) (by decide +kernel) hasScalars_sampleTree
    (by decide +kernel)
  exact ⟨hportable, accepts_alike_iff Python.cpython Rust.crates _ hportable (by decide) (by decide)⟩

/-- `{}` in UTF-16. -/
def wideObject : List UInt8 := [0x7B, 0x00, 0x7D, 0x00]

/-- Python stores it, and the others fail. -/
theorem not_accepts_alike_wideObject :
    IsPortable wideObject ∧
      Python.encodeValue Python.cpython pythonKey wideObject = .ok (.obj []) ∧
        ¬ AcceptsAlike Python.cpython Rust.crates wideObject := by
  have hparse : Json.parse .none (Json.text (.obj [])) = .ok (.obj []) :=
    Json.parse_none_text (by decide)
  have htext : IsText wideObject (Json.text (.obj [])) (.obj []) := ⟨by decide, hparse⟩
  have hportable := isPortable_of_isText htext (by decide) (by decide) (by decide) (by decide)
  have hpython : Python.encodeValue Python.cpython pythonKey wideObject = .ok (.obj []) :=
    (hportable.python_iff (by decide) htext).2 ⟨by decide, rfl, rfl⟩
  refine ⟨hportable, hpython, ?_⟩
  rintro (hrefused | ⟨out, haccepted⟩)
  · exact hrefused.python _ hpython
  · obtain ⟨text, raw, hdecode, hraw⟩ := haccepted.json
    have hutf8 := (Python.isText_of_utf8 hdecode hraw).1
    exact absurd hutf8 (by decide)

end Conformance
