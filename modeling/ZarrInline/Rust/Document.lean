import ZarrInline.Rules.Validity
import ZarrInline.Rust.Number
import ZarrInline.Text.Ordering

/-!
# The Rust value codec

`document.rs`: canonical serialization, strict parsing, and the conversion of the bytes of
a store entry to the value of a document and back.

`canonical_to_string` panics at a number that overflows binary64.  Values that were parsed
strictly hold none (`strictFromSlice_eq_ok_iff`), so for them it is the canonical text
of the tree that the text left (`canonicalToString_eq`).
-/

namespace Rust

open Numeric (Text Double NumberToken Exponent digitChar)

variable {C : Crates}

/-- `is_metadata_key`. -/
def isMetadataKey (key : RustString) : Bool := Rules.isMetadataKey id key

/-! ## Canonical text -/

/-- `is_integer_literal`. -/
def isIntegerLiteral (text : Text) : Bool :=
  let digits := (NumberToken.readSign text).2
  !digits.isEmpty && digits.all fun c => (Numeric.digit? c).isSome

/-- `write_canonical_number`. -/
def writeCanonicalNumber (C : Crates) (n : NumberToken) : Except RustError Text :=
  let value := n.render
  if isIntegerLiteral value then .ok (if value = Json.lit "-0" then Json.lit "0" else value)
  else
    let parsed := Double.ofToken n
    if ¬ parsed.IsFinite then .error (.overflow n)
    else
      match esNumberStr C parsed with
      | some text => .ok text
      | none => .error .panic

/-- `CanonicalFormatter`, and `serde_json` for the rest. -/
def canonicalFormatter (C : Crates) : Json.Script RustString NumberToken ℕ RustError where
  ascii := id
  str := fun s => .ok (Json.strText (Json.canonicalItems (codes s)))
  num := writeCanonicalNumber C

/-- `canonical_to_string`: an error of the formatter is a panic. -/
def canonicalToString (C : Crates) (value : Value) : Except RustError Text :=
  match value.write (canonicalFormatter C) with
  | .ok out => .ok out
  | .error _ => .error .panic

/-! ## Strict parsing -/

/-- `check_numbers` at a number. -/
def checkNumber (n : NumberToken) : Except RustError NumberToken :=
  if isIntegerLiteral n.render then .ok n
  else if (Double.ofToken n).IsFinite then .ok n
  else .error (.overflow n)

/-- `check_numbers`. -/
def checkNumbers (value : Value) : Except RustError Unit := (value.traverse checkNumber).map fun _ => ()

/-- `strict_from_slice`. -/
def strictFromSlice (C : Crates) (data : Bytes) : Except RustError Value :=
  match C.fromSlice data with
  | none => .error .json
  | some parsed => do
      checkNumbers parsed
      return parsed

/-- `str::as_bytes`. -/
def asBytes (text : RustString) : Bytes := Unicode.encodeUtf8 (codes text)

/-- `strict_from_str`. -/
def strictFromStr (C : Crates) (text : RustString) : Except RustError Value :=
  strictFromSlice C (asBytes text)

/-- The order of strings is the order of their bytes. -/
theorem asBytes_lt_iff {a b : RustString} : asBytes a < asBytes b ↔ a < b := by
  have hflat : ∀ t : RustString, asBytes t = t.flatMap fun c => Unicode.encodeBytes c.toNat := by
    intro t
    rw [asBytes, Unicode.encodeUtf8, codes, List.flatMap_map]
  have hlt : ∀ c : Char, c.toNat < 0x110000 := fun c =>
    (isScalar_codes [c] c.toNat (List.mem_singleton_self _)).1
  rw [hflat, hflat]
  refine Text.flatMap_lt_iff (fun c _ => Unicode.encodeBytes_ne_nil _) ?_
    (fun _ _ => trivial) fun _ _ => trivial
  exact fun c d _ _ hcd => Unicode.before_encodeBytes (hlt d) hcd

/-! ## The value codec -/

/-- `decode_value`. -/
def decodeValue (C : Crates) (key : RustString) (value : Value) : Except RustError Bytes :=
  if isMetadataKey key then
    if ¬ isObject value then .error (.metadataMustMap key)
    else (canonicalToString C value).map Unicode.encodeUtf8
  else
    match value with
    | .arr _ => (canonicalToString C value).map Unicode.encodeUtf8
    | .obj _ => (canonicalToString C value).map Unicode.encodeUtf8
    | .str s =>
        match C.base64Decode s with
        | some data => .ok data
        | none => .error (.base64 key)
    | _ => .error (.byteMustMap key)

/-- `try_inline_json`. -/
def tryInlineJson (C : Crates) (data : Bytes) : Except RustError (Option Value) :=
  match strictFromSlice C data with
  | .error _ => .ok none
  | .ok parsed =>
      if isArray parsed || isObject parsed then do
        let text ← canonicalToString C parsed
        return if Unicode.encodeUtf8 text = data then some parsed else none
      else .ok none

/-- `encode_value`. -/
def encodeValue (C : Crates) (key : RustString) (data : Bytes) : Except RustError Value :=
  if isMetadataKey key then
    match strictFromSlice C data with
    | .error e => .error (.metadataNotJson key e)
    | .ok parsed => if isObject parsed then .ok parsed else .error (.metadataRequires key)
  else do
    match ← tryInlineJson C data with
    | some inlined => return inlined
    | none => return .str (C.base64Encode data)

/-! ## Numbers -/

theorem isIntegerLiteral_render (n : NumberToken) : isIntegerLiteral n.render = decide n.IsInteger :=
  NumberToken.all_digits_render n

/-- The digits of an integer, `-0` without its sign. -/
theorem render_integer {n : NumberToken} (h : n.IsInteger) :
    (if n.render = Json.lit "-0" then Json.lit "0" else n.render)
      = (NumberToken.ofInt n.intValue).render := by
  by_cases hzero : n.render = Json.lit "-0"
  · have hn := NumberToken.ofWord_render n
    rw [hzero] at hn
    obtain rfl : ⟨true, [0], [], none, by decide, by decide⟩ = n := Option.some.inj hn
    decide
  · rw [if_neg hzero, ← NumberToken.eq_ofInt h]
    intro hneg h0
    have hint : n.int = [0] := by
      rw [← Numeric.natDigits_ofDigits n.int_ne n.int_lead, h0, Numeric.natDigits_zero]
    refine hzero ?_
    rw [NumberToken.render, hneg, hint, h.1, h.2]
    decide

/-- A number is written in its canonical form, if it is in range. -/
theorem writeCanonicalNumber_eq (n : NumberToken) :
    writeCanonicalNumber C n
      = if Json.InRange n then .ok (Json.canonicalToken n).render else .error (.overflow n) := by
  unfold writeCanonicalNumber Json.InRange Json.canonicalToken
  simp only [isIntegerLiteral_render, decide_eq_true_eq]
  by_cases hn : n.IsInteger
  · simp only [if_pos hn, render_integer hn, if_pos (Or.inl hn)]
  · by_cases hfin : (Double.ofToken n).IsFinite
    · simp only [if_neg hn, hfin, not_true_eq_false, if_false, or_true, if_true,
        esNumberStr_eq C hfin, Double.toText_eq_render hfin]
    · simp only [hn, hfin, not_false_eq_true, if_true, or_self, if_false]

theorem checkNumber_eq (n : NumberToken) :
    checkNumber n = if Json.InRange n then .ok n else .error (.overflow n) := by
  unfold checkNumber Json.InRange
  simp only [isIntegerLiteral_render, decide_eq_true_eq]
  by_cases hn : n.IsInteger
  · simp [hn]
  · simp [hn]

theorem checkNumbers_eq_ok_iff {value : Value} : checkNumbers value = .ok () ↔ Json.HasNumbers value := by
  have hiff : ∀ n, Json.IsOk (checkNumber n) ↔ Json.InRange n := by
    intro n
    rw [checkNumber_eq]
    by_cases hn : Json.InRange n <;> simp [hn]
  have hok : Json.IsOk (checkNumbers value) ↔ Json.HasNumbers value := by
    rw [checkNumbers, Json.isOk_map, Json.isOk_traverse, Json.HasNumbers]
    constructor
    · exact Json.Every.imp (fun _ => id) (fun n => (hiff n).1) fun _ => id
    · exact Json.Every.imp (fun _ => id) (fun n => (hiff n).2) fun _ => id
  rw [← hok, Json.isOk_iff]
  exact ⟨fun h => ⟨_, h⟩, fun ⟨_, h⟩ => h⟩

/-! ## Canonical text of a tree -/

/-- The tree whose compact text the canonical text of a value is. -/
def canonicalTree (value : Value) : Json.Raw :=
  value.map (fun s => Json.canonicalItems (codes s)) Json.canonicalToken

/-- Values with numbers in range have a canonical text. -/
theorem canonicalToString_eq {value : Value} (h : Json.HasNumbers value) :
    canonicalToString C value = .ok (canonicalTree value).text := by
  have hwrite : Json.IsOk (value.write (canonicalFormatter C)) := by
    refine Json.isOk_write.2 (h.imp (fun _ _ => trivial) (fun n hn => ?_) fun _ _ => trivial)
    show Json.IsOk (writeCanonicalNumber C n)
    rw [writeCanonicalNumber_eq, if_pos hn]
    trivial
  obtain ⟨t, ht⟩ := Json.isOk_iff.1 hwrite
  have htext : t = (canonicalTree value).text := by
    refine Json.write_eq_text (w := canonicalFormatter C) rfl ?_ ?_ ht
    · intro k t hk
      exact (Except.ok.inj hk).symm
    · intro n t hn
      have hn' : writeCanonicalNumber C n = .ok t := hn
      rw [writeCanonicalNumber_eq] at hn'
      split_ifs at hn'
      exact (Except.ok.inj hn').symm
  rw [canonicalToString, ht, htext]

/-! ## Parsed values -/

/-- What `strict_from_slice` accepts. -/
theorem strictFromSlice_eq_ok_iff {data : Bytes} {value : Value} :
    strictFromSlice C data = .ok value ↔ serdeRead data = some value ∧ Json.HasNumbers value := by
  unfold strictFromSlice
  rw [C.fromSlice_eq]
  cases serdeRead data with
  | none => simp
  | some parsed =>
      cases hcheck : checkNumbers parsed with
      | ok u =>
          have hnumbers : Json.HasNumbers parsed := checkNumbers_eq_ok_iff.1 hcheck
          simp only [hcheck, bind, Except.bind, pure, Except.pure, Except.ok.injEq,
            Option.some.injEq]
          exact ⟨fun h => ⟨h, h ▸ hnumbers⟩, And.left⟩
      | error e =>
          have hnumbers : ¬ Json.HasNumbers parsed := fun h => by
            rw [checkNumbers_eq_ok_iff.2 h] at hcheck
            cases hcheck
          simp only [hcheck, bind, Except.bind, Option.some.injEq, reduceCtorEq, false_iff]
          rintro ⟨rfl, h⟩
          exact hnumbers h

theorem isObject_ofRaw {raw : Json.Raw} : isObject (ofRaw raw) = (Json.read raw).isObj := by
  rw [ofRaw]
  cases Json.read raw <;> rfl

/-- The canonical text of what was parsed is that of the tree. -/
theorem canonicalTree_ofRaw {raw : Json.Raw} (h : Json.HasScalars raw) :
    (canonicalTree (ofRaw raw)).text = Json.canonicalText (Json.read raw) := by
  have hread : (Json.read raw).Every (fun s => ∀ c ∈ s, Unicode.IsScalar c) (fun _ => True)
      (Json.Ordered Json.noRank) :=
    Json.every_load h
  rw [canonicalTree, ofRaw, Json.map_map, Json.canonicalText]
  refine congrArg Json.text (Json.map_congr hread (fun s hs => ?_) fun _ _ => rfl)
  rw [codes_ofCodes hs]

/-- What is encoded at a metadata key is what was parsed. -/
theorem encodeValue_metadata_eq_ok {key : RustString} {data : Bytes} {value : Value}
    (hkey : isMetadataKey key = true) :
    encodeValue C key data = .ok value ↔
      strictFromSlice C data = .ok value ∧ isObject value = true := by
  rw [encodeValue, if_pos hkey]
  cases hparsed : strictFromSlice C data with
  | error e =>
      constructor
      · intro h
        cases h
      · rintro ⟨h, -⟩
        cases h
  | ok parsed =>
      simp only
      constructor
      · intro h
        split_ifs at h with hobj
        cases h
        exact ⟨rfl, hobj⟩
      · rintro ⟨heq, hobj⟩
        cases heq
        exact if_pos hobj

end Rust
