import ZarrInline.Python.Value
import ZarrInline.Rules.Validity

/-!
# The Python value codec

`document.py`: canonical serialization, strict parsing, and the conversion of the bytes
of a store entry to the value of a document and back.

The writer is recursive, so what it can write depends on the calls it may nest:
`canonicalWrite` takes their number, and `need` is the number a value takes
(`canonicalWrite_eq`).
-/

namespace Python

open Numeric (Text Double NumberToken)

/-- `is_metadata_key`. -/
def isMetadataKey (key : PyString) : Bool := Rules.isMetadataKey Char.toNat key

/-! ## Strict parsing -/

/-- The encodings that `json.detect_encoding` tells apart; `bom` says that the text
starts with a byte order mark. -/
inductive Encoding where
  | utf8 (bom : Bool)
  | utf16 (order : Unicode.ByteOrder) (bom : Bool)
  | utf32 (order : Unicode.ByteOrder) (bom : Bool)
deriving DecidableEq

/-- `json.detect_encoding`: a byte order mark, else the zeros that ASCII characters
leave in wide units. -/
def detectEncoding (b : Bytes) : Encoding :=
  if [0x00, 0x00, 0xFE, 0xFF].isPrefixOf b then .utf32 .big true
  else if [0xFF, 0xFE, 0x00, 0x00].isPrefixOf b then .utf32 .little true
  else if [0xFE, 0xFF].isPrefixOf b then .utf16 .big true
  else if [0xFF, 0xFE].isPrefixOf b then .utf16 .little true
  else if [0xEF, 0xBB, 0xBF].isPrefixOf b then .utf8 true
  else
    match b with
    | b0 :: b1 :: b2 :: b3 :: _ =>
        if b0 = 0 then if b1 ≠ 0 then .utf16 .big false else .utf32 .big false
        else if b1 = 0 then if b2 ≠ 0 ∨ b3 ≠ 0 then .utf16 .little false else .utf32 .little false
        else .utf8 false
    | [b0, b1] =>
        if b0 = 0 then .utf16 .big false
        else if b1 = 0 then .utf16 .little false
        else .utf8 false
    | _ => .utf8 false

/-- `bytes.decode` with `surrogatepass`. -/
def decode : Encoding → Bytes → Option PyString
  | .utf8 bom, b => Unicode.decodeUtf8 true (if bom then b.drop 3 else b)
  | .utf16 order bom, b => Unicode.decodeUtf16 order (if bom then b.drop 2 else b)
  | .utf32 order bom, b => Unicode.decodeUtf32 order (if bom then b.drop 4 else b)

/-- A number token that `int`, or else `_finite_float`, reads. -/
def acceptsNumber (n : NumberToken) : Bool :=
  if n.IsInteger then n.int.length ≤ maxStrDigits else (Double.ofToken n).IsFinite

/-- The number a token is read as. -/
def numberValue (n : NumberToken) : PyAtom :=
  if n.IsInteger then .int n.intValue else .float (Double.ofToken n)

/-- What `json.loads` refuses. -/
def Interpreter.limits (I : Interpreter) : Json.Limits := ⟨some I.scanDepth, acceptsNumber⟩

/-- The value of a tree. -/
def ofRaw (raw : Json.Raw) : PyValue := (Json.read raw).map id numberValue

/-- The error a refused text raises. -/
def parseError : Json.ParseError → PyError
  | .grammar => .value .json
  | .number n => .value (if n.IsInteger then .intDigits else .overflow n)
  | .tooDeep => .recursion

/-- `strict_loads` of a string. -/
def strictLoads (I : Interpreter) (text : PyString) : Except PyError PyValue :=
  match Json.parse I.limits text with
  | .ok raw => .ok (ofRaw raw)
  | .error e => .error (parseError e)

/-- `strict_loads` of bytes. -/
def strictLoadsBytes (I : Interpreter) (data : Bytes) : Except PyError PyValue :=
  match decode (detectEncoding data) data with
  | some text => strictLoads I text
  | none => .error (.value .unicodeDecode)

/-! ## Canonical text -/

/-- A call, if one more can be nested. -/
def call {α : Type} (body : ℕ → Except PyError α) : ℕ → Except PyError α
  | 0 => .error .recursion
  | frames + 1 => body frames

/-- `json.dumps` of a string, with `ensure_ascii=False`. -/
def dumpsText (I : Interpreter) (s : PyString) (frames : ℕ) : Except PyError Text :=
  if I.textFrames ≤ frames then .ok (Json.strText (Json.canonicalItems s)) else .error .recursion

/-- The branches of `_canonical_write` for numbers and for what JSON has no place
for. -/
def writeAtom (I : Interpreter) (a : PyAtom) (frames : ℕ) : Except PyError Text :=
  match a with
  | .int i =>
      if (Numeric.natDigits i.natAbs).length ≤ maxStrDigits then .ok (NumberToken.ofInt i).render
      else .error (.value .intDigits)
  | .float x =>
      if I.floatFrames ≤ frames then
        match I.floatText x with
        | some t => .ok t
        | none => .error (.value .nonFinite)
      else .error .recursion
  | .oddDict name => .error (.value (.memberName name))
  | .other type => .error (.value (.notSerializable type))

/-- The text of a member, from the text of its value. -/
def writeMember (I : Interpreter) (frames : ℕ) (k : PyString) (x : Except PyError Text) :
    Except PyError Text := do
  let k ← dumpsText I k frames
  let x ← x
  return k ++ ':'.toNat :: x

/-- `_canonical_write`, where `frames` calls can be nested, the call itself included. -/
def canonicalWrite (I : Interpreter) : PyValue → ℕ → Except PyError Text :=
  Json.fold {
    null := call fun _ => .ok (Json.lit "null")
    bool := fun b => call fun _ => .ok (if b then Json.lit "true" else Json.lit "false")
    str := fun s => call (dumpsText I s)
    num := fun a => call (writeAtom I a)
    arr := fun xs => call fun frames => (Json.sequence (xs.map fun x => x frames)).map fun xs =>
      '['.toNat :: (Json.sepBy ','.toNat xs ++ [']'.toNat])
    obj := fun ms => call fun frames =>
      (Json.sequence (ms.map fun m => writeMember I frames m.1 (m.2 frames))).map fun ms =>
        '\x7b'.toNat :: (Json.sepBy ','.toNat ms ++ ['\x7d'.toNat]) }

/-- `canonical_dumps`. -/
def canonicalDumps (I : Interpreter) (value : PyValue) (frames : ℕ) : Except PyError Text :=
  canonicalWrite I value frames

/-- `str.encode("utf-8")`. -/
def utf8Encode (text : Text) : Except PyError Bytes :=
  if ∀ c ∈ text, ¬ Unicode.IsSurrogate c then .ok (Unicode.encodeUtf8 text)
  else .error (.value .unicodeEncode)

/-! ## The value codec -/

/-- `base64.b64decode` with `validate=True`. -/
def b64decode (text : PyString) : Except PyError Bytes :=
  match Base64.decode text with
  | some bytes => .ok bytes
  | none => .error (.value .base64)

/-- `decode_value`.  It is one call nearer to the writer than `encode_value`. -/
def decodeValue (I : Interpreter) (key : PyString) (value : PyValue) : Except PyError Bytes :=
  if isMetadataKey key then
    if isDict value then do utf8Encode (← canonicalDumps I value (I.frames + 1))
    else .error (.value (.metadataMustMap key))
  else if isList value ∨ isDict value then do utf8Encode (← canonicalDumps I value (I.frames + 1))
  else
    match value with
    | .str s => b64decode s
    | _ => .error (.value (.byteMustMap key))

/-- The body of the `try` in `_try_inline_json`. -/
def inlineBody (I : Interpreter) (data : Bytes) : Except PyError (Option PyValue) := do
  let parsed ← strictLoadsBytes I data
  if isList parsed ∨ isDict parsed then
    let bytes ← utf8Encode (← canonicalDumps I parsed I.frames)
    return if bytes = data then some parsed else none
  else return none

/-- `_try_inline_json`: of the errors, only a `ValueError` is caught. -/
def tryInlineJson (I : Interpreter) (data : Bytes) : Except PyError (Option PyValue) :=
  match inlineBody I data with
  | .ok inlined => .ok inlined
  | .error (.value _) => .ok none
  | .error .recursion => .error .recursion

/-- `encode_value`. -/
def encodeValue (I : Interpreter) (key : PyString) (data : Bytes) : Except PyError PyValue :=
  if isMetadataKey key then do
    let parsed ← strictLoadsBytes I data
    if isDict parsed then .ok parsed else .error (.value (.metadataRequires key))
  else do
    match ← tryInlineJson I data with
    | some inlined => .ok inlined
    | none => .ok (.str (Base64.encode data))

/-! ## What the writer takes -/

/-- The calls the writer nests for a value. -/
def need (I : Interpreter) : PyValue → ℕ :=
  Json.fold {
    null := 1
    bool := fun _ => 1
    str := fun _ => I.textFrames + 1
    num := fun a => match a with
      | .float _ => I.floatFrames + 1
      | _ => 1
    arr := fun ns => ns.foldr max 0 + 1
    obj := fun ms => (ms.map fun m => max I.textFrames m.2).foldr max 0 + 1 }

/-- The atoms that are JSON numbers: integers that `str` writes and finite floats. -/
def PyAtom.IsPlain : PyAtom → Prop
  | .int i => (Numeric.natDigits i.natAbs).length ≤ maxStrDigits
  | .float x => x.IsFinite
  | _ => False

instance : DecidablePred PyAtom.IsPlain
  | .int _ => inferInstanceAs (Decidable (_ ≤ _))
  | .float x => inferInstanceAs (Decidable x.IsFinite)
  | .oddDict _ => inferInstanceAs (Decidable False)
  | .other _ => inferInstanceAs (Decidable False)

/-- A value whose atoms are JSON numbers. -/
def IsPlain (v : PyValue) : Prop := v.Every (fun _ => True) PyAtom.IsPlain (fun _ => True)

instance : DecidablePred IsPlain := fun v => inferInstanceAs (Decidable (v.Every _ _ _))

/-- The number token of an atom. -/
def atomToken : PyAtom → NumberToken
  | .int i => .ofInt i
  | .float x => x.toToken
  | _ => .ofInt 0

/-- The tree whose compact text the canonical text of a value is. -/
def canonicalTree (v : PyValue) : Json.Raw := v.map Json.canonicalItems atomToken

section Writer

variable {I : Interpreter}

theorem need_arr_le_iff {xs : List PyValue} {n : ℕ} :
    need I (.arr xs) ≤ n + 1 ↔ ∀ x ∈ xs, need I x ≤ n := by
  rw [need, Json.fold_arr, ← need, Nat.add_le_add_iff_right, Json.foldr_max_le_iff]
  simp

theorem need_obj_le_iff {ms : List (PyString × PyValue)} {n : ℕ} :
    need I (.obj ms) ≤ n + 1 ↔ ∀ m ∈ ms, I.textFrames ≤ n ∧ need I m.2 ≤ n := by
  rw [need, Json.fold_obj, ← need, Nat.add_le_add_iff_right, Json.foldr_max_le_iff, List.map_map,
    List.forall_mem_map]
  exact forall₂_congr fun m _ => max_le_iff

theorem need_pos (v : PyValue) : 0 < need I v := by
  cases v with
  | null => exact Nat.one_pos
  | bool b => exact Nat.one_pos
  | str s => exact Nat.succ_pos _
  | num a => cases a <;> exact Nat.succ_pos _
  | arr xs => rw [need, Json.fold_arr]; exact Nat.succ_pos _
  | obj ms => rw [need, Json.fold_obj]; exact Nat.succ_pos _

theorem canonicalWrite_zero (v : PyValue) : canonicalWrite I v 0 = .error .recursion := by
  cases v with
  | arr xs => rw [canonicalWrite, Json.fold_arr]; rfl
  | obj ms => rw [canonicalWrite, Json.fold_obj]; rfl
  | _ => rfl

/-- A value is written if the calls it needs can be nested. -/
theorem canonicalWrite_eq {v : PyValue} (h : IsPlain v) (r : ℕ) :
    canonicalWrite I v r
      = if need I v ≤ r then .ok (canonicalTree v).text else .error .recursion := by
  induction v using Json.inductionOn generalizing r with
  | null => cases r <;> simp [canonicalWrite, call, need, canonicalTree, Json.text]
  | bool b => cases r <;> simp [canonicalWrite, call, need, canonicalTree, Json.text]
  | str s =>
      cases r <;> simp [canonicalWrite, call, need, canonicalTree, Json.text, dumpsText]
  | num a =>
      have ha : a.IsPlain := (Json.every_num a).1 h
      cases r with
      | zero => rw [if_neg (need_pos _).not_ge]; rfl
      | succ r =>
          cases a with
          | int i =>
              have hi : (Numeric.natDigits i.natAbs).length ≤ maxStrDigits := ha
              simp [canonicalWrite, call, writeAtom, need, canonicalTree, Json.text, atomToken, hi]
          | float x =>
              have hx : x.IsFinite := ha
              simp [canonicalWrite, call, writeAtom, need, canonicalTree, Json.text, atomToken,
                I.floatText_of_isFinite x hx, Double.toText_eq_render hx]
          | oddDict name => exact ha.elim
          | other type => exact ha.elim
  | arr xs ih =>
      cases r with
      | zero => rw [if_neg (need_pos _).not_ge, canonicalWrite_zero]
      | succ r =>
          have hseq : Json.sequence (xs.map fun x => canonicalWrite I x r)
              = if ∀ x ∈ xs, need I x ≤ r then .ok (xs.map fun x => (canonicalTree x).text)
                else .error .recursion := by
            rw [← Json.sequence_ite xs]
            exact congrArg _ (List.map_congr_left fun x hx => ih x hx ((Json.every_arr xs).1 h x hx) r)
          rw [canonicalWrite, Json.fold_arr, ← canonicalWrite]
          simp only [call, List.map_map, Function.comp_def, hseq, need_arr_le_iff]
          split_ifs
          · simp [Except.map, canonicalTree, Json.text, Function.comp_def]
          · rfl
  | obj ms ih =>
      cases r with
      | zero => rw [if_neg (need_pos _).not_ge, canonicalWrite_zero]
      | succ r =>
          have hmember : ∀ m ∈ ms, writeMember I r m.1 (canonicalWrite I m.2 r)
              = if I.textFrames ≤ r ∧ need I m.2 ≤ r then
                  .ok (Json.strText (Json.canonicalItems m.1) ++ ':'.toNat :: (canonicalTree m.2).text)
                else .error .recursion := by
            intro m hm
            rw [writeMember, ih m hm (((Json.every_obj ms).1 h).2 m hm).2 r, dumpsText]
            by_cases htext : I.textFrames ≤ r
            · by_cases hneed : need I m.2 ≤ r
              · simp [htext, hneed, bind, Except.bind, pure, Except.pure]
              · simp [htext, hneed, bind, Except.bind]
            · simp [htext, bind, Except.bind]
          have hseq : Json.sequence (ms.map fun m => writeMember I r m.1 (canonicalWrite I m.2 r))
              = if ∀ m ∈ ms, I.textFrames ≤ r ∧ need I m.2 ≤ r then
                  .ok (ms.map fun m =>
                    Json.strText (Json.canonicalItems m.1) ++ ':'.toNat :: (canonicalTree m.2).text)
                else .error .recursion := by
            rw [← Json.sequence_ite ms]
            exact congrArg _ (List.map_congr_left hmember)
          rw [canonicalWrite, Json.fold_obj, ← canonicalWrite]
          simp only [call, List.map_map, Function.comp_def, hseq, need_obj_le_iff]
          split_ifs
          · simp [Except.map, canonicalTree, Json.text, Function.comp_def]
          · rfl

end Writer

end Python
