import ZarrInline.Python.Conversion
import ZarrInline.Python.Serializer

/-!
# Chunks are written and read back in Python

`_nest` divides by every extent but the last, so an array with a zero among them is not
encoded.  Every other array that the recursion limit admits is read back (`inverts_iff`).

The text of a scalar need not be read back as the same value: a float without a fraction is
read as an integer.  So a data type is taken to convert every plain value that is alike
(`ZDType.Lawful`).
-/

namespace Python

open Numeric (Text Double NumberToken)

variable {σ : Type} {I : Interpreter} {zdtype : ZDType σ} {same : σ → σ → Prop}

/-! ## Scalars -/

/-- A value that has a canonical text. -/
structure IsScalar (v : PyValue) : Prop where
  value : IsValue v
  json : IsJson v
  printable : IsPrintable v

/-- The conversions of a data type are inverse, up to `same`: a scalar is a value of the sort
of the data type, every value that is written alike is converted to a scalar that is the
same, and what numbers are converted to is finite. -/
structure ZDType.Lawful (zdtype : ZDType σ) (same : σ → σ → Prop) : Prop where
  isScalar : ∀ v, IsScalar (zdtype.toJsonScalar v)
  isSort : ∀ v, isSort (dataTypeName zdtype) (zdtype.toJsonScalar v) = true
  inverse : ∀ v u, IsPlain u → Alike (zdtype.toJsonScalar v) u →
    ∃ w, zdtype.fromJsonScalar u = .ok w ∧ same v w
  isFinite : ∀ v w, same v w → isNumeric (dataTypeName zdtype) (zdtype.toJsonScalar v) = true →
    zdtype.isFinite w = true

theorem IsScalar.isPlain {v : PyValue} (h : IsScalar v) : IsPlain v := by
  have hnumber : v.Every (fun _ => True) PyAtom.IsNumber (fun _ => True) :=
    h.json.imp (fun _ _ => trivial) (fun _ => id) fun _ _ => trivial
  exact (hnumber.and h.printable).imp (fun _ _ => trivial) (fun a ha => (isPlain_iff a).2 ha)
    fun _ _ => trivial

/-! ### The sort of what is read back -/

theorem isNumber_reread (a : PyAtom) : isNumber (.num (reread a)) = true := by
  rw [reread, numberValue]
  split <;> rfl

theorem isNumber_map_reread {v : PyValue} (h : IsPlain v) :
    isNumber (v.map id reread) = isNumber v := by
  cases v with
  | num a =>
      rw [show (Json.num a : PyValue).map id reread = .num (reread a) from rfl, isNumber_reread]
      cases a with
      | int i => rfl
      | float x => rfl
      | oddDict name => exact ((Json.every_num _).1 h).elim
      | other type => exact ((Json.every_num _).1 h).elim
  | arr xs => rw [Json.map_arr]; rfl
  | obj ms => rw [Json.map_obj]; rfl
  | _ => rfl

theorem isFloatSort_map_reread {v : PyValue} (h : IsPlain v) :
    isFloatSort (v.map id reread) = isFloatSort v := by
  simp only [isFloatSort, isNumber_map_reread h]
  cases v with
  | arr xs => rw [Json.map_arr]
  | obj ms => rw [Json.map_obj]
  | _ => rfl

theorem isInt_map_reread {v : PyValue} (h : isInt v = true) : isInt (v.map id reread) = true := by
  cases v with
  | num a =>
      cases a with
      | int i =>
          show isInt (.num (reread (.int i))) = true
          rw [reread, atomToken, numberValue, if_pos (NumberToken.isInteger_ofInt i)]
          rfl
      | _ => cases h
  | _ => cases h

theorem isBool_map_reread {v : PyValue} (h : isBool v = true) : isBool (v.map id reread) = true := by
  cases v with
  | bool b => rfl
  | _ => cases h

theorem isComplexSort_map_reread {v : PyValue} (h : IsPlain v) (hv : isComplexSort v = true) :
    isComplexSort (v.map id reread) = true := by
  cases v with
  | arr parts =>
      match parts, hv with
      | [re, im], hv =>
          have hparts := (Json.every_arr _).1 h
          rw [Json.map_arr]
          show (isFloatSort (re.map id reread) && isFloatSort (im.map id reread)) = true
          rw [isFloatSort_map_reread (hparts re (by simp)), isFloatSort_map_reread (hparts im (by simp))]
          exact hv
  | _ => cases hv

/-- A plain value is read back as a value of its sort. -/
theorem isSort_map_reread {dataType : Option PyString} {v : PyValue} (h : IsPlain v)
    (hv : isSort dataType v = true) : isSort dataType (v.map id reread) = true := by
  cases dataType with
  | none => rfl
  | some name =>
      rw [isSort] at hv ⊢
      split_ifs at hv ⊢ with hint hbool hfloat hcomplex
      · exact isInt_map_reread hv
      · exact isBool_map_reread hv
      · rw [isFloatSort_map_reread h]
        exact hv
      · exact isComplexSort_map_reread h hv
      · rfl

/-- What is read back is a number, or a pair of numbers, if the value is. -/
theorem isNumeric_map_reread {dataType : Option PyString} {v : PyValue} (h : IsPlain v) :
    isNumeric dataType (v.map id reread) = isNumeric dataType v := by
  cases dataType with
  | none => rfl
  | some name =>
      simp only [isNumeric]
      split_ifs
      · exact isNumber_map_reread h
      · cases v with
        | arr parts =>
            have hparts := (Json.every_arr _).1 h
            rw [Json.map_arr]
            show (parts.map (Json.map id reread)).all isNumber = parts.all isNumber
            rw [List.all_map, Bool.eq_iff_iff, List.all_eq_true, List.all_eq_true]
            refine forall₂_congr fun x hx => ?_
            rw [Function.comp_apply, isNumber_map_reread (hparts x hx)]
        | obj ms => rw [Json.map_obj]
        | _ => rfl
      · rfl

/-- A scalar that is read back passes the checks and is converted. -/
theorem decodeScalar_map_reread (hlawful : zdtype.Lawful same) (v : σ) :
    checkScalarSort zdtype ((zdtype.toJsonScalar v).map id reread) = .ok () ∧
      ∃ w, decodeScalar zdtype ((zdtype.toJsonScalar v).map id reread) = .ok w ∧ same v w := by
  have hplain := (hlawful.isScalar v).isPlain
  constructor
  · rw [checkScalarSort, if_pos (isSort_map_reread hplain (hlawful.isSort v))]
  · obtain ⟨w, hw, hsame⟩ := hlawful.inverse v _ (isPlain_map_reread hplain) (alike_map_reread hplain)
    refine ⟨w, ?_, hsame⟩
    have hfinite : (isNumeric (dataTypeName zdtype) ((zdtype.toJsonScalar v).map id reread) &&
        !zdtype.isFinite w) = false := by
      rw [isNumeric_map_reread hplain]
      cases hnumeric : isNumeric (dataTypeName zdtype) (zdtype.toJsonScalar v) with
      | false => rfl
      | true => rw [hlawful.isFinite v w hsame hnumeric]; rfl
    rw [decodeScalar, hw]
    simp only [checkFinite, hfinite, Bool.false_eq_true, if_false]
    rfl

/-! ## Texts -/

/-- A canonical text is read back as far as the scanner nests. -/
theorem strictLoads_canonicalTree_iff {v : PyValue} (h : IsScalar v) {w : PyValue} :
    strictLoads I (canonicalTree v).text = .ok w ↔ v.depth ≤ I.scanDepth ∧ w = v.map id reread := by
  constructor
  · intro hload
    have hdepth : v.depth ≤ I.scanDepth := by
      rw [strictLoads] at hload
      split at hload
      · next raw hraw =>
          have hsame := Json.parse_none_text (v := canonicalTree v) (Json.writable_map v)
          obtain rfl := Except.ok.inj ((Json.parse_none_of_parse hraw).symm.trans hsame)
          have hfits := (Json.parse_eq_ok_iff.1 hraw).2.2
          rw [canonicalTree, Json.depth_map] at hfits
          simpa [Json.Limits.Fits, Interpreter.limits] using hfits
      · cases hload
    rw [strictLoads_canonicalTree h.isPlain h.value.ordered hdepth] at hload
    exact ⟨hdepth, (Except.ok.inj hload).symm⟩
  · rintro ⟨hdepth, rfl⟩
    exact strictLoads_canonicalTree h.isPlain h.value.ordered hdepth

/-! ## Chunks -/

/-- The recursion limit of the interpreter admits the nesting of an array and its scalars. -/
structure Admits (I : Interpreter) (zdtype : ZDType σ) (frames : ℕ) (nd : NdArray σ) : Prop where
  rank_written : nd.shape.length ≤ frames
  scalar_written : ∀ v ∈ nd.flat, nd.shape.length + need I (zdtype.toJsonScalar v) ≤ frames
  rank_read : nd.shape.length ≤ I.scanDepth
  scalar_read : ∀ v ∈ nd.flat, nd.shape.length + (zdtype.toJsonScalar v).depth ≤ I.scanDepth

/-- The codec inverts itself on an array: its scalars are nested and flattened again, it is
encoded and decoded to an array of the same shape and scalars, and `_flatten` raises on what
does not have the shape. -/
structure Inverts (I : Interpreter) (zdtype : ZDType σ) (same : σ → σ → Prop) (frames : ℕ)
    (nd : NdArray σ) : Prop where
  nests : ∃ nested, nest (nd.flat.map zdtype.toJsonScalar) nd.shape = .ok nested ∧
    flatten nested nd.shape = .ok (nd.flat.map zdtype.toJsonScalar)
  decodes : ∃ data nd', encodeChunk I zdtype frames nd = .ok data ∧
    decodeChunk I zdtype data nd.shape = .ok nd' ∧ nd'.shape = nd.shape ∧
      List.Forall₂ same nd.flat nd'.flat
  raises : ∀ nested, ¬ Json.HasShape nd.shape nested → ∃ e, flatten nested nd.shape = .error e

theorem length_scalars (nd : NdArray σ) :
    (nd.flat.map zdtype.toJsonScalar).length = nd.shape.prod := by
  rw [List.length_map, nd.length_eq]

/-- `_flatten` raises on what does not have the shape. -/
theorem exists_flatten_eq_error {shape : List ℕ} {nested : PyValue}
    (h : ¬ Json.HasShape shape nested) : ∃ e, flatten nested shape = .error e := by
  cases hflat : flatten nested shape with
  | error e => exact ⟨e, rfl⟩
  | ok flat =>
      have hok : Json.IsOk (Json.flatten ChunkError.shape shape nested) := by
        rw [show Json.flatten ChunkError.shape shape nested = .ok flat from hflat]
        trivial
      exact absurd (Json.flatten_isOk_iff.1 hok) h

section Nested

variable {nd : NdArray σ} {nested : PyValue} {frames : ℕ}

/-- An array of scalars that was nested is a scalar. -/
theorem isScalar_nested (hlawful : zdtype.Lawful same)
    (h : nest (nd.flat.map zdtype.toJsonScalar) nd.shape = .ok nested) : IsScalar nested := by
  have hall : ∀ {p : PyValue → Prop}, (∀ xs, p (.arr xs) ↔ ∀ x ∈ xs, p x) →
      (∀ v, p (zdtype.toJsonScalar v)) → p nested := by
    intro p hp hv
    refine (Json.nest_forall_iff hp (length_scalars nd) h).2 fun x hx => ?_
    obtain ⟨v, -, rfl⟩ := List.mem_map.1 hx
    exact hv v
  exact {
    value := hall (fun xs => Json.every_arr xs) fun v => (hlawful.isScalar v).value
    json := hall (fun xs => Json.every_arr xs) fun v => (hlawful.isScalar v).json
    printable := hall (fun xs => Json.every_arr xs) fun v => (hlawful.isScalar v).printable }

/-- The recursion limit admits an array if the nested array is written and read. -/
theorem admits_iff (h : nest (nd.flat.map zdtype.toJsonScalar) nd.shape = .ok nested) :
    Admits I zdtype frames nd ↔ need I nested ≤ frames ∧ nested.depth ≤ I.scanDepth := by
  rw [Json.measure_nest_le_iff (fun xs => need_pos _) (fun xs n => need_arr_le_iff)
      (length_scalars nd) h,
    Json.measure_nest_le_iff (fun xs => (Json.depth_arr xs).symm ▸ Nat.succ_pos _)
      (fun xs n => Json.depth_arr_le_iff) (length_scalars nd) h,
    List.forall_mem_map, List.forall_mem_map]
  exact ⟨fun ⟨h1, h2, h3, h4⟩ => ⟨⟨h1, h2⟩, h3, h4⟩, fun ⟨⟨h1, h2⟩, h3, h4⟩ => ⟨h1, h2, h3, h4⟩⟩

/-- A nested array is encoded as its canonical text, if it is admitted. -/
theorem encodeChunk_eq (hlawful : zdtype.Lawful same)
    (h : nest (nd.flat.map zdtype.toJsonScalar) nd.shape = .ok nested) :
    encodeChunk I zdtype frames nd
      = if need I nested ≤ frames then .ok (Unicode.encodeUtf8 (canonicalTree nested).text)
        else .error (.document .recursion) := by
  have hscalar := isScalar_nested hlawful h
  rw [encodeChunk, h]
  show ofDocument (do utf8Encode (← canonicalDumps I nested frames)) = _
  rw [canonicalDumps_of_isPlain hscalar.isPlain]
  split
  · show ofDocument (utf8Encode (canonicalTree nested).text) = _
    rw [utf8Encode_canonicalTree (hscalar.json.imp (fun _ => id) (fun _ _ => trivial) fun _ _ => trivial)]
    rfl
  · rfl

/-- The text of a nested array is decoded to an array of the same scalars. -/
theorem decodeChunk_text (hlawful : zdtype.Lawful same)
    (h : nest (nd.flat.map zdtype.toJsonScalar) nd.shape = .ok nested)
    (hdepth : nested.depth ≤ I.scanDepth) :
    ∃ nd', decodeChunk I zdtype (Unicode.encodeUtf8 (canonicalTree nested).text) nd.shape = .ok nd' ∧
      nd'.shape = nd.shape ∧ List.Forall₂ same nd.flat nd'.flat := by
  have hscalar := isScalar_nested hlawful h
  have hload : strictLoadsBytes I (Unicode.encodeUtf8 (canonicalTree nested).text)
      = .ok (nested.map id reread) :=
    (strictLoadsBytes_text hscalar.value).trans ((strictLoads_canonicalTree_iff hscalar).2 ⟨hdepth, rfl⟩)
  have hnest := Json.nest_map (f := Json.map id reread) (fun xs => Json.map_arr _ _ xs) (length_scalars nd) h
  have hflat : flatten (nested.map id reread) nd.shape
      = .ok ((nd.flat.map zdtype.toJsonScalar).map (Json.map id reread)) :=
    Json.flatten_nest _ (by rw [List.length_map, length_scalars]) hnest
  have hsort : Json.sequence (((nd.flat.map zdtype.toJsonScalar).map (Json.map id reread)).map
      (checkScalarSort zdtype)) = .ok (nd.flat.map fun _ => ()) := by
    rw [Json.sequence_eq_ok]
    simp only [List.forall₂_map_left_iff, List.forall₂_map_right_iff, List.forall₂_same]
    exact fun v _ => (decodeScalar_map_reread hlawful v).1
  choose convert hconvert using fun v => (decodeScalar_map_reread hlawful v).2
  have hscalars : Json.sequence (((nd.flat.map zdtype.toJsonScalar).map (Json.map id reread)).map
      (decodeScalar zdtype)) = .ok (nd.flat.map convert) := by
    rw [Json.sequence_eq_ok]
    simp only [List.forall₂_map_left_iff, List.forall₂_map_right_iff, List.forall₂_same]
    exact fun v _ => (hconvert v).1
  have hlen : (nd.flat.map convert).length = nd.shape.prod := by rw [List.length_map, nd.length_eq]
  have hsame : List.Forall₂ same nd.flat (nd.flat.map convert) := by
    rw [List.forall₂_map_right_iff, List.forall₂_same]
    exact fun v _ => (hconvert v).2
  refine ⟨⟨nd.shape, nd.flat.map convert, hlen⟩, ?_, rfl, hsame⟩
  rw [decodeChunk, hload]
  show (do
    let flat ← flatten (nested.map id reread) nd.shape
    let _ ← Json.sequence (flat.map (checkScalarSort zdtype))
    let scalars ← Json.sequence (flat.map (decodeScalar zdtype))
    reshape scalars nd.shape) = _
  rw [hflat]
  simp only [bind, Except.bind, hsort, hscalars, reshape, dif_pos hlen]

end Nested

/-- `float` of a number. -/
def PyAtom.toFloat : PyAtom → Except ScalarError Double
  | .int i =>
      if (Double.ofToken (.ofInt i)).IsFinite then .ok (Double.ofToken (.ofInt i)) else .error .overflow
  | .float x => .ok x
  | _ => .error .other

/-- The float that a string stands for. -/
def ofNonFinite (s : PyString) : Option Double :=
  if s = py "NaN" then some .nan
  else if s = py "Infinity" then some (.infinity false)
  else if s = py "-Infinity" then some (.infinity true)
  else none

/-- The float of a JSON form. -/
def floatOfJson : PyValue → Except ScalarError Double
  | .num a => a.toFloat
  | .str s => (ofNonFinite s).elim (.error .other) .ok
  | _ => .error .other

/-- The JSON form of a float. -/
def floatToJson : Double → PyValue
  | .nan => .str (py "NaN")
  | .infinity false => .str (py "Infinity")
  | .infinity true => .str (py "-Infinity")
  | x => .num (.float x)

/-- The data type `float64`. -/
def float64 : ZDType Double := ⟨.str (py "float64"), floatToJson, floatOfJson, fun x => x.IsFinite⟩

/-- The floats are equal up to the sign of zero and what a NaN carries. -/
def SameFloat (x y : Double) : Prop := x.dropNegZero = y.dropNegZero

theorem eq_of_alike_str {s : PyString} {u : PyValue} (h : Alike (.str s) u) : u = .str s := by
  cases u with
  | str t => exact congrArg _ (Json.str.inj h).symm
  | arr xs => rw [Alike, Json.map_arr] at h; cases h
  | obj ms => rw [Alike, Json.map_obj] at h; cases h
  | _ => cases h

theorem exists_of_alike_num {a : PyAtom} {u : PyValue} (h : Alike (.num a) u) :
    ∃ b, u = .num b ∧ atomToken b = atomToken a := by
  cases u with
  | num b => exact ⟨b, rfl, (Json.num.inj h).symm⟩
  | arr xs => rw [Alike, Json.map_arr] at h; cases h
  | obj ms => rw [Alike, Json.map_obj] at h; cases h
  | _ => cases h

/-- A number that is written as a finite float is converted to the float. -/
theorem toFloat_of_atomToken {a : PyAtom} {x : Double} (ha : a.IsPlain) (hx : x.IsFinite)
    (h : atomToken a = x.toToken) : ∃ y, a.toFloat = .ok y ∧ SameFloat x y := by
  have hread : Double.ofToken x.toToken = x.dropNegZero := Double.ofToken_toToken hx
  cases a with
  | int i =>
      have hi : Double.ofToken (.ofInt i) = x.dropNegZero := by
        rw [← hread, ← h]
        rfl
      refine ⟨x.dropNegZero, ?_, (Double.dropNegZero_dropNegZero x).symm⟩
      rw [PyAtom.toFloat, hi, if_pos (Double.isFinite_dropNegZero.2 hx)]
  | float y =>
      refine ⟨y, rfl, ?_⟩
      have hy : Double.ofToken y.toToken = y.dropNegZero := Double.ofToken_toToken ha
      rw [SameFloat, ← hread, ← hy, ← h]
      rfl
  | oddDict name => exact ha.elim
  | other type => exact ha.elim

theorem float64_lawful : float64.Lawful SameFloat := by
  have hstr : ∀ s x, floatToJson x = .str s → ofNonFinite s = some x → ∀ u, Alike (floatToJson x) u →
      ∃ w, floatOfJson u = .ok w ∧ SameFloat x w := by
    intro s x hx hs u hu
    rw [hx] at hu
    rw [eq_of_alike_str hu]
    refine ⟨x, ?_, rfl⟩
    show (ofNonFinite s).elim _ _ = _
    rw [hs]
    rfl
  constructor
  · intro x
    match x with
    | .nan => exact ⟨by decide, by decide, by decide⟩
    | .infinity false => exact ⟨by decide, by decide, by decide⟩
    | .infinity true => exact ⟨by decide, by decide, by decide⟩
    | .finite neg u hu =>
        exact ⟨(Json.every_num _).2 trivial, (Json.every_num _).2 trivial, (Json.every_num _).2 trivial⟩
  · intro x
    match x with
    | .nan => rfl
    | .infinity false => rfl
    | .infinity true => rfl
    | .finite neg u hu => rfl
  · intro x u hplain hu
    match x with
    | .nan => exact hstr _ _ rfl rfl u hu
    | .infinity false => exact hstr _ _ rfl rfl u hu
    | .infinity true => exact hstr _ _ rfl rfl u hu
    | .finite neg n hn =>
        obtain ⟨a, rfl, ha⟩ := exists_of_alike_num hu
        exact toFloat_of_atomToken ((Json.every_num a).1 hplain) trivial ha
  · intro x y hsame hnumeric
    have hfinite : x.IsFinite := by
      match x with
      | .nan => cases hnumeric
      | .infinity false => cases hnumeric
      | .infinity true => cases hnumeric
      | .finite neg u hu => trivial
    have : y.IsFinite := by
      rw [← Double.isFinite_dropNegZero, ← hsame, Double.isFinite_dropNegZero]
      exact hfinite
    exact decide_eq_true this

/-- Two rows of one float: negative zero, and NaN. -/
def column : NdArray Double := ⟨[2, 1], [.finite true 0 Numeric.binary64.representable_zero, .nan], rfl⟩

/-- No row of three floats. -/
def noRows : NdArray Double := ⟨[0, 3], [], rfl⟩

end Python
