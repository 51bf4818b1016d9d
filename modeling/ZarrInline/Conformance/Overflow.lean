import ZarrInline.Json.Results
import ZarrInline.Python.Chunks
import ZarrInline.Rules.Range
import ZarrInline.Rust.Serializer

/-!
# Complex elements beyond the range

The codecs of Python and Rust check that a complex element is finite only if both of its
parts are numbers.  Both are the `Rules.PartReader.readElement` of one reader of parts, so one
condition says when no part overflows silently (`overflow_guarded_iff`): no part that is no
name becomes a value that is not finite, or an element is refused for another reason.
-/

/-! ## Python -/

namespace Python

open Numeric (Double)

variable {κ : Type} {I : Interpreter} {zdtype : ZDType (κ × κ)} {part : PyValue → Except ScalarError κ}
  {finite : κ → Bool}

/-- One of the strings of `_NON_FINITE`. -/
def isNamed : PyValue → Bool
  | .str s => decide (s ∈ nonFinite)
  | _ => false

/-- The data type is complex: a pair is converted part by part, and is finite if both parts
are. -/
structure ZDType.IsComplex (zdtype : ZDType (κ × κ)) (part : PyValue → Except ScalarError κ)
    (finite : κ → Bool) : Prop where
  name : ∃ name ∈ complexDataTypes, dataTypeName zdtype = some name
  pair : ∀ re im, zdtype.fromJsonScalar (.arr [re, im]) = do
    let x ← part re
    let y ← part im
    return (x, y)
  isFinite : ∀ z, zdtype.isFinite z = (finite z.1 && finite z.2)

/-- How `decode_chunk` reads a part: a value of float sort, converted by the data type. -/
def partReader (part : PyValue → Except ScalarError κ) (finite : κ → Bool) :
    Rules.PartReader PyString PyAtom κ where
  isNumber := isNumber
  isNamed := isNamed
  read c := if isFloatSort c then (part c).toOption else none
  isFinite := finite
  isNamed_of_isNumber := by
    intro c hc
    cases c with
    | num a => rfl
    | _ => cases hc

theorem isSort_of_mem_complex {name : PyString} (h : name ∈ complexDataTypes) (v : PyValue) :
    isSort (some name) v = isComplexSort v := by
  have hmem : name = py "complex64" ∨ name = py "complex128" := by
    simpa [complexDataTypes] using h
  rcases hmem with rfl | rfl <;> rfl

theorem isNumeric_of_mem_complex {name : PyString} (h : name ∈ complexDataTypes) (re im : PyValue) :
    isNumeric (some name) (.arr [re, im]) = (isNumber re && isNumber im) := by
  have hmem : name = py "complex64" ∨ name = py "complex128" := by
    simpa [complexDataTypes] using h
  have hall : [re, im].all isNumber = (isNumber re && isNumber im) := by
    simp only [List.all_cons, List.all_nil, Bool.and_true]
  rcases hmem with rfl | rfl <;> exact hall

/-- The checks and the conversion of a scalar of a complex type. -/
theorem decodeScalar_iff (hz : zdtype.IsComplex part finite) {v : PyValue} {z : κ × κ} :
    checkScalarSort zdtype v = .ok () ∧ decodeScalar zdtype v = .ok z ↔
      (partReader part finite).readElement v = some z := by
  obtain ⟨name, hmem, hname⟩ := hz.name
  rw [checkScalarSort, hname, isSort_of_mem_complex hmem]
  cases v with
  | arr xs =>
      rcases xs with _ | ⟨re, _ | ⟨im, _ | ⟨w, xs⟩⟩⟩
      · simp [isComplexSort, Rules.PartReader.readElement]
      · simp [isComplexSort, Rules.PartReader.readElement]
      · show (if (isFloatSort re && isFloatSort im) = true then Except.ok () else _) = _ ∧ _ ↔ _
        have hread : ∀ c, (partReader part finite).read c
            = if isFloatSort c then (part c).toOption else none := fun _ => rfl
        rw [Rules.PartReader.readElement, hread, hread, decodeScalar, hz.pair]
        cases hre : isFloatSort re <;> cases him : isFloatSort im
        case true.true =>
          cases part re with
          | error e => cases e <;> simp [bind, Except.bind, Except.toOption]
          | ok x =>
              cases part im with
              | error e => cases e <;> simp [bind, Except.bind, Except.toOption]
              | ok y =>
                  simp only [Bool.and_self, if_true, true_and, bind, Except.bind, pure, Except.pure,
                    checkFinite, hname, isNumeric_of_mem_complex hmem, hz.isFinite, Except.toOption,
                    Option.bind_some]
                  show _ ↔ (if (isNumber re && isNumber im && !(finite x && finite y)) = true then none
                    else some (x, y)) = some z
                  cases (isNumber re && isNumber im && !(finite x && finite y)) <;> simp
        all_goals simp
      · simp [isComplexSort, Rules.PartReader.readElement]
  | _ => simp [isComplexSort, Rules.PartReader.readElement]

/-- A chunk decodes to the scalars that its elements are read as. -/
theorem decodeChunk_iff (hz : zdtype.IsComplex part finite) {data : Bytes} {shape : List ℕ}
    {nested : PyValue} {flat : List PyValue} (hparse : strictLoadsBytes I data = .ok nested)
    (hflat : flatten nested shape = .ok flat) {zs : List (κ × κ)} :
    (∃ nd, decodeChunk I zdtype data shape = .ok nd ∧ nd.flat = zs) ↔
      List.Forall₂ (fun v z => (partReader part finite).readElement v = some z) flat zs := by
  have hlen : flat.length = shape.prod := Json.length_of_flatten hflat
  have hdecode : decodeChunk I zdtype data shape = (do
      let _ ← Json.sequence (flat.map (checkScalarSort zdtype))
      let scalars ← Json.sequence (flat.map (decodeScalar zdtype))
      reshape scalars shape) := by
    rw [decodeChunk, hparse]
    show (do
      let flat ← flatten nested shape
      let _ ← Json.sequence (flat.map (checkScalarSort zdtype))
      let scalars ← Json.sequence (flat.map (decodeScalar zdtype))
      reshape scalars shape) = _
    rw [hflat]
    rfl
  rw [hdecode]
  constructor
  · rintro ⟨nd, hnd, rfl⟩
    cases hsort : Json.sequence (flat.map (checkScalarSort zdtype)) with
    | error e => rw [hsort] at hnd; cases hnd
    | ok us =>
        cases hscalars : Json.sequence (flat.map (decodeScalar zdtype)) with
        | error e => rw [hsort, hscalars] at hnd; cases hnd
        | ok scalars =>
            rw [hsort, hscalars] at hnd
            replace hnd : reshape scalars shape = .ok nd := hnd
            rw [reshape] at hnd
            split at hnd
            · cases hnd
              have hread := Json.sequence_eq_ok.1 hscalars
              refine List.forall₂_iff_get.2 ⟨hread.length_eq, fun i hi hi' => ?_⟩
              have hmem := List.get_mem flat ⟨i, hi⟩
              obtain ⟨u, hu⟩ := Json.exists_of_sequence_eq_ok hsort hmem
              exact (decodeScalar_iff hz).1 ⟨hu, (List.forall₂_iff_get.1 hread).2 i hi hi'⟩
            · cases hnd
  · intro h
    have hboth := h.imp fun v z hread => (decodeScalar_iff hz).2 hread
    have hscalars : Json.sequence (flat.map (decodeScalar zdtype)) = .ok zs :=
      Json.sequence_eq_ok.2 (hboth.imp fun _ _ h => h.2)
    obtain ⟨us, hsort⟩ : ∃ us, Json.sequence (flat.map (checkScalarSort zdtype)) = .ok us := by
      refine Json.isOk_iff.1 (Json.isOk_sequence.2 fun v hv => ?_)
      obtain ⟨i, hi, rfl⟩ := List.mem_iff_getElem.1 hv
      exact Json.isOk_iff.2 ⟨(), ((List.forall₂_iff_get.1 hboth).2 i hi (h.length_eq ▸ hi)).1⟩
    have hshape : zs.length = shape.prod := h.length_eq ▸ hlen
    refine ⟨⟨shape, zs, hshape⟩, ?_, rfl⟩
    rw [hsort, hscalars]
    exact dif_pos hshape

end Python

/-! ## Rust -/

namespace Rust

open Unicode (ByteOrder)

variable {C : Crates} {order : ByteOrder} {dataType : DataType} {part : Value → Option Bytes}
  {width : ℕ}

/-- One of the strings for the values that are not finite. -/
def isNamed : Value → Bool
  | .str s => decide (s ∈ ["NaN".toList, "Infinity".toList, "-Infinity".toList])
  | _ => false

/-- A part of a complex value is finite. -/
def partFinite (order : ByteOrder) (width : ℕ) (b : Bytes) : Bool :=
  if width = 4 then f32Finite order b else f64Finite order b

/-- The data type is complex: a pair is converted to the bytes of both parts, and what is no
pair is refused. -/
structure DataType.IsComplex (dataType : DataType) (part : Value → Option Bytes) (width : ℕ) :
    Prop where
  name : (dataType.nameV3 = some "complex64".toList ∧ width = 4) ∨
    (dataType.nameV3 = some "complex128".toList ∧ width = 8)
  fixedSize : dataType.fixedSize = some (width + width)
  pair : ∀ re im, dataType.fillValue (.arr [re, im]) = do
    let x ← part re
    let y ← part im
    return x ++ y
  other : ∀ v, Rules.parts v = [] → dataType.fillValue v = none
  length : ∀ v b, part v = some b → b.length = width

/-- How `decode` reads a part. -/
def partReader (order : ByteOrder) (part : Value → Option Bytes) (width : ℕ) :
    Rules.PartReader RustString Numeric.NumberToken Bytes where
  isNumber := isNumber
  isNamed := isNamed
  read := part
  isFinite := partFinite order width
  isNamed_of_isNumber := by
    intro c hc
    cases c with
    | num a => rfl
    | _ => cases hc

/-- The parts of the elements of a chunk. -/
def lanes (width : ℕ) (out : Bytes) : List Bytes := Json.slices width (out.length / width) out

theorem floatElementIsFinite_complex (hz : dataType.IsComplex part width) {x y : Bytes}
    (hx : x.length = width) (hy : y.length = width) :
    floatElementIsFinite order (dataType.nameV3.getD []) (x ++ y)
      = (partFinite order width x && partFinite order width y) := by
  have hlen : (x ++ y).length = width + width := by rw [List.length_append, hx, hy]
  have htake : (x ++ y).take width = x := List.take_left' hx
  have hdrop : (x ++ y).drop width = y := List.drop_left' hx
  rcases hz.name with ⟨hname, rfl⟩ | ⟨hname, rfl⟩
  · rw [hname, floatElementIsFinite, hlen, htake, hdrop]
    rfl
  · rw [hname, floatElementIsFinite, hlen, htake, hdrop]
    rfl

/-- The conversion of a scalar of a complex type, and its check. -/
theorem decodeScalar_iff (hz : dataType.IsComplex part width) {v : Value} {element : Bytes} :
    decodeScalar order dataType (width + width) v = .ok element ↔
      ∃ z, (partReader order part width).readElement v = some z ∧ element = z.1 ++ z.2 := by
  have hother : Rules.parts v = [] → (partReader order part width).readElement v = none →
      (decodeScalar order dataType (width + width) v = .ok element ↔
        ∃ z, (partReader order part width).readElement v = some z ∧ element = z.1 ++ z.2) := by
    intro hparts hnone
    rw [decodeScalar, hz.other v hparts, hnone]
    simp
  cases v with
  | arr xs =>
      rcases xs with _ | ⟨re, _ | ⟨im, _ | ⟨w, xs⟩⟩⟩
      · exact hother rfl rfl
      · exact hother rfl rfl
      · have hread : ∀ c, (partReader order part width).read c = part c := fun _ => rfl
        rw [decodeScalar, hz.pair, Rules.PartReader.readElement, hread, hread]
        cases hre : part re with
        | none => simp
        | some x =>
            cases him : part im with
            | none => simp
            | some y =>
                have hx := hz.length re x hre
                have hy := hz.length im y him
                have hlen : (x ++ y).length = width + width := by rw [List.length_append, hx, hy]
                have hnumeric : numericInput (.arr [re, im]) = (isNumber re && isNumber im) := by
                  simp [numericInput, isNumber]
                simp only [Option.pure_def, Option.bind_eq_bind, Option.bind_some, hlen, ne_eq,
                  not_true_eq_false, if_false, hnumeric, floatElementIsFinite_complex hz hx hy]
                show _ ↔ ∃ z, (if (isNumber re && isNumber im &&
                  !(partFinite order width x && partFinite order width y)) = true then none
                    else some (x, y)) = some z ∧ element = z.1 ++ z.2
                cases (isNumber re && isNumber im &&
                  !(partFinite order width x && partFinite order width y)) <;> simp [eq_comm]
      · exact hother rfl rfl
  | _ => exact hother rfl rfl

/-- A chunk decodes to the parts that its elements are read as. -/
theorem decode_iff (hz : dataType.IsComplex part width) {data : Bytes} {shape : List ℕ}
    {nested : Value} {flat : List Value} (hparse : strictFromSlice C data = .ok nested)
    (hflat : flatten nested shape = .ok flat) {out : Bytes} :
    decode C order dataType data shape = .ok out ↔
      ∃ zs, List.Forall₂ (fun v z => (partReader order part width).readElement v = some z) flat zs ∧
        out = (zs.flatMap Rules.values).flatten := by
  have hdecode : decode C order dataType data shape
      = (Json.sequence (flat.map (decodeScalar order dataType (width + width)))).map List.flatten := by
    rw [decode, hz.fixedSize]
    simp only [chunkFromSlice, hparse, hflat, bind, Except.bind]
    cases Json.sequence (flat.map (decodeScalar order dataType (width + width))) <;> rfl
  have hjoin : ∀ zs : List (Bytes × Bytes),
      (zs.map fun z => z.1 ++ z.2).flatten = (zs.flatMap Rules.values).flatten := by
    intro zs
    induction zs with
    | nil => rfl
    | cons z zs ih =>
        rw [List.map_cons, List.flatten_cons, ih, List.flatMap_cons, List.flatten_append]
        simp [Rules.values]
  rw [hdecode]
  constructor
  · intro h
    obtain ⟨elements, helements, rfl⟩ := Json.exists_of_map_eq_ok h
    have hall := (Json.sequence_eq_ok.1 helements).imp fun v e he => (decodeScalar_iff hz).1 he
    obtain ⟨zs, hread, rfl⟩ : ∃ zs, List.Forall₂ (fun v z =>
        (partReader order part width).readElement v = some z) flat zs ∧
          elements = zs.map fun z => z.1 ++ z.2 := by
      clear helements h hflat hdecode
      induction hall with
      | nil => exact ⟨[], .nil, rfl⟩
      | cons hv _ ih =>
          obtain ⟨z, hz, rfl⟩ := hv
          obtain ⟨zs, hzs, rfl⟩ := ih
          exact ⟨z :: zs, .cons hz hzs, rfl⟩
    exact ⟨zs, hread, hjoin zs⟩
  · rintro ⟨zs, hread, rfl⟩
    have hseq : Json.sequence (flat.map (decodeScalar order dataType (width + width)))
        = .ok (zs.map fun z => z.1 ++ z.2) := by
      rw [Json.sequence_eq_ok, List.forall₂_map_right_iff]
      exact hread.imp fun v z hvz => (decodeScalar_iff hz).2 ⟨z, hvz, rfl⟩
    rw [hseq, ← hjoin]
    rfl

/-- The parts of what elements are read as are the parts of the chunk. -/
theorem lanes_flatten (hz : dataType.IsComplex part width) {flat : List Value}
    {zs : List (Bytes × Bytes)}
    (h : List.Forall₂ (fun v z => (partReader order part width).readElement v = some z) flat zs) :
    lanes width (zs.flatMap Rules.values).flatten = zs.flatMap Rules.values := by
  have hlength : ∀ b ∈ zs.flatMap Rules.values, b.length = width := by
    induction h with
    | nil => simp
    | cons hv _ ih =>
        obtain ⟨re, im, -, hre, him⟩ := Rules.PartReader.exists_of_readElement hv
        rw [List.flatMap_cons]
        intro b hb
        rcases List.mem_append.1 hb with hb | hb
        · rcases List.mem_pair.1 hb with rfl | rfl
          · exact hz.length re _ hre
          · exact hz.length im _ him
        · exact ih b hb
  have hpos : 0 < width := by
    rcases hz.name with ⟨-, rfl⟩ | ⟨-, rfl⟩ <;> norm_num
  have hsum : (zs.flatMap Rules.values).flatten.length = (zs.flatMap Rules.values).length * width := by
    rw [List.length_flatten, List.map_congr_left hlength, List.map_const', List.sum_replicate,
      smul_eq_mul]
  rw [lanes, hsum, Nat.mul_div_cancel _ hpos, Json.slices_flatten hlength]

end Rust

/-! ## Both -/

namespace Conformance

/-- No complex element overflows silently, whatever the shape: in Python and in Rust, the parts
of a decoded chunk are sound if and only if an element is refused or no part strays. -/
theorem overflow_guarded_iff (shape : List ℕ) :
    (∀ {κ : Type} (I : Python.Interpreter) (zdtype : Python.ZDType (κ × κ))
        (part : Python.PyValue → Except Python.ScalarError κ) (finite : κ → Bool),
        zdtype.IsComplex part finite → ∀ data nested flat,
        Python.strictLoadsBytes I data = .ok nested → Python.flatten nested shape = .ok flat →
        ((∀ nd, Python.decodeChunk I zdtype data shape = .ok nd →
            List.Forall₂ (Python.partReader part finite).Sound (flat.flatMap Rules.parts)
              (nd.flat.flatMap Rules.values)) ↔
          (∃ v ∈ flat, (Python.partReader part finite).Refuses v) ∨
            ∀ c ∈ flat.flatMap Rules.parts, ¬ (Python.partReader part finite).Strays c)) ∧
      ∀ (C : Rust.Crates) (order : Unicode.ByteOrder) (dataType : Rust.DataType)
        (part : Rust.Value → Option Rust.Bytes) (width : ℕ),
        dataType.IsComplex part width → ∀ data nested flat,
        Rust.strictFromSlice C data = .ok nested → Rust.flatten nested shape = .ok flat →
        ((∀ out, Rust.decode C order dataType data shape = .ok out →
            List.Forall₂ (Rust.partReader order part width).Sound (flat.flatMap Rules.parts)
              (Rust.lanes width out)) ↔
          (∃ v ∈ flat, (Rust.partReader order part width).Refuses v) ∨
            ∀ c ∈ flat.flatMap Rules.parts, ¬ (Rust.partReader order part width).Strays c) := by
  constructor
  · intro κ I zdtype part finite hz data nested flat hparse hflat
    rw [← Rules.PartReader.forall_sound_iff]
    constructor
    · intro h zs hzs
      obtain ⟨nd, hnd, rfl⟩ := (Python.decodeChunk_iff hz hparse hflat).2 hzs
      exact h nd hnd
    · intro h nd hnd
      exact h nd.flat ((Python.decodeChunk_iff hz hparse hflat).1 ⟨nd, hnd, rfl⟩)
  · intro C order dataType part width hz data nested flat hparse hflat
    rw [← Rules.PartReader.forall_sound_iff]
    constructor
    · intro h zs hzs
      have hout := h _ ((Rust.decode_iff hz hparse hflat).2 ⟨zs, hzs, rfl⟩)
      rwa [Rust.lanes_flatten hz hzs] at hout
    · intro h out hout
      obtain ⟨zs, hzs, rfl⟩ := (Rust.decode_iff hz hparse hflat).1 hout
      rw [Rust.lanes_flatten hz hzs]
      exact h zs hzs

end Conformance

/-! ## Complex numbers of two binary32 parts -/

namespace Python

open Numeric (Double)

/-- A part of `complex64`. -/
def complexPart (c : PyValue) : Except ScalarError Double := (floatOfJson c).map Double.fround

/-- The data type `complex64`. -/
def complex64 : ZDType (Double × Double) where
  toJson := .str (py "complex64")
  toJsonScalar z := .arr [floatToJson z.1, floatToJson z.2]
  fromJsonScalar
    | .arr [re, im] => do
        let x ← complexPart re
        let y ← complexPart im
        return (x, y)
    | _ => .error .other
  isFinite z := decide z.1.IsFinite && decide z.2.IsFinite

theorem complex64_isComplex : complex64.IsComplex complexPart fun x => decide x.IsFinite where
  name := ⟨py "complex64", by decide, rfl⟩
  pair _ _ := rfl
  isFinite _ := rfl

end Python

namespace Rust

open Numeric (Double NumberToken binary32)

/-- The bits of a binary32 number. -/
def bits32 : Double → ℕ
  | .nan => 0x7FC00000
  | .infinity neg => sign neg + 0x7F800000
  | .finite neg u _ =>
      sign neg + ((binary32.stepExp u - binary32.minExp) * 2 ^ 23 + u / 2 ^ binary32.stepExp u)
where
  /-- The sign bit. -/
  sign (neg : Bool) : ℕ := if neg then 0x80000000 else 0

/-- The four bytes of a binary32 number on a little-endian host. -/
def toLeBytes32 (x : Double) : Bytes :=
  [bits32 x, bits32 x / 0x100, bits32 x / 0x10000, bits32 x / 0x1000000].map UInt8.ofNat

/-- A part of `complex64`. -/
def complexPart : Value → Option Bytes
  | .num n => some (toLeBytes32 (Double.ofToken n).fround)
  | .str s =>
      if s = "NaN".toList then some (toLeBytes32 .nan)
      else if s = "Infinity".toList then some (toLeBytes32 (.infinity false))
      else if s = "-Infinity".toList then some (toLeBytes32 (.infinity true))
      else none
  | _ => none

/-- The data type `complex64`. -/
def complex64 : DataType where
  nameV3 := some "complex64".toList
  fixedSize := some 8
  fillValue
    | .arr [re, im] => do
        let x ← complexPart re
        let y ← complexPart im
        return x ++ y
    | _ => none

theorem complex64_isComplex : complex64.IsComplex complexPart 4 where
  name := Or.inl ⟨rfl, rfl⟩
  fixedSize := rfl
  pair _ _ := rfl
  other v hv := by
    match v with
    | .arr [re, im] => cases hv
    | .null => rfl
    | .bool b => rfl
    | .str s => rfl
    | .num n => rfl
    | .obj ms => rfl
    | .arr [] => rfl
    | .arr [x] => rfl
    | .arr (x :: y :: w :: xs) => rfl
  length v b h := by
    have hlen : ∀ x, (toLeBytes32 x).length = 4 := fun _ => rfl
    cases v with
    | num n => cases h; exact hlen _
    | str s =>
        rw [complexPart] at h
        split_ifs at h <;> cases h <;> exact hlen _
    | _ => cases h

end Rust

namespace Conformance

/-- The chunk `[[0,1]]`. -/
def inRange : List UInt8 := [0x5B, 0x5B, 0x30, 0x2C, 0x31, 0x5D, 0x5D]

theorem overflow_guarded_iff_inRange :
    (∃ nested flat, Python.strictLoadsBytes Python.cpython inRange = .ok nested ∧
        Python.flatten nested [1] = .ok flat ∧
        ((∀ nd, Python.decodeChunk Python.cpython Python.complex64 inRange [1] = .ok nd →
            List.Forall₂ (Python.partReader Python.complexPart fun x => decide x.IsFinite).Sound
              (flat.flatMap Rules.parts) (nd.flat.flatMap Rules.values)) ↔
          (∃ v ∈ flat, (Python.partReader Python.complexPart fun x => decide x.IsFinite).Refuses v) ∨
            ∀ c ∈ flat.flatMap Rules.parts,
              ¬ (Python.partReader Python.complexPart fun x => decide x.IsFinite).Strays c)) ∧
      ∃ nested flat, Rust.strictFromSlice Rust.crates inRange = .ok nested ∧
        Rust.flatten nested [1] = .ok flat ∧
        ((∀ out, Rust.decode Rust.crates .little Rust.complex64 inRange [1] = .ok out →
            List.Forall₂ (Rust.partReader .little Rust.complexPart 4).Sound (flat.flatMap Rules.parts)
              (Rust.lanes 4 out)) ↔
          (∃ v ∈ flat, (Rust.partReader .little Rust.complexPart 4).Refuses v) ∨
            ∀ c ∈ flat.flatMap Rules.parts, ¬ (Rust.partReader .little Rust.complexPart 4).Strays c) :=
  ⟨⟨.arr [.arr [.num (.int 0), .num (.int 1)]], _, rfl, rfl,
      (overflow_guarded_iff [1]).1 Python.cpython Python.complex64 Python.complexPart _
        Python.complex64_isComplex inRange _ _ rfl rfl⟩,
    ⟨.arr [.arr [.num (.ofInt 0), .num (.ofInt 1)]], _, rfl, rfl,
      (overflow_guarded_iff [1]).2 Rust.crates .little Rust.complex64 Rust.complexPart 4
        Rust.complex64_isComplex inRange _ _ rfl rfl⟩⟩

/-- The chunk `[["NaN",1e39]]`. -/
def beyondRange : List UInt8 :=
  [0x5B, 0x5B, 0x22, 0x4E, 0x61, 0x4E, 0x22, 0x2C, 0x31, 0x65, 0x33, 0x39, 0x5D, 0x5D]

/-- Beside a name, a number beyond the range becomes an infinity: the second part is not
finite, and no name. -/
theorem not_overflow_guarded_beyondRange :
    (∃ nested flat nd, Python.strictLoadsBytes Python.cpython beyondRange = .ok nested ∧
        Python.flatten nested [1] = .ok flat ∧
        Python.decodeChunk Python.cpython Python.complex64 beyondRange [1] = .ok nd ∧
        nd.flat = [(.nan, .infinity false)] ∧
        ¬ List.Forall₂ (Python.partReader Python.complexPart fun x => decide x.IsFinite).Sound
          (flat.flatMap Rules.parts) (nd.flat.flatMap Rules.values)) ∧
      ∃ nested flat, Rust.strictFromSlice Rust.crates beyondRange = .ok nested ∧
        Rust.flatten nested [1] = .ok flat ∧
        Rust.decode Rust.crates .little Rust.complex64 beyondRange [1]
          = .ok [0, 0, 0xC0, 0x7F, 0, 0, 0x80, 0x7F] ∧
        ¬ List.Forall₂ (Rust.partReader .little Rust.complexPart 4).Sound (flat.flatMap Rules.parts)
          (Rust.lanes 4 [0, 0, 0xC0, 0x7F, 0, 0, 0x80, 0x7F]) := by
  have hfalse : ¬ List.Forall₂ (fun named finite => finite = false → named = true) [true, false]
      [false, false] := by decide
  constructor
  · have hnamed : (((Python.strictLoadsBytes Python.cpython beyondRange).toOption.bind fun nested =>
        (Python.flatten nested [1]).toOption).map fun flat =>
          (flat.flatMap Rules.parts).map Python.isNamed) = some [true, false] := by decide +kernel
    have hflat : (Python.decodeChunk Python.cpython Python.complex64 beyondRange [1]).toOption.map
        Python.NdArray.flat = some [(.nan, .infinity false)] := by decide +kernel
    obtain ⟨flat, hbind, hflatNamed⟩ := Option.map_eq_some_iff.1 hnamed
    obtain ⟨nested, hnested, hflatten⟩ := Option.bind_eq_some_iff.1 hbind
    obtain ⟨nd, hnd, hvalues⟩ := Option.map_eq_some_iff.1 hflat
    refine ⟨nested, flat, nd, Json.eq_ok_of_toOption hnested, Json.eq_ok_of_toOption hflatten,
      Json.eq_ok_of_toOption hnd, hvalues, fun h => hfalse ?_⟩
    have hpairs := Rules.PartReader.forall₂_named h
    rw [hvalues] at hpairs
    replace hpairs : List.Forall₂ _ ((flat.flatMap Rules.parts).map Python.isNamed) [false, false] :=
      hpairs
    rwa [hflatNamed] at hpairs
  · have hnamed : (((Rust.strictFromSlice Rust.crates beyondRange).toOption.bind fun nested =>
        (Rust.flatten nested [1]).toOption).map fun flat =>
          (flat.flatMap Rules.parts).map Rust.isNamed) = some [true, false] := by decide +kernel
    have hout : (Rust.decode Rust.crates .little Rust.complex64 beyondRange [1]).toOption
        = some [0, 0, 0xC0, 0x7F, 0, 0, 0x80, 0x7F] := by decide +kernel
    obtain ⟨flat, hbind, hflatNamed⟩ := Option.map_eq_some_iff.1 hnamed
    obtain ⟨nested, hnested, hflatten⟩ := Option.bind_eq_some_iff.1 hbind
    refine ⟨nested, flat, Json.eq_ok_of_toOption hnested, Json.eq_ok_of_toOption hflatten,
      Json.eq_ok_of_toOption hout, fun h => hfalse ?_⟩
    have hpairs := Rules.PartReader.forall₂_named h
    replace hpairs : List.Forall₂ _ ((flat.flatMap Rules.parts).map Rust.isNamed) [false, false] :=
      hpairs
    rwa [hflatNamed] at hpairs

end Conformance
