import ZarrInline.Rust.Inlining
import ZarrInline.Rust.Serializer

/-!
# Chunks are written and read back in Rust

`serializer.rs`: what `JsonCodec` encodes.  The extents of a shape are not zero (`NonZeroU64`),
so every array of a data type whose scalars are JSON is encoded.  What is encoded is decoded to
the same elements if the array, with its scalars, nests at most 127 deep, and is not read as
JSON otherwise (`encode_isEncoded`).
-/

namespace Rust

open Numeric (NumberToken)
open Unicode (ByteOrder)

/-! ## Encoding -/

/-- A data type with both of its conversions. -/
structure ElementType extends DataType where
  /-- `metadata_fill_value` of bytes in native order, and `to_value` of it. -/
  metadataFillValue : Bytes → Option Value

/-- What `encode` fails with. -/
inductive EncodeError where
  | unsupportedDataType
  /-- `validate`: the bytes are not as many as the elements take. -/
  | length
  /-- An error of `zarrs` or of `serde_json` at a scalar. -/
  | scalar
  | panic

/-- `chunks_exact`, for a size that is not zero. -/
def chunksExact (size : ℕ) (raw : Bytes) : List Bytes := Json.slices size (raw.length / size) raw

/-- `nest`: a division by an extent of zero and an index past the end are panics. -/
def nest (flat : List Value) (shape : List ℕ) : Except EncodeError Value :=
  Json.nest .panic .panic shape flat

/-- The body of the loop over the elements in `encode`. -/
def encodeElement (T : ElementType) (element : Bytes) : Except EncodeError Value :=
  match T.metadataFillValue element with
  | some value => .ok value
  | none => .error .scalar

/-- `canonical_to_string` of the nested scalars, in UTF-8. -/
def chunkToBytes (C : Crates) (nested : Value) : Except EncodeError Bytes :=
  match canonicalToString C nested with
  | .ok text => .ok (Unicode.encodeUtf8 text)
  | .error _ => .error .panic

/-- `JsonCodec::encode`. -/
def encode (C : Crates) (T : ElementType) (bytes : Bytes) (shape : List ℕ) : Except EncodeError Bytes :=
  match T.fixedSize with
  | none => .error .unsupportedDataType
  | some elementSize =>
      if bytes.length ≠ shape.prod * elementSize then .error .length
      else if elementSize = 0 then .error .panic
      else do
        let flat ← Json.sequence ((chunksExact elementSize bytes).map (encodeElement T))
        let nested ← nest flat shape
        chunkToBytes C nested

/-! ## Data types -/

/-- The conversions of a data type are inverse, up to `same`: what an element is shown as is a
value, the value in canonical form is converted to an element that is the same, and what numbers
are converted to is finite. -/
structure ElementType.Lawful (T : ElementType) (order : ByteOrder) (size : ℕ) (same : Bytes → Bytes → Prop) :
    Prop where
  fixedSize : T.fixedSize = some size
  size_pos : 0 < size
  isValue : ∀ element value, T.metadataFillValue element = some value → IsValue value
  inverse : ∀ element value, element.length = size → T.metadataFillValue element = some value →
    ∃ back, T.fillValue (canonicalValue value) = some back ∧ back.length = size ∧ same element back ∧
      (numericInput value = true → floatElementIsFinite order (T.nameV3.getD []) back = true)

/-- The JSON value of an element that has one. -/
def ElementType.value (T : ElementType) (element : Bytes) : Value :=
  (T.metadataFillValue element).getD .null

/-- Every element of the bytes has a JSON value. -/
def ElementType.Shows (T : ElementType) (size : ℕ) (bytes : Bytes) : Prop :=
  ∀ element ∈ chunksExact size bytes, (T.metadataFillValue element).isSome = true

instance (T : ElementType) (size : ℕ) (bytes : Bytes) : Decidable (T.Shows size bytes) :=
  inferInstanceAs (Decidable (∀ element ∈ _, _))

/-- The reader admits the nesting of an array and its scalars. -/
structure ElementType.Nests (T : ElementType) (size : ℕ) (bytes : Bytes) (shape : List ℕ) : Prop where
  rank : shape.length ≤ 127
  scalar : ∀ element ∈ chunksExact size bytes, shape.length + (T.value element).depth ≤ 127

section Chunks

variable {C : Crates} {T : ElementType} {order : ByteOrder} {size : ℕ} {same : Bytes → Bytes → Prop}
  {bytes element : Bytes} {shape : List ℕ}

theorem length_chunksExact (hsize : 0 < size) (hlen : bytes.length = shape.prod * size) :
    (chunksExact size bytes).length = shape.prod := by
  rw [chunksExact, Json.length_slices, hlen, Nat.mul_div_cancel _ hsize]

theorem length_of_mem_chunksExact (hsize : 0 < size) (hlen : bytes.length = shape.prod * size)
    (h : element ∈ chunksExact size bytes) : element.length = size := by
  rw [chunksExact, hlen, Nat.mul_div_cancel _ hsize] at h
  exact Json.length_of_mem_slices hlen h

theorem length_flatten_parts {parts : List Bytes} (h : ∀ p ∈ parts, p.length = size) :
    parts.flatten.length = parts.length * size := by
  rw [List.length_flatten, List.map_congr_left h, List.map_const', List.sum_replicate, smul_eq_mul]

/-- Elements that are put together are the elements again. -/
theorem chunksExact_flatten (hsize : 0 < size) {parts : List Bytes} (h : ∀ p ∈ parts, p.length = size) :
    chunksExact size parts.flatten = parts := by
  rw [chunksExact, length_flatten_parts h, Nat.mul_div_cancel _ hsize]
  exact Json.slices_flatten h

theorem ElementType.Shows.metadataFillValue (hshows : T.Shows size bytes)
    (h : element ∈ chunksExact size bytes) : T.metadataFillValue element = some (T.value element) := by
  obtain ⟨value, hvalue⟩ := Option.isSome_iff_exists.1 (hshows element h)
  rw [ElementType.value, hvalue]
  rfl

theorem isNumber_canonicalValue (value : Value) : isNumber (canonicalValue value) = isNumber value := by
  cases value <;> rfl

/-- What is read back is a number, or an array of numbers, if the value is. -/
theorem numericInput_canonicalValue (value : Value) :
    numericInput (canonicalValue value) = numericInput value := by
  cases value with
  | arr parts =>
      have hparts : canonicalValue (.arr parts) = .arr (parts.map canonicalValue) := Json.map_arr _ _ parts
      rw [hparts]
      show (parts.map canonicalValue).all isNumber = parts.all isNumber
      rw [List.all_map]
      exact congrArg (List.all parts) (funext isNumber_canonicalValue)
  | obj ms => rw [canonicalValue, Json.map_obj]; rfl
  | _ => rfl

/-- The JSON value of an element is decoded to an element that is the same. -/
theorem exists_decodeScalar (hlawful : T.Lawful order size same) (hlen : element.length = size)
    (hvalue : T.metadataFillValue element = some (T.value element)) :
    ∃ back, decodeScalar order T.toDataType size (canonicalValue (T.value element)) = .ok back ∧
      back.length = size ∧ same element back := by
  obtain ⟨back, hback, hsize, hsame, hfinite⟩ := hlawful.inverse element _ hlen hvalue
  refine ⟨back, ?_, hsize, hsame⟩
  have hrange : (numericInput (canonicalValue (T.value element)) &&
      !floatElementIsFinite order (T.nameV3.getD []) back) = false := by
    rw [numericInput_canonicalValue]
    cases hnumeric : numericInput (T.value element) with
    | false => rfl
    | true => rw [hfinite hnumeric]; rfl
  rw [decodeScalar, hback]
  simp only [hsize, ne_eq, not_true_eq_false, if_false, hrange, Bool.false_eq_true]

/-! ## Nested scalars -/

/-- The JSON values of the elements. -/
def ElementType.scalars (T : ElementType) (size : ℕ) (bytes : Bytes) : List Value :=
  (chunksExact size bytes).map T.value

theorem length_scalars (hsize : 0 < size) (hlen : bytes.length = shape.prod * size) :
    (T.scalars size bytes).length = shape.prod := by
  rw [ElementType.scalars, List.length_map, length_chunksExact hsize hlen]

section Nested

variable {nested : Value}

/-- An array of scalars that was nested is a value. -/
theorem isValue_chunk (hlawful : T.Lawful order size same) (hlen : bytes.length = shape.prod * size)
    (hshows : T.Shows size bytes) (h : nest (T.scalars size bytes) shape = .ok nested) :
    IsValue nested := by
  refine (Json.nest_forall_iff (fun xs => Json.every_arr xs)
    (length_scalars hlawful.size_pos hlen) h).2 fun x hx => ?_
  obtain ⟨element, helement, rfl⟩ := List.mem_map.1 hx
  exact hlawful.isValue element _ (hshows.metadataFillValue helement)

theorem nests_iff (hsize : 0 < size) (hlen : bytes.length = shape.prod * size)
    (h : nest (T.scalars size bytes) shape = .ok nested) :
    T.Nests size bytes shape ↔ nested.depth ≤ 127 := by
  rw [Json.measure_nest_le_iff (fun xs => (Json.depth_arr xs).symm ▸ Nat.succ_pos _)
    (fun xs n => Json.depth_arr_le_iff) (length_scalars hsize hlen) h, ElementType.scalars,
    List.forall_mem_map]
  exact ⟨fun ⟨hrank, hscalar⟩ => ⟨hrank, hscalar⟩, fun ⟨hrank, hscalar⟩ => ⟨hrank, hscalar⟩⟩

theorem chunkToBytes_eq (hvalue : IsValue nested) :
    chunkToBytes C nested = .ok (Unicode.encodeUtf8 (canonicalTree nested).text) := by
  rw [chunkToBytes, canonicalToString_eq hvalue.hasNumbers]

/-- A nested array is encoded as its canonical text. -/
theorem encode_eq (hlawful : T.Lawful order size same) (hlen : bytes.length = shape.prod * size)
    (hshows : T.Shows size bytes) (h : nest (T.scalars size bytes) shape = .ok nested) :
    encode C T bytes shape = .ok (Unicode.encodeUtf8 (canonicalTree nested).text) := by
  have hflat : Json.sequence ((chunksExact size bytes).map (encodeElement T))
      = .ok (T.scalars size bytes) := by
    rw [Json.sequence_eq_ok, ElementType.scalars, List.forall₂_map_right_iff, List.forall₂_same]
    intro element helement
    rw [encodeElement, hshows.metadataFillValue helement]
  rw [encode, hlawful.fixedSize]
  simp only [hlen, ne_eq, not_true_eq_false, if_false, hlawful.size_pos.ne', hflat, h, bind, Except.bind]
  exact chunkToBytes_eq (isValue_chunk hlawful hlen hshows h)

/-- The canonical values of the elements are decoded to elements that are the same. -/
theorem exists_decodeScalars (hlawful : T.Lawful order size same)
    (hlen : bytes.length = shape.prod * size) (hshows : T.Shows size bytes) :
    ∃ elements, Json.sequence (((T.scalars size bytes).map canonicalValue).map
        (decodeScalar order T.toDataType size)) = .ok elements ∧
      (∀ back ∈ elements, back.length = size) ∧ List.Forall₂ same (chunksExact size bytes) elements := by
  have hback : ∀ element ∈ chunksExact size bytes, ∃ back,
      decodeScalar order T.toDataType size (canonicalValue (T.value element)) = .ok back ∧
        back.length = size ∧ same element back := fun element helement =>
    exists_decodeScalar hlawful (length_of_mem_chunksExact hlawful.size_pos hlen helement)
      (hshows.metadataFillValue helement)
  choose! back hdecode hsize hsame using hback
  refine ⟨(chunksExact size bytes).map back, ?_, List.forall_mem_map.2 hsize, ?_⟩
  · rw [Json.sequence_eq_ok]
    simp only [ElementType.scalars, List.forall₂_map_left_iff, List.forall₂_map_right_iff,
      List.forall₂_same]
    exact hdecode
  · rw [List.forall₂_map_right_iff, List.forall₂_same]
    exact hsame

/-- The text of a nested array is decoded to the same elements, if the reader admits it. -/
theorem decode_text (hlawful : T.Lawful order size same) (hlen : bytes.length = shape.prod * size)
    (hshows : T.Shows size bytes) (h : nest (T.scalars size bytes) shape = .ok nested)
    (hdepth : nested.depth ≤ 127) :
    ∃ out, decode C order T.toDataType (Unicode.encodeUtf8 (canonicalTree nested).text) shape = .ok out ∧
      out.length = bytes.length ∧ List.Forall₂ same (chunksExact size bytes) (chunksExact size out) := by
  have hvalue := isValue_chunk hlawful hlen hshows h
  have hscalars := length_scalars (T := T) hlawful.size_pos hlen
  have hread : chunkFromSlice C (Unicode.encodeUtf8 (canonicalTree nested).text)
      = .ok (canonicalValue nested) := by
    rw [chunkFromSlice, strictFromSlice_canonicalTree hvalue, if_pos hdepth]
  have hnest : nest ((T.scalars size bytes).map canonicalValue) shape = .ok (canonicalValue nested) :=
    Json.nest_map (fun xs => Json.map_arr _ _ xs) hscalars h
  have hflat : flatten (canonicalValue nested) shape = .ok ((T.scalars size bytes).map canonicalValue) :=
    Json.flatten_nest _ (by rw [List.length_map, hscalars]) hnest
  obtain ⟨elements, helements, hsize, hsame⟩ := exists_decodeScalars hlawful hlen hshows
  refine ⟨elements.flatten, ?_, ?_, ?_⟩
  · rw [decode, hlawful.fixedSize]
    simp only [hread, hflat, helements, bind, Except.bind, pure, Except.pure]
  · rw [length_flatten_parts hsize, ← hsame.length_eq, length_chunksExact hlawful.size_pos hlen, hlen]
  · rw [chunksExact_flatten hlawful.size_pos hsize]
    exact hsame

end Nested

/-- What an array is encoded as: the canonical text of its scalars, nested by the shape.  It is
decoded to the same elements if the reader admits the nesting, and is not read as JSON
otherwise. -/
structure IsEncoded (C : Crates) (T : ElementType) (order : ByteOrder) (size : ℕ)
    (same : Bytes → Bytes → Prop) (bytes : Bytes) (shape : List ℕ) (data : Bytes) : Prop where
  canonical : ∃ nested, flatten nested shape = .ok (T.scalars size bytes) ∧ chunkToBytes C nested = .ok data
  decodes : T.Nests size bytes shape → ∃ out, decode C order T.toDataType data shape = .ok out ∧
    out.length = bytes.length ∧ List.Forall₂ same (chunksExact size bytes) (chunksExact size out)
  fails : ¬ T.Nests size bytes shape →
    decode C order T.toDataType data shape = .error (.notJson .json)

/-- The elements of an array without an extent of zero are encoded. -/
theorem encode_isEncoded (C : Crates) (T : ElementType) (order : ByteOrder) (size : ℕ)
    (same : Bytes → Bytes → Prop) (hlawful : T.Lawful order size same) (bytes : Bytes) (shape : List ℕ)
    (hlen : bytes.length = shape.prod * size) (hshows : T.Shows size bytes) (hshape : 0 ∉ shape) :
    ∃ data, encode C T bytes shape = .ok data ∧ IsEncoded C T order size same bytes shape data := by
  have hscalars := length_scalars (T := T) hlawful.size_pos hlen
  have hok : Json.IsOk (nest (T.scalars size bytes) shape) :=
    (Json.nest_isOk_iff hscalars).2 fun hzero => hshape (List.mem_of_mem_dropLast hzero)
  obtain ⟨nested, hnest⟩ := Json.isOk_iff.1 hok
  have hvalue := isValue_chunk hlawful hlen hshows hnest
  have hnests := nests_iff (T := T) hlawful.size_pos hlen hnest
  refine ⟨_, encode_eq hlawful hlen hshows hnest, ?_, ?_, ?_⟩
  · exact ⟨nested, Json.flatten_nest _ hscalars hnest, chunkToBytes_eq hvalue⟩
  · exact fun h => decode_text hlawful hlen hshows hnest (hnests.1 h)
  · intro h
    have hread : chunkFromSlice C (Unicode.encodeUtf8 (canonicalTree nested).text)
        = .error (.notJson .json) := by
      rw [chunkFromSlice, strictFromSlice_canonicalTree hvalue, if_neg (mt hnests.2 h)]
    rw [decode, hlawful.fixedSize]
    simp only [hread, bind, Except.bind]

end Chunks

/-! ## Arrays of bytes -/

/-- `as_u64` of a number, as a `u8`. -/
def u8OfNumber (n : NumberToken) : Option UInt8 :=
  if n.IsInteger ∧ n.neg = false ∧ n.intValue < 256 then some (UInt8.ofNat n.intValue.toNat) else none

/-- The data type `uint8`. -/
def uint8 : ElementType where
  nameV3 := some "uint8".toList
  fixedSize := some 1
  fillValue
    | .num n => (u8OfNumber n).map fun b => [b]
    | _ => none
  metadataFillValue
    | [b] => some (.num (.ofInt b.toNat))
    | _ => none

theorem uint8_fillValue_num (n : NumberToken) :
    uint8.fillValue (.num n) = (u8OfNumber n).map fun b => [b] :=
  rfl

theorem u8OfNumber_ofInt (b : UInt8) : u8OfNumber (.ofInt b.toNat) = some b := by
  have hneg : (NumberToken.ofInt b.toNat).neg = false := by
    show decide ((b.toNat : ℤ) < 0) = false
    exact decide_eq_false (by omega)
  have hlt : (b.toNat : ℤ) < 256 := by exact_mod_cast b.toNat_lt
  rw [u8OfNumber, NumberToken.intValue_ofInt, if_pos ⟨NumberToken.isInteger_ofInt _, hneg, hlt⟩]
  exact congrArg some UInt8.ofNat_toNat

theorem uint8_lawful (order : ByteOrder) : uint8.Lawful order 1 Eq where
  fixedSize := rfl
  size_pos := Nat.one_pos
  isValue element value h := by
    match element, h with
    | [b], h =>
        obtain rfl := Option.some.inj h
        exact (Json.every_num _).2 (Or.inl (NumberToken.isInteger_ofInt _))
  inverse element value _ h := by
    match element, h with
    | [b], h =>
        obtain rfl := Option.some.inj h
        have hcanonical : canonicalValue (.num (.ofInt b.toNat)) = .num (.ofInt b.toNat) := by
          show Json.num (Json.canonicalToken _) = _
          rw [Json.canonicalToken, if_pos (NumberToken.isInteger_ofInt _), NumberToken.intValue_ofInt]
        refine ⟨[b], ?_, rfl, rfl, fun _ => rfl⟩
        rw [hcanonical, uint8_fillValue_num, u8OfNumber_ofInt]
        rfl

/-- Two rows of two bytes. -/
def square : Bytes := [0, 1, 254, 255]

theorem encode_isEncoded_square :
    ∃ data, encode crates uint8 square [2, 2] = .ok data ∧
      IsEncoded crates uint8 .little 1 Eq square [2, 2] data :=
  encode_isEncoded crates uint8 .little 1 Eq (uint8_lawful _) square [2, 2] rfl (by decide) (by decide)

end Rust
