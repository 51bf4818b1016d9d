import ZarrInline.Json.Leaves
import ZarrInline.TypeScript.Chunks
import ZarrInline.TypeScript.Inlining

/-!
# What the chunk codec accepts

`JsonSerializer.decode` takes the bytes of a JSON text, after an optional byte order mark, whose
arrays have the shape of the chunk and whose leaves are admissible (`decode_eq_ok_iff`).  The
element of an admissible leaf (`element?`) is what its token writes, never something that was
made of another kind of value: an integer, or the nearest double, which is then rounded to
`float32` where that is the data type.
-/

namespace TypeScript

open Numeric (Double NumberToken)

variable {V : Conversions} {dataType : DataType} {shape : List ℕ} {bytes : Bytes} {chunk : Chunk}

/-! ## Admissible leaves -/

/-- What `JSON.parse` reads, with the source texts of the numbers. -/
abbrev JsTokens := Json JsString NumberToken

/-- The double that a number token is read as. -/
def nearest (t : NumberToken) : Double := if t.IsInteger then Double.ofInt t.intValue else Double.ofToken t

/-- The double that a float type keeps of a double. -/
def rounded (dataType : DataType) (x : Double) : Double := if dataType = .float32 then x.fround else x

/-- The bounds of a type of integers. -/
def integerRange? (dataType : DataType) : Option (ℤ × ℤ) :=
  if isBigintType dataType then some (bigintRange dataType) else intRange? dataType

/-- The element that is kept of an integer. -/
def integerElement (dataType : DataType) (i : ℤ) : JsValue :=
  .num (if isBigintType dataType then .bigint i else .number (Double.ofInt i))

/-- The element of a number token, if the token is admissible. -/
def numberElement? (dataType : DataType) (t : NumberToken) : Option JsValue :=
  if isFloatType dataType then
    if (rounded dataType (nearest t)).IsFinite then some (.num (.number (rounded dataType (nearest t))))
    else none
  else
    match integerRange? dataType with
    | some (lo, hi) =>
        if t.IsInteger ∧ lo ≤ t.intValue ∧ t.intValue ≤ hi then some (integerElement dataType t.intValue)
        else none
    | none => none

/-- The element of a leaf, if the leaf is admissible. -/
def element? (dataType : DataType) : JsTokens → Option JsValue
  | .bool b => if dataType = .bool then some (.bool b) else none
  | .str s => if isFloatType dataType then (nonFinite? s).map fun x => .num (.number x) else none
  | .num t => numberElement? dataType t
  | _ => none

/-! ## Reading a leaf -/

/-- A leaf is read as an element: it is revived, converted and stored. -/
def ReadsAs (V : Conversions) (dataType : DataType) (leaf : JsTokens) (w : JsValue) : Prop :=
  ∃ v, leaf.traverse (revive ⟨true⟩) = .ok v ∧
    ∃ s, fromJsonScalar v dataType = .ok s ∧ storeElement V dataType s = .ok w

/-- Storing a double in a typed array of floats. -/
theorem storeElement_float (hctor : hasTypedArray dataType = true) (hfloat : isFloatType dataType = true)
    (x : Double) :
    storeElement V dataType (.num (.number x)) = .ok (.num (.number (rounded dataType x))) := by
  cases dataType with
  | float32 => rfl
  | float64 => rfl
  | float16 => cases hctor
  | _ => cases hfloat

theorem wrap_signed {n : ℕ} {i : ℤ} (hlo : -(2 ^ n) ≤ i) (hhi : i < 2 ^ n) : wrap true (n + 1) i = i := by
  have hpow : ((2 ^ (n + 1) : ℕ) : ℤ) = 2 * 2 ^ n := by
    push_cast
    ring
  rw [wrap, if_pos rfl]
  exact Int.bmod_eq_of_le (by rw [hpow]; omega) (by rw [hpow]; omega)

theorem wrap_unsigned {n : ℕ} {i : ℤ} (hlo : 0 ≤ i) (hhi : i < 2 ^ n) : wrap false n i = i :=
  Int.emod_eq_of_lt hlo hhi

theorem storeInteger_ofInt {signed : Bool} {n : ℕ} {i : ℤ} (hwrap : wrap signed n i = i)
    (hi : i.natAbs < 2 ^ 53) :
    storeInteger V signed n (.num (.number (Double.ofInt i))) = .ok (.num (.number (Double.ofInt i))) := by
  show Except.ok (Json.num (JsAtom.number (Double.ofInt (wrap signed n (truncate (Double.ofInt i)))))) = _
  rw [truncate_ofInt hi, hwrap]

theorem storeBigint_bigint {signed : Bool} {i : ℤ} (hwrap : wrap signed 64 i = i) :
    storeBigint V signed (.num (.bigint i)) = .ok (.num (.bigint i)) := by
  show Except.ok (Json.num (JsAtom.bigint (wrap signed 64 i))) = _
  rw [hwrap]

/-- Storing an integer within the range of a type. -/
theorem storeElement_integer {i : ℤ} {range : ℤ × ℤ} (hrange : integerRange? dataType = some range)
    (hi : range.1 ≤ i ∧ i ≤ range.2) :
    storeElement V dataType (integerElement dataType i) = .ok (integerElement dataType i) := by
  obtain ⟨hlo, hhi⟩ := hi
  cases dataType with
  | int8 =>
      cases hrange
      exact storeInteger_ofInt (wrap_signed (n := 7) hlo (by omega)) (by omega)
  | int16 =>
      cases hrange
      exact storeInteger_ofInt (wrap_signed (n := 15) hlo (by omega)) (by omega)
  | int32 =>
      cases hrange
      exact storeInteger_ofInt (wrap_signed (n := 31) hlo (by omega)) (by omega)
  | int64 =>
      cases hrange
      exact storeBigint_bigint (wrap_signed (n := 63) hlo (Int.lt_of_le_sub_one hhi))
  | uint8 =>
      cases hrange
      exact storeInteger_ofInt (wrap_unsigned hlo (by omega)) (by omega)
  | uint16 =>
      cases hrange
      exact storeInteger_ofInt (wrap_unsigned hlo (by omega)) (by omega)
  | uint32 =>
      cases hrange
      exact storeInteger_ofInt (wrap_unsigned hlo (by omega)) (by omega)
  | uint64 =>
      cases hrange
      exact storeBigint_bigint (wrap_unsigned hlo (Int.lt_of_le_sub_one hhi))
  | _ => cases hrange

/-- A token is revived as a big integer, or as a double that is finite. -/
theorem revive_integers {t : NumberToken} {a : JsAtom} : revive ⟨true⟩ t = .ok a ↔
    t.IsInteger ∧ a = .bigint t.intValue ∨
      ¬ t.IsInteger ∧ (Double.ofToken t).IsFinite ∧ a = .number (Double.ofToken t) := by
  rw [revive]
  by_cases hint : t.IsInteger
  · simp [hint, eq_comm]
  · by_cases hfinite : (Double.ofToken t).IsFinite
    · simp [hint, hfinite, eq_comm]
    · simp [hint, hfinite]

theorem isFinite_of_rounded {x : Double} (h : (rounded dataType x).IsFinite) : x.IsFinite := by
  cases x with
  | finite neg u hu => trivial
  | _ =>
      rw [rounded] at h
      split at h <;> exact h

/-- The conversion of a number for a float type. -/
theorem fromJsonNumber_eq_ok_iff (x : Double) (v s : JsValue) : fromJsonNumber x dataType v = .ok s ↔
    (rounded dataType x).IsFinite ∧ s = .num (.number x) := by
  rw [fromJsonNumber]
  show (if (rounded dataType x).IsFinite then _ else _) = _ ↔ _
  split
  · next h => simp [h, eq_comm]
  · next h => simp [h]

/-- The kinds of data types that have a typed array. -/
theorem float_or_bool_or_integer (hctor : hasTypedArray dataType = true) :
    isFloatType dataType = true ∨ dataType = .bool ∨
      isFloatType dataType = false ∧ dataType ≠ .bool ∧ ∃ range, integerRange? dataType = some range := by
  cases dataType with
  | bool => exact Or.inr (Or.inl rfl)
  | float32 => exact Or.inl rfl
  | float64 => exact Or.inl rfl
  | float16 => cases hctor
  | other name => cases hctor
  | _ => exact Or.inr (Or.inr ⟨rfl, nofun, _, rfl⟩)

section Bounds

variable {range : ℤ × ℤ} {i : ℤ} {e : ChunkError} {v s : JsValue}

theorem not_outside_iff : ¬ (i < range.1 ∨ range.2 < i) ↔ range.1 ≤ i ∧ i ≤ range.2 := by
  rw [not_or, not_lt, not_lt]

theorem check_eq_ok_iff : (if i < range.1 ∨ range.2 < i then .error e else .ok v) = Except.ok s ↔
    (range.1 ≤ i ∧ i ≤ range.2) ∧ s = v := by
  rw [← not_outside_iff]
  split
  · next h => exact iff_of_false (fun hok => by cases hok) fun hok => hok.1 h
  · next h => exact ⟨fun hok => ⟨h, (Except.ok.inj hok).symm⟩, fun hok => congrArg Except.ok hok.2.symm⟩

theorem fromJsonBigint_eq_ok_iff : fromJsonBigint v dataType = .ok s ↔
    ∃ i, v = .num (.bigint i) ∧ ((bigintRange dataType).1 ≤ i ∧ i ≤ (bigintRange dataType).2) ∧
      s = .num (.bigint i) := by
  have hnone : (∀ i, v ≠ .num (.bigint i)) → fromJsonBigint v dataType = .error (.notInteger dataType v) →
      (fromJsonBigint v dataType = .ok s ↔ ∃ i, v = .num (.bigint i) ∧
        ((bigintRange dataType).1 ≤ i ∧ i ≤ (bigintRange dataType).2) ∧ s = .num (.bigint i)) := by
    intro hne herror
    refine iff_of_false (fun hok => ?_) fun ⟨i, heq, _⟩ => hne i heq
    rw [herror] at hok
    cases hok
  cases v with
  | num a =>
      cases a with
      | bigint i =>
          refine check_eq_ok_iff.trans ⟨fun h => ⟨i, rfl, h⟩, ?_⟩
          rintro ⟨j, heq, h⟩
          cases heq
          exact h
      | _ => exact hnone nofun rfl
  | _ => exact hnone nofun rfl

theorem fromJsonInteger_eq_ok_iff : fromJsonInteger v dataType range = .ok s ↔
    ∃ i, v = .num (.bigint i) ∧ (range.1 ≤ i ∧ i ≤ range.2) ∧ s = .num (.number (Double.ofInt i)) := by
  have hnone : (∀ i, v ≠ .num (.bigint i)) →
      fromJsonInteger v dataType range = .error (.invalidInteger dataType v) →
      (fromJsonInteger v dataType range = .ok s ↔ ∃ i, v = .num (.bigint i) ∧
        (range.1 ≤ i ∧ i ≤ range.2) ∧ s = .num (.number (Double.ofInt i))) := by
    intro hne herror
    refine iff_of_false (fun hok => ?_) fun ⟨i, heq, _⟩ => hne i heq
    rw [herror] at hok
    cases hok
  cases v with
  | num a =>
      cases a with
      | bigint i =>
          refine check_eq_ok_iff.trans ⟨fun h => ⟨i, rfl, h⟩, ?_⟩
          rintro ⟨j, heq, h⟩
          cases heq
          exact h
      | _ => exact hnone nofun rfl
  | _ => exact hnone nofun rfl

/-- The conversion for a type of integers. -/
theorem fromJsonScalar_integer (hfloat : isFloatType dataType = false)
    (hbool : dataType ≠ .bool) (hrange : integerRange? dataType = some range) :
    fromJsonScalar v dataType = .ok s ↔
      ∃ i, v = .num (.bigint i) ∧ (range.1 ≤ i ∧ i ≤ range.2) ∧ s = integerElement dataType i := by
  rw [integerRange?] at hrange
  simp only [fromJsonScalar, hfloat, hbool, integerElement, Bool.false_eq_true, if_false]
  split
  · next hbig =>
      rw [if_pos hbig] at hrange
      cases hrange
      exact fromJsonBigint_eq_ok_iff
  · next hbig =>
      rw [if_neg hbig] at hrange
      simp only [hrange]
      exact fromJsonInteger_eq_ok_iff

end Bounds

/-! ## Reading as an element -/

section Reading

variable {w : JsValue}

theorem readsAs_num_iff {t : NumberToken} : ReadsAs V dataType (.num t) w ↔
    ∃ a, revive ⟨true⟩ t = .ok a ∧
      ∃ s, fromJsonScalar (.num a) dataType = .ok s ∧ storeElement V dataType s = .ok w := by
  have htraverse : Json.traverse (revive ⟨true⟩) (.num t : JsTokens) = (revive ⟨true⟩ t).map .num := rfl
  constructor
  · rintro ⟨v, hv, h⟩
    rw [htraverse] at hv
    obtain ⟨a, ha, rfl⟩ := Json.exists_of_map_eq_ok hv
    exact ⟨a, ha, h⟩
  · rintro ⟨a, ha, h⟩
    exact ⟨.num a, by rw [htraverse, ha]; rfl, h⟩

/-- The number of a float type. -/
theorem readsAs_num_float (hctor : hasTypedArray dataType = true) (hfloat : isFloatType dataType = true)
    {t : NumberToken} : ReadsAs V dataType (.num t) w ↔ numberElement? dataType t = some w := by
  have hnumber : ∀ x v, (∃ s, fromJsonNumber x dataType v = .ok s ∧ storeElement V dataType s = .ok w) ↔
      (rounded dataType x).IsFinite ∧ w = .num (.number (rounded dataType x)) := by
    intro x v
    constructor
    · rintro ⟨s, hs, hw⟩
      obtain ⟨hfinite, rfl⟩ := (fromJsonNumber_eq_ok_iff x v s).1 hs
      rw [storeElement_float hctor hfloat] at hw
      exact ⟨hfinite, (Except.ok.inj hw).symm⟩
    · rintro ⟨hfinite, rfl⟩
      exact ⟨_, (fromJsonNumber_eq_ok_iff x v _).2 ⟨hfinite, rfl⟩, storeElement_float hctor hfloat x⟩
  have hbigint : ∀ i, fromJsonScalar (.num (.bigint i)) dataType
      = fromJsonNumber (Double.ofInt i) dataType (.num (.bigint i)) := fun i => by
    simp only [fromJsonScalar, hfloat, if_true]
    rfl
  have hdouble : ∀ x, fromJsonScalar (.num (.number x)) dataType
      = fromJsonNumber x dataType (.num (.number x)) := fun x => by
    simp only [fromJsonScalar, hfloat, if_true]
    rfl
  have helement : numberElement? dataType t = some w ↔
      (rounded dataType (nearest t)).IsFinite ∧ w = .num (.number (rounded dataType (nearest t))) := by
    rw [numberElement?, if_pos hfloat]
    split
    · next h => simp [h, eq_comm]
    · next h => simp [h]
  rw [readsAs_num_iff, helement]
  by_cases hint : t.IsInteger
  · rw [nearest, if_pos hint, ← hnumber _ (.num (.bigint t.intValue)), ← hbigint]
    constructor
    · rintro ⟨a, ha, h⟩
      obtain ⟨-, rfl⟩ | ⟨hnot, -⟩ := revive_integers.1 ha
      · exact h
      · exact absurd hint hnot
    · exact fun h => ⟨_, revive_integers.2 (Or.inl ⟨hint, rfl⟩), h⟩
  · rw [nearest, if_neg hint]
    constructor
    · rintro ⟨a, ha, h⟩
      obtain ⟨hyes, -⟩ | ⟨-, -, rfl⟩ := revive_integers.1 ha
      · exact absurd hyes hint
      · rw [hdouble] at h
        exact (hnumber _ _).1 h
    · intro h
      refine ⟨_, revive_integers.2 (Or.inr ⟨hint, isFinite_of_rounded h.1, rfl⟩), ?_⟩
      rw [hdouble]
      exact (hnumber _ _).2 h

/-- The number of a type of integers. -/
theorem readsAs_num_integer {range : ℤ × ℤ} (hfloat : isFloatType dataType = false)
    (hbool : dataType ≠ .bool) (hrange : integerRange? dataType = some range) {t : NumberToken} :
    ReadsAs V dataType (.num t) w ↔ numberElement? dataType t = some w := by
  have helement : numberElement? dataType t = some w ↔ t.IsInteger ∧
      (range.1 ≤ t.intValue ∧ t.intValue ≤ range.2) ∧ w = integerElement dataType t.intValue := by
    simp only [numberElement?, hfloat, hrange, Bool.false_eq_true, if_false]
    split
    · next h => simp [h, eq_comm]
    · next h =>
        refine iff_of_false (fun hok => by cases hok) ?_
        rintro ⟨hint, hin, -⟩
        exact h ⟨hint, hin⟩
  rw [readsAs_num_iff, helement]
  constructor
  · rintro ⟨a, ha, s, hs, hw⟩
    obtain ⟨i, heq, hi, rfl⟩ := (fromJsonScalar_integer hfloat hbool hrange).1 hs
    obtain ⟨hint, rfl⟩ | ⟨-, -, rfl⟩ := revive_integers.1 ha
    · cases heq
      rw [storeElement_integer hrange hi] at hw
      exact ⟨hint, hi, (Except.ok.inj hw).symm⟩
    · cases heq
  · rintro ⟨hint, hi, rfl⟩
    exact ⟨_, revive_integers.2 (Or.inl ⟨hint, rfl⟩), _,
      (fromJsonScalar_integer hfloat hbool hrange).2 ⟨_, rfl, hi, rfl⟩, storeElement_integer hrange hi⟩

/-- Nothing but booleans is a `bool`. -/
theorem fromJsonScalar_bool {v s : JsValue} :
    fromJsonScalar v .bool = .ok s ↔ ∃ b, v = .bool b ∧ s = .bool b := by
  cases v with
  | bool b =>
      show Except.ok (Json.bool b) = Except.ok s ↔ _
      simp [eq_comm]
  | _ => exact iff_of_false (fun hok => by cases hok) fun ⟨b, heq, _⟩ => by cases heq

/-- A string of a float type is one of three. -/
theorem fromJsonScalar_str_float (hfloat : isFloatType dataType = true) {k : JsString} {s : JsValue} :
    fromJsonScalar (.str k) dataType = .ok s ↔ ∃ x, nonFinite? k = some x ∧ s = .num (.number x) := by
  simp only [fromJsonScalar, hfloat, if_true, fromJsonFloat]
  cases nonFinite? k with
  | none => simp
  | some x => simp [eq_comm]

/-- The three numbers that are no finite numbers are kept. -/
theorem rounded_nonFinite {k : JsString} {x : Double} (h : nonFinite? k = some x) : rounded dataType x = x := by
  rw [nonFinite?] at h
  rw [rounded]
  split_ifs at h <;> cases h <;> split <;> rfl

theorem fromJsonScalar_float_other (hfloat : isFloatType dataType = true) {v : JsValue}
    (hnum : v.kind ≠ .num) (hstr : v.kind ≠ .str) : ∃ e, fromJsonScalar v dataType = .error e := by
  simp only [fromJsonScalar, hfloat, if_true]
  cases v with
  | num a => exact absurd rfl hnum
  | str k => exact absurd rfl hstr
  | _ => exact ⟨_, rfl⟩

/-- A leaf is read as an element if and only if it is the element of the leaf. -/
theorem readsAs_iff (hctor : hasTypedArray dataType = true) {leaf : JsTokens} :
    ReadsAs V dataType leaf w ↔ element? dataType leaf = some w := by
  rcases float_or_bool_or_integer hctor with hfloat | rfl | ⟨hfloat, hbool, range, hrange⟩
  · have hother : leaf.kind ≠ .num → leaf.kind ≠ .str → ¬ ReadsAs V dataType leaf w := by
      rintro hnum hstr ⟨v, hv, s, hs, -⟩
      rw [← Json.kind_traverse hv] at hnum hstr
      obtain ⟨e, he⟩ := fromJsonScalar_float_other hfloat hnum hstr
      rw [he] at hs
      cases hs
    have hnone : dataType ≠ .bool := by
      rintro rfl
      cases hfloat
    cases leaf with
    | num t => exact readsAs_num_float hctor hfloat
    | str k =>
        have hstr : ReadsAs V dataType (.str k) w ↔
            ∃ s, fromJsonScalar (.str k) dataType = .ok s ∧ storeElement V dataType s = .ok w := by
          constructor
          · rintro ⟨v, hv, h⟩
            cases hv
            exact h
          · exact fun h => ⟨_, rfl, h⟩
        rw [hstr, element?, if_pos hfloat, Option.map_eq_some_iff]
        simp only [fromJsonScalar_str_float hfloat]
        constructor
        · rintro ⟨s, ⟨x, hx, rfl⟩, hw⟩
          rw [storeElement_float hctor hfloat, rounded_nonFinite hx] at hw
          exact ⟨x, hx, Except.ok.inj hw⟩
        · rintro ⟨x, hx, rfl⟩
          refine ⟨_, ⟨x, hx, rfl⟩, ?_⟩
          rw [storeElement_float hctor hfloat, rounded_nonFinite hx]
    | bool b =>
        rw [element?, if_neg hnone]
        exact iff_of_false (hother Json.Kind.noConfusion Json.Kind.noConfusion) (Option.some_ne_none w).symm
    | _ => exact iff_of_false (hother Json.Kind.noConfusion Json.Kind.noConfusion) (Option.some_ne_none w).symm
  · have hread : ReadsAs V .bool leaf w ↔ ∃ b, leaf = .bool b ∧ w = .bool b := by
      constructor
      · rintro ⟨v, hv, s, hs, hw⟩
        obtain ⟨b, rfl, rfl⟩ := fromJsonScalar_bool.1 hs
        have hstore : storeElement V .bool (.bool b) = .ok (.bool b) := by
          rw [storeElement, V.boolArray_bool]
        rw [hstore] at hw
        have hkind := Json.kind_traverse hv
        cases leaf with
        | bool b' =>
            cases hv
            exact ⟨b, rfl, (Except.ok.inj hw).symm⟩
        | _ => cases hkind
      · rintro ⟨b, rfl, rfl⟩
        refine ⟨_, rfl, _, fromJsonScalar_bool.2 ⟨b, rfl, rfl⟩, ?_⟩
        rw [storeElement, V.boolArray_bool]
    rw [hread]
    cases leaf with
    | bool b =>
        show _ ↔ some (Json.bool b) = some w
        constructor
        · rintro ⟨b', hb, rfl⟩
          cases hb
          rfl
        · rintro ⟨⟩
          exact ⟨b, rfl, rfl⟩
    | _ =>
        refine iff_of_false ?_ (Option.some_ne_none w).symm
        rintro ⟨b, heq, -⟩
        cases heq
  · have hother : leaf.kind ≠ .num → ¬ ReadsAs V dataType leaf w := by
      rintro hnum ⟨v, hv, s, hs, -⟩
      obtain ⟨i, rfl, -, -⟩ := (fromJsonScalar_integer hfloat hbool hrange).1 hs
      exact hnum (Json.kind_traverse hv).symm
    cases leaf with
    | num t => exact readsAs_num_integer hfloat hbool hrange
    | str k =>
        rw [element?, if_neg (by rw [hfloat]; exact Bool.false_ne_true)]
        exact iff_of_false (hother Json.Kind.noConfusion) (Option.some_ne_none w).symm
    | bool b =>
        rw [element?, if_neg hbool]
        exact iff_of_false (hother Json.Kind.noConfusion) (Option.some_ne_none w).symm
    | _ => exact iff_of_false (hother Json.Kind.noConfusion) (Option.some_ne_none w).symm

end Reading

/-! ## Reading a chunk -/

/-- What is decoded, in terms of the tokens of the text. -/
theorem JsonSerializer.decode_eq_ok_iff_tokens (hctor : hasTypedArray dataType = true) :
    JsonSerializer.decode V dataType shape bytes = .ok chunk ↔
      ∃ text tree leaves data, utf8DecodeMarked bytes = .ok text ∧ jsonParse text = .ok tree ∧
        Json.flatten ChunkError.shape shape tree = .ok leaves ∧
        List.Forall₂ (fun leaf w => element? dataType leaf = some w) leaves data ∧
        chunk = ⟨data, shape, (cStrides shape).map Int.ofNat⟩ := by
  constructor
  · intro h
    obtain ⟨text, nested, flat, scalars, data, htext, hnested, hflat, hscalars, hdata, rfl⟩ := decode_eq_ok h
    obtain ⟨tree, htree, htraverse⟩ := Json.bind_eq_ok hnested
    obtain ⟨leaves, hleaves, hrevived⟩ := Json.exists_traverse_flatten_iff.1 ⟨nested, htraverse, hflat⟩
    have hstored := Json.forall₂_exists_iff.2 ⟨scalars, hscalars, (makeTypedArray_eq_ok.1 hdata).2⟩
    have hread := Json.forall₂_exists_iff.2 ⟨flat, hrevived, hstored⟩
    exact ⟨text, tree, leaves, data, htext, htree, hleaves,
      hread.imp fun leaf w h => (readsAs_iff hctor).1 h, rfl⟩
  · rintro ⟨text, tree, leaves, data, htext, htree, hleaves, hread, rfl⟩
    obtain ⟨flat, hrevived, hstored⟩ := Json.forall₂_exists_iff.1
      (hread.imp fun leaf w h => (readsAs_iff (V := V) hctor).2 h)
    obtain ⟨scalars, hscalars, hdata⟩ := Json.forall₂_exists_iff.1 hstored
    obtain ⟨nested, hnested, hflat⟩ := Json.exists_traverse_flatten_iff.2 ⟨leaves, hleaves, hrevived⟩
    have hparse : strictParse text ⟨true⟩ = .ok nested := by
      rw [strictParse, htree]
      exact hnested
    rw [JsonSerializer.decode, htext]
    show (do let nested ← ofDocument (strictParse text ⟨true⟩); _) = _
    rw [hparse]
    show (do let flat ← flatten nested shape; _) = _
    rw [flatten, hflat]
    show (do let scalars ← Json.sequence (flat.map fun v => fromJsonScalar v dataType); _) = _
    rw [Json.sequence_eq_ok.2 hscalars]
    show (do let data ← makeTypedArray V dataType scalars; _) = _
    rw [makeTypedArray_eq_ok.2 ⟨hctor, hdata⟩]
    rfl

/-! ## The byte order mark -/

/-- U+FEFF in UTF-8. -/
def byteOrderMark : Bytes := [0xEF, 0xBB, 0xBF]

/-- The bytes of a JSON text do not start with a byte order mark. -/
theorem utf8Encode_ne_marked {text : JsString} {tree : JsTokens} (h : jsonParse text = .ok tree)
    (hwell : Unicode.IsWellFormed text) (rest : Bytes) : utf8Encode text ≠ byteOrderMark ++ rest := by
  rw [jsonParse] at h
  split at h
  · next raw hraw =>
      cases hpoints : Unicode.codePoints text with
      | nil =>
          rw [hpoints] at hraw
          cases hraw
      | cons c cs =>
          rw [hpoints] at hraw
          have hc := Json.lt_of_parse_cons hraw
          rw [utf8Encode_of_isWellFormed hwell, hpoints, Unicode.encodeUtf8_cons, Unicode.encodeBytes, if_pos hc]
          intro heq
          have hmark := congrArg UInt8.toNat (List.cons.inj heq).1
          rw [UInt8.toNat_ofNat_of_lt' (hc.trans (by decide))] at hmark
          rw [hmark] at hc
          exact absurd hc (by decide)
  · cases h

/-- The decoder leaves out one byte order mark. -/
theorem utf8DecodeMarked_eq_ok_iff {text : JsString} {tree : JsTokens} (h : jsonParse text = .ok tree) :
    utf8DecodeMarked bytes = .ok text ↔ Unicode.IsWellFormed text ∧
      (bytes = utf8Encode text ∨ bytes = byteOrderMark ++ utf8Encode text) := by
  have hdecode : ∀ data, utf8Decode data = .ok text ↔ Unicode.IsWellFormed text ∧ data = utf8Encode text :=
    fun data => ⟨fun hok => ⟨(utf8Decode_eq_ok hok).1, (utf8Decode_eq_ok hok).2.symm⟩,
      fun hok => hok.2 ▸ utf8Decode_utf8Encode hok.1⟩
  rw [utf8DecodeMarked.eq_def]
  split
  · next rest =>
      rw [hdecode]
      refine and_congr_right fun hwell => ?_
      rw [or_iff_right fun heq => utf8Encode_ne_marked h hwell rest heq.symm]
      exact ⟨fun heq => congrArg (byteOrderMark ++ ·) heq, (List.append_right_inj byteOrderMark).1⟩
  · next hunmarked =>
      rw [hdecode]
      exact and_congr_right fun _ => (or_iff_left (hunmarked _)).symm

/-! ## The language of the codec -/

/-- The double that a token is read as is the nearest to what it writes, but for a negative
zero that is written as an integer. -/
theorem dropNegZero_nearest (t : NumberToken) :
    (nearest t).dropNegZero = (Double.ofToken t).dropNegZero := by
  rw [nearest]
  split
  · next hint =>
      by_cases hspelled : t.neg = true → Numeric.ofDigits t.int ≠ 0
      · conv_rhs => rw [NumberToken.eq_ofInt hint hspelled, ofToken_ofInt]
      · rw [Classical.not_imp, not_not] at hspelled
        obtain ⟨hneg, hzero⟩ := hspelled
        have hvalue : t.intValue = 0 := by
          rw [← Int.natAbs_eq_zero, NumberToken.natAbs_intValue, hzero]
        rw [Double.ofToken, NumberToken.magnitude_of_isInteger hint, hvalue, hneg]
        decide +kernel
  · rfl

/-- `decode` returns a chunk if and only if the bytes are those of a JSON text, after at most
one byte order mark, that is admissible leaves nested by the shape.  The elements of the chunk
are those of the leaves. -/
theorem JsonSerializer.decode_accepts (V : Conversions) (dataType : DataType)
    (hctor : hasTypedArray dataType = true) (shape : List ℕ) (bytes : Bytes) (chunk : Chunk) :
    JsonSerializer.decode V dataType shape bytes = .ok chunk ↔
      ∃ text tree leaves data, Unicode.IsWellFormed text ∧
        (bytes = utf8Encode text ∨ bytes = byteOrderMark ++ utf8Encode text) ∧
        jsonParse text = .ok tree ∧ Json.Nests shape tree leaves ∧
        List.Forall₂ (fun leaf w => element? dataType leaf = some w) leaves data ∧
        chunk = ⟨data, shape, (cStrides shape).map Int.ofNat⟩ := by
  rw [decode_eq_ok_iff_tokens hctor]
  constructor
  · rintro ⟨text, tree, leaves, data, htext, htree, hleaves, hread, rfl⟩
    obtain ⟨hwell, hbytes⟩ := (utf8DecodeMarked_eq_ok_iff htree).1 htext
    exact ⟨text, tree, leaves, data, hwell, hbytes, htree, Json.flatten_eq_ok_iff.1 hleaves, hread, rfl⟩
  · rintro ⟨text, tree, leaves, data, hwell, hbytes, htree, hleaves, hread, rfl⟩
    exact ⟨text, tree, leaves, data, (utf8DecodeMarked_eq_ok_iff htree).2 ⟨hwell, hbytes⟩, htree,
      Json.flatten_eq_ok_iff.2 hleaves, hread, rfl⟩

/-- A text of one chunk of `int8`. -/
theorem JsonSerializer.decode_accepts_int8 :
    ∃ chunk, JsonSerializer.decode plainConversions .int8 [1] [91, 49, 93] = .ok chunk ∧
      ∃ text tree leaves data, Unicode.IsWellFormed text ∧
        ([91, 49, 93] = utf8Encode text ∨ [91, 49, 93] = byteOrderMark ++ utf8Encode text) ∧
        jsonParse text = .ok tree ∧ Json.Nests [1] tree leaves ∧
        List.Forall₂ (fun leaf w => element? .int8 leaf = some w) leaves data ∧
        chunk = ⟨data, [1], (cStrides [1]).map Int.ofNat⟩ := by
  have hok : (JsonSerializer.decode plainConversions .int8 [1] [91, 49, 93]).toBool = true := by
    decide +kernel
  obtain ⟨chunk, hchunk⟩ := Json.exists_of_toBool hok
  exact ⟨chunk, hchunk, (JsonSerializer.decode_accepts plainConversions .int8 rfl [1] [91, 49, 93] chunk).1 hchunk⟩

/-- A number between two `float32` numbers, a little nearer to the upper one. -/
def betweenFloats : JsString := js "1.000000059604644775390626"

/-- The number is read as the lower one, since the nearest double lies in the middle. -/
theorem JsonSerializer.decode_rounds_twice :
    ∃ chunk t, JsonSerializer.decode plainConversions .float32 [] (utf8Encode betweenFloats) = .ok chunk ∧
      jsonParse betweenFloats = .ok (.num t) ∧
      ∃ x y : Double, chunk.at [] = .num (.number x) ∧ y.fround = y ∧
        |y.toRat - t.magnitude| < |x.toRat - t.magnitude| := by
  have hdecode : (JsonSerializer.decode plainConversions .float32 []
      (utf8Encode betweenFloats)).toOption.any (fun chunk =>
        decide ((chunk.at []).num? = some (.number (Double.ofInt 1)))) = true := by decide +kernel
  have hparse : (jsonParse betweenFloats).toOption.any (fun tree => tree.num?.any fun t =>
      decide (|(Double.ofMagnitude false (1 + 1 / 2 ^ 23)).toRat - t.magnitude|
        < |(Double.ofInt 1).toRat - t.magnitude|)) = true := by decide +kernel
  obtain ⟨chunk, hchunk, hat⟩ := Json.exists_of_any_toOption hdecode
  obtain ⟨tree, htree, hnear⟩ := Json.exists_of_any_toOption hparse
  obtain ⟨t, ht, hcloser⟩ := (Option.any_eq_true _ _).1 hnear
  rw [Json.num?_eq_some_iff.1 ht] at htree
  refine ⟨chunk, t, hchunk, htree, Double.ofInt 1, Double.ofMagnitude false (1 + 1 / 2 ^ 23),
    Json.num?_eq_some_iff.1 (of_decide_eq_true hat), ?_, of_decide_eq_true hcloser⟩
  decide +kernel

end TypeScript
