import ZarrInline.Json.Results
import ZarrInline.TypeScript.Serializer

/-!
# The elements of a chunk

`chunkElements` walks over a chunk with an odometer and reads each element at its strides,
so it gives the elements in row-major order (`chunkElements_eq`).  What was read of a typed
array can be stored in one again and stays the same (`storeElement_idem`).
-/

namespace TypeScript

open Numeric (Double)

variable {V : Conversions} {dataType : DataType} {shape : List ℕ} {chunk : Chunk} {v w : JsValue}

/-! ## Reading -/

/-- The element at a coordinate. -/
def Chunk.at (chunk : Chunk) (x : List ℕ) : JsValue := elementAt chunk.data (address x chunk.stride)

theorem cStrides_eq (shape : List ℕ) : cStrides shape = Grid.strides shape := by
  have hfold : shape.foldr (fun extent acc => (acc.2 :: acc.1, acc.2 * extent)) (([], 1) : List ℕ × ℕ)
      = (Grid.strides shape, shape.prod) := by
    induction shape with
    | nil => rfl
    | cons d shape ih => rw [List.foldr_cons, ih, Grid.strides, List.prod_cons, Nat.mul_comm]
  rw [cStrides, hfold]

theorem address_ofNat (x stride : List ℕ) : address x (stride.map Int.ofNat) = (Grid.dot x stride : ℕ) := by
  rw [address, Grid.dot, List.zipWith_map_right]
  induction x generalizing stride with
  | nil => rfl
  | cons i x ih =>
      cases stride with
      | nil => rfl
      | cons s stride =>
          rw [List.zipWith_cons_cons, List.zipWith_cons_cons, List.sum_cons, List.sum_cons, ih, Nat.cast_add,
            Nat.cast_mul]
          rfl

theorem walk_eq (chunk : Chunk) {n i : ℕ} (h : i + n ≤ chunk.shape.prod) :
    walk chunk n (Grid.unravel chunk.shape i)
      = (List.range n).map fun k => chunk.at (Grid.unravel chunk.shape (i + k)) := by
  induction n generalizing i with
  | zero => rfl
  | succ n ih =>
      rw [walk, List.range_succ_eq_map, List.map_cons, List.map_map]
      refine congrArg₂ _ rfl ?_
      cases n with
      | zero => rfl
      | succ n =>
          rw [Grid.advance_unravel (by omega), ih (by omega)]
          refine List.map_congr_left fun k _ => ?_
          rw [Function.comp_apply, Nat.succ_add_eq_add_succ]

/-- The elements of a chunk, in row-major order. -/
theorem chunkElements_eq (h : chunk.shape.prod ≤ maxArrayLength) :
    chunkElements chunk = .ok (Grid.tabulate chunk.shape chunk.at) := by
  have hwalk := walk_eq chunk (n := chunk.shape.prod) (i := 0) (Nat.zero_add _).le
  rw [Grid.unravel_zero] at hwalk
  rw [chunkElements, if_neg h.not_gt, hwalk]
  simp only [Nat.zero_add, Grid.tabulate]

/-- A chunk whose elements stand in row-major order. -/
structure Chunk.IsPlain (chunk : Chunk) : Prop where
  stride : chunk.stride = (cStrides chunk.shape).map Int.ofNat
  length : chunk.data.length = chunk.shape.prod

theorem Chunk.IsPlain.at_eq (h : chunk.IsPlain) (x : List ℕ) :
    chunk.at x = elementAt chunk.data (Grid.ravel chunk.shape x : ℕ) := by
  rw [Chunk.at, h.stride, address_ofNat, cStrides_eq, Grid.ravel]

theorem elementAt_of_lt {data : List JsValue} {i : ℕ} (h : i < data.length) :
    data[i]? = some (elementAt data i) := by
  show data[i]? = some (data[i]?.getD _)
  rw [List.getElem?_eq_getElem h, Option.getD_some]

/-- The elements of an array, in row-major order. -/
theorem Chunk.at_tabulate {f : List ℕ → JsValue} {x : List ℕ} (hx : Grid.Within shape x) :
    (Chunk.mk (Grid.tabulate shape f) shape ((cStrides shape).map Int.ofNat)).at x = f x := by
  have hplain : Chunk.IsPlain ⟨Grid.tabulate shape f, shape, (cStrides shape).map Int.ofNat⟩ :=
    ⟨rfl, Grid.length_tabulate⟩
  have hget := Grid.getElem?_tabulate_ravel (f := f) hx
  rw [elementAt_of_lt (Grid.length_tabulate ▸ Grid.ravel_lt hx)] at hget
  rw [hplain.at_eq]
  exact Option.some.inj hget

theorem Chunk.IsPlain.chunkElements_eq (h : chunk.IsPlain) (hsize : chunk.shape.prod ≤ maxArrayLength) :
    chunkElements chunk = .ok chunk.data := by
  rw [TypeScript.chunkElements_eq hsize]
  refine congrArg _ (List.ext_getElem? fun i => ?_)
  by_cases hi : i < chunk.shape.prod
  · rw [Grid.getElem?_tabulate hi, h.at_eq, Grid.ravel_unravel hi,
      elementAt_of_lt (by rw [h.length]; exact hi)]
  · rw [List.getElem?_eq_none (by rw [Grid.length_tabulate]; omega),
      List.getElem?_eq_none (by rw [h.length]; omega)]

/-! ## Storing -/

theorem truncate_ofInt {i : ℤ} (h : i.natAbs < 2 ^ 53) : truncate (Double.ofInt i) = i := by
  rw [Double.ofInt, Double.ofMagnitude_natCast _ h, truncate]
  rw [Nat.mul_div_cancel _ Numeric.scale_pos]
  split
  · next hneg =>
      have := of_decide_eq_true hneg
      omega
  · next hneg =>
      have := of_decide_eq_false (Bool.not_eq_true _ ▸ hneg)
      omega

theorem wrap_wrap (signed : Bool) (n : ℕ) (i : ℤ) : wrap signed n (wrap signed n i) = wrap signed n i := by
  rw [wrap, wrap]
  split
  · exact Int.bmod_bmod
  · exact Int.emod_emod_of_dvd i dvd_rfl

theorem natAbs_wrap_lt {signed : Bool} {n : ℕ} (hn : n ≤ 32) (i : ℤ) :
    (wrap signed n i).natAbs < 2 ^ 53 := by
  have hpow : (2 : ℤ) ^ n ≤ 2 ^ 32 := pow_le_pow_right₀ (by norm_num) hn
  have hpos : (0 : ℤ) < 2 ^ n := by positivity
  have hcast : ((2 ^ n : ℕ) : ℤ) = 2 ^ n := by norm_cast
  rw [wrap]
  split
  · have hlt := @Int.bmod_lt i (2 ^ n) (by positivity)
    have hle := @Int.le_bmod i (2 ^ n) (by positivity)
    rw [hcast] at hlt hle
    omega
  · have hlt := Int.emod_lt_of_pos i hpos
    have hge := Int.emod_nonneg i hpos.ne'
    omega

theorem fround_fround (x : Double) : x.fround.fround = x.fround := by
  cases x with
  | nan => rfl
  | infinity neg => rfl
  | finite neg u hu =>
      rw [Double.fround]
      split
      · next h =>
          have hround : Numeric.binary32.round (Numeric.binary32.round (u : ℚ) : ℚ)
              = Numeric.binary32.round u :=
            Numeric.FloatFormat.round_natCast (Numeric.FloatFormat.onGrid_round _)
          rw [Double.fround]
          simp only [hround]
          rw [dif_pos h]
      · rfl

/-- What was read of a typed array is stored as it is. -/
theorem storeElement_idem (h : storeElement V dataType v = .ok w) : storeElement V dataType w = .ok w := by
  have hinteger : ∀ signed n, n ≤ 32 → storeInteger V signed n v = .ok w →
      storeInteger V signed n w = .ok w := by
    intro signed n hn h
    obtain ⟨x, -, rfl⟩ := Json.exists_of_map_eq_ok h
    show Except.ok (Json.num (JsAtom.number (Double.ofInt
      (wrap signed n (truncate (Double.ofInt (wrap signed n (truncate x)))))))) = _
    rw [truncate_ofInt (natAbs_wrap_lt hn _), wrap_wrap]
  have hbigint : ∀ signed, storeBigint V signed v = .ok w → storeBigint V signed w = .ok w := by
    intro signed h
    obtain ⟨i, -, rfl⟩ := Json.exists_of_map_eq_ok h
    show Except.ok (Json.num (JsAtom.bigint (wrap signed 64 (wrap signed 64 i)))) = _
    rw [wrap_wrap]
  cases dataType with
  | bool =>
      cases h
      rw [storeElement, V.boolArray_bool]
  | int8 => exact hinteger true 8 (by decide) h
  | int16 => exact hinteger true 16 (by decide) h
  | int32 => exact hinteger true 32 (by decide) h
  | uint8 => exact hinteger false 8 (by decide) h
  | uint16 => exact hinteger false 16 (by decide) h
  | uint32 => exact hinteger false 32 (by decide) h
  | int64 => exact hbigint true h
  | uint64 => exact hbigint false h
  | float32 =>
      obtain ⟨x, -, rfl⟩ := Json.exists_of_map_eq_ok h
      show Except.ok (Json.num (JsAtom.number x.fround.fround)) = _
      rw [fround_fround]
  | float64 =>
      obtain ⟨x, -, rfl⟩ := Json.exists_of_map_eq_ok h
      rfl
  | float16 => cases h
  | other name => cases h

/-- A typed array of values that can be stored in it. -/
theorem makeTypedArray_eq_ok {scalars data : List JsValue} : makeTypedArray V dataType scalars = .ok data ↔
    hasTypedArray dataType = true ∧
      List.Forall₂ (fun v w => storeElement V dataType v = .ok w) scalars data := by
  rw [makeTypedArray]
  split
  · next hctor => rw [Json.sequence_eq_ok, and_iff_right hctor]
  · next hctor =>
      refine iff_of_false (fun h => ?_) fun h => hctor h.1
      cases h

/-- What is kept in a typed array. -/
def IsStored (V : Conversions) (dataType : DataType) (v : JsValue) : Prop := storeElement V dataType v = .ok v

theorem isStored_of_makeTypedArray {scalars data : List JsValue}
    (h : makeTypedArray V dataType scalars = .ok data) : ∀ v ∈ data, IsStored V dataType v := by
  obtain ⟨-, hall⟩ := makeTypedArray_eq_ok.1 h
  intro v hv
  obtain ⟨i, hi, rfl⟩ := List.getElem_of_mem hv
  exact storeElement_idem ((List.forall₂_iff_get.1 hall).2 i (hall.length_eq ▸ hi) hi)

/-- Conversions for which strings, arrays and objects are no numbers. -/
def plainConversions : Conversions where
  number := fun _ => .nan
  bigint := fun _ => none
  boolArray := fun v =>
    match v with
    | .bool b => b
    | _ => false
  boolArray_bool := fun _ => rfl

/-! ## Decoding -/

/-- What a decoder returns: a chunk of the shape in row-major order, of elements of the data
type. -/
structure Chunk.IsDecoded (V : Conversions) (dataType : DataType) (shape : List ℕ) (chunk : Chunk) :
    Prop where
  shape_eq : chunk.shape = shape
  plain : chunk.IsPlain
  stored : ∀ v ∈ chunk.data, IsStored V dataType v

theorem ofDocument_eq_ok {α : Type} {x : Except JsError α} {a : α} (h : ofDocument x = .ok a) : x = .ok a := by
  cases x with
  | error e => cases h
  | ok b => exact congrArg _ (Except.ok.inj h)

/-- What the codec decodes. -/
theorem JsonSerializer.decode_eq_ok {bytes : Bytes} (h : JsonSerializer.decode V dataType shape bytes = .ok chunk) :
    ∃ text nested flat scalars data, utf8DecodeMarked bytes = .ok text ∧
      strictParse text ⟨true⟩ = .ok nested ∧ flatten nested shape = .ok flat ∧
      List.Forall₂ (fun v w => fromJsonScalar v dataType = .ok w) flat scalars ∧
      makeTypedArray V dataType scalars = .ok data ∧
      chunk = ⟨data, shape, (cStrides shape).map Int.ofNat⟩ := by
  rw [JsonSerializer.decode] at h
  obtain ⟨text, htext, h⟩ := Json.bind_eq_ok h
  obtain ⟨nested, hnested, h⟩ := Json.bind_eq_ok h
  obtain ⟨flat, hflat, h⟩ := Json.bind_eq_ok h
  obtain ⟨scalars, hscalars, h⟩ := Json.bind_eq_ok h
  obtain ⟨data, hdata, h⟩ := Json.bind_eq_ok h
  exact ⟨text, nested, flat, scalars, data, ofDocument_eq_ok htext, ofDocument_eq_ok hnested, hflat,
    Json.sequence_eq_ok.1 hscalars, hdata, (Except.ok.inj h).symm⟩

theorem JsonSerializer.isDecoded {bytes : Bytes} (h : JsonSerializer.decode V dataType shape bytes = .ok chunk) :
    chunk.IsDecoded V dataType shape := by
  obtain ⟨text, nested, flat, scalars, data, -, -, hflat, hscalars, hdata, rfl⟩ := decode_eq_ok h
  have hlength : data.length = shape.prod := by
    rw [← (makeTypedArray_eq_ok.1 hdata).2.length_eq, ← hscalars.length_eq]
    exact Json.length_of_flatten hflat
  exact ⟨rfl, ⟨rfl, hlength⟩, isStored_of_makeTypedArray hdata⟩

end TypeScript
