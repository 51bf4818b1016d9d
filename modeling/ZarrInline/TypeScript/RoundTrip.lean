import ZarrInline.TypeScript.Elements
import ZarrInline.TypeScript.Payload

/-!
# Chunks that are encoded and decoded

`JsonSerializer.encode` nests the scalars of a chunk by its shape and writes canonical text.
The tokens of the text are nested by the same shape (`nests_nest`), and each is admissible for
the data type: an integer is written with its digits, a finite double with digits that read
as the double (`element?_toJsonScalar`).  So decoding gives the elements back, with a zero in
the place of a negative zero.
-/

namespace TypeScript

open Numeric (Double NumberToken)

variable {V : Conversions} {dataType : DataType} {shape : List ℕ} {chunk : Chunk} {v : JsValue}

/-! ## Nesting -/

section Nesting

variable {σ ν : Type} {flat : List JsValue}

/-- Slices as long as the levels below. -/
theorem length_of_mem_slices_nest {d : ℕ} (hlen : flat.length = (d :: shape).prod) {s : List JsValue}
    (hs : s ∈ Json.slices (flat.length / d) d flat) : s.length = shape.prod := by
  have hd : d ≠ 0 := by
    rintro rfl
    cases hs
  obtain ⟨hdiv, hmul⟩ := Json.div_extent hd hlen
  rw [hdiv] at hs
  exact Json.length_of_mem_slices hmul hs

theorem flatten_slices_nest {d : ℕ} (hlen : flat.length = (d :: shape).prod) :
    (Json.slices (flat.length / d) d flat).flatten = flat := by
  refine Json.flatten_slices (Nat.mul_div_cancel' ?_).symm
  rw [hlen, List.prod_cons]
  exact Nat.dvd_mul_right d _

/-- What is nested has the shape, and so has what its strings and atoms are made. -/
theorem nests_nest (f : JsString → σ) (g : JsAtom → ν) (hlen : flat.length = shape.prod) :
    Json.Nests shape ((nest shape flat).map f g) (flat.map (Json.map f g)) := by
  induction shape generalizing flat with
  | nil =>
      obtain ⟨v, rfl⟩ := List.length_eq_one_iff.1 hlen
      rfl
  | cons d shape ih =>
      cases shape with
      | nil =>
          refine ⟨flat.map (Json.map f g), flat.map fun v => [v.map f g], Json.map_arr f g flat, ?_, ?_, ?_⟩
          · rw [List.length_map, hlen, List.prod_cons, List.prod_nil, mul_one]
          · rw [List.forall₂_map_left_iff, List.forall₂_map_right_iff]
            exact List.forall₂_same.2 fun v _ => rfl
          · exact List.map_eq_flatMap
      | cons e rest =>
          refine ⟨(Json.slices (flat.length / d) d flat).map fun s => (nest (e :: rest) s).map f g,
            (Json.slices (flat.length / d) d flat).map (List.map (Json.map f g)), ?_, ?_, ?_, ?_⟩
          · rw [nest, Json.map_arr, List.map_map]
            rfl
          · rw [List.length_map, Json.length_slices]
          · rw [List.forall₂_map_left_iff, List.forall₂_map_right_iff]
            exact List.forall₂_same.2 fun s hs => ih (length_of_mem_slices_nest hlen hs)
          · rw [← List.map_flatten, flatten_slices_nest hlen]

theorem isJson_nest (hlen : flat.length = shape.prod) (h : ∀ v ∈ flat, IsJson v) :
    IsJson (nest shape flat) := by
  induction shape generalizing flat with
  | nil =>
      obtain ⟨v, rfl⟩ := List.length_eq_one_iff.1 hlen
      exact h v List.mem_cons_self
  | cons d shape ih =>
      cases shape with
      | nil => exact (Json.every_arr flat).2 h
      | cons e rest =>
          refine (Json.every_arr _).2 fun w hw => ?_
          obtain ⟨s, hs, rfl⟩ := List.mem_map.1 hw
          refine ih (length_of_mem_slices_nest hlen hs) fun v hv => h v ?_
          rw [← flatten_slices_nest hlen]
          exact List.mem_flatten.2 ⟨s, hs, hv⟩

end Nesting

/-! ## What is stored -/

theorem wrap_signed_range (n : ℕ) (i : ℤ) : -(2 ^ n) ≤ wrap true (n + 1) i ∧ wrap true (n + 1) i < 2 ^ n := by
  have hpos : (0 : ℤ) < 2 ^ n := by positivity
  have hcast : ((2 ^ (n + 1) : ℕ) : ℤ) = 2 * 2 ^ n := by
    push_cast
    ring
  have hlo := @Int.le_bmod i (2 ^ (n + 1)) (by positivity)
  have hhi := @Int.bmod_lt i (2 ^ (n + 1)) (by positivity)
  rw [hcast] at hlo hhi
  rw [wrap, if_pos rfl]
  omega

theorem wrap_unsigned_range (n : ℕ) (i : ℤ) : 0 ≤ wrap false n i ∧ wrap false n i < 2 ^ n := by
  have hpos : (0 : ℤ) < 2 ^ n := by positivity
  exact ⟨Int.emod_nonneg i hpos.ne', Int.emod_lt_of_pos i hpos⟩

theorem storeInteger_eq_ok {signed : Bool} {n : ℕ} {w : JsValue} (h : storeInteger V signed n v = .ok w) :
    ∃ i, w = .num (.number (Double.ofInt (wrap signed n i))) := by
  obtain ⟨x, -, rfl⟩ := Json.exists_of_map_eq_ok h
  exact ⟨_, rfl⟩

theorem storeBigint_eq_ok {signed : Bool} {w : JsValue} (h : storeBigint V signed v = .ok w) :
    ∃ i, w = .num (.bigint (wrap signed 64 i)) := by
  obtain ⟨i, -, rfl⟩ := Json.exists_of_map_eq_ok h
  exact ⟨_, rfl⟩

/-- An element of a type of integers is within its range. -/
theorem IsStored.integer {range : ℤ × ℤ} (hrange : integerRange? dataType = some range)
    (h : IsStored V dataType v) : ∃ i, v = integerElement dataType i ∧ range.1 ≤ i ∧ i ≤ range.2 := by
  cases dataType with
  | int8 =>
      cases hrange
      obtain ⟨i, rfl⟩ := storeInteger_eq_ok h
      exact ⟨_, rfl, (wrap_signed_range 7 i).1, Int.le_sub_one_of_lt (wrap_signed_range 7 i).2⟩
  | int16 =>
      cases hrange
      obtain ⟨i, rfl⟩ := storeInteger_eq_ok h
      exact ⟨_, rfl, (wrap_signed_range 15 i).1, Int.le_sub_one_of_lt (wrap_signed_range 15 i).2⟩
  | int32 =>
      cases hrange
      obtain ⟨i, rfl⟩ := storeInteger_eq_ok h
      exact ⟨_, rfl, (wrap_signed_range 31 i).1, Int.le_sub_one_of_lt (wrap_signed_range 31 i).2⟩
  | int64 =>
      cases hrange
      obtain ⟨i, rfl⟩ := storeBigint_eq_ok h
      exact ⟨_, rfl, (wrap_signed_range 63 i).1, Int.le_sub_one_of_lt (wrap_signed_range 63 i).2⟩
  | uint8 =>
      cases hrange
      obtain ⟨i, rfl⟩ := storeInteger_eq_ok h
      exact ⟨_, rfl, (wrap_unsigned_range 8 i).1, Int.le_sub_one_of_lt (wrap_unsigned_range 8 i).2⟩
  | uint16 =>
      cases hrange
      obtain ⟨i, rfl⟩ := storeInteger_eq_ok h
      exact ⟨_, rfl, (wrap_unsigned_range 16 i).1, Int.le_sub_one_of_lt (wrap_unsigned_range 16 i).2⟩
  | uint32 =>
      cases hrange
      obtain ⟨i, rfl⟩ := storeInteger_eq_ok h
      exact ⟨_, rfl, (wrap_unsigned_range 32 i).1, Int.le_sub_one_of_lt (wrap_unsigned_range 32 i).2⟩
  | uint64 =>
      cases hrange
      obtain ⟨i, rfl⟩ := storeBigint_eq_ok h
      exact ⟨_, rfl, (wrap_unsigned_range 64 i).1, Int.le_sub_one_of_lt (wrap_unsigned_range 64 i).2⟩
  | _ => cases hrange

/-- An element of a float type is rounded to the type. -/
theorem IsStored.float (hctor : hasTypedArray dataType = true) (hfloat : isFloatType dataType = true)
    (h : IsStored V dataType v) : ∃ x, v = .num (.number x) ∧ rounded dataType x = x := by
  have hnumber : ∃ x, v = .num (.number x) := by
    cases dataType with
    | float32 =>
        obtain ⟨x, -, rfl⟩ := Json.exists_of_map_eq_ok h
        exact ⟨_, rfl⟩
    | float64 =>
        obtain ⟨x, -, rfl⟩ := Json.exists_of_map_eq_ok h
        exact ⟨_, rfl⟩
    | float16 => cases hctor
    | _ => cases hfloat
  obtain ⟨x, rfl⟩ := hnumber
  refine ⟨x, rfl, ?_⟩
  rw [IsStored, storeElement_float hctor hfloat] at h
  have hnum := Json.num.inj (Except.ok.inj h)
  exact JsAtom.number.inj hnum

/-! ## Scalars -/

theorem dropNegZero_ofInt {i : ℤ} (h : i.natAbs < 2 ^ 53) : (Double.ofInt i).dropNegZero = Double.ofInt i := by
  have hfinite : (Double.ofInt i).IsFinite := isFinite_of_isSafeInteger ((isSafeInteger_ofInt i).2 h)
  rw [← Double.ofToken_toToken hfinite, Double.toToken_ofInt h, ofToken_ofInt]

/-- The digits of a double read as the double. -/
theorem nearest_toToken {x : Double} (h : x.IsFinite) : nearest x.toToken = x.dropNegZero := by
  rw [nearest]
  split
  · next hint => rw [← ofToken_ofInt, ← Double.toToken_eq_ofInt hint, Double.ofToken_toToken h]
  · exact Double.ofToken_toToken h

theorem rounded_dropNegZero {x : Double} (h : rounded dataType x = x) :
    rounded dataType x.dropNegZero = x.dropNegZero := by
  rw [rounded] at h ⊢
  split
  · next hfloat =>
      rw [if_pos hfloat] at h
      cases x with
      | finite neg u hu =>
          rw [Double.dropNegZero]
          split
          · next hzero =>
              subst hzero
              have hofInt : Double.ofInt ((0 : ℕ) : ℤ) = .finite false 0 hu :=
                (Double.ofInt_eq_finite (by norm_num)).trans (Double.finite_congr (Nat.zero_mul _) _ hu)
              rw [← hofInt]
              decide +kernel
          · exact h
      | _ => rfl
  · rfl

theorem toJsonScalar_number {x : Double} (h : x.IsFinite) :
    toJsonScalar (.num (.number x)) dataType = .ok (.num (.number x)) := by
  cases x with
  | finite neg u hu => rfl
  | _ => cases h

theorem natAbs_lt_of_intRange {range : ℤ × ℤ} {i : ℤ} (hrange : intRange? dataType = some range)
    (hi : range.1 ≤ i ∧ i ≤ range.2) : i.natAbs < 2 ^ 53 := by
  have hbounds : -(2 ^ 53 - 1) ≤ range.1 ∧ range.2 ≤ 2 ^ 53 - 1 := by
    cases dataType <;> cases hrange <;> decide
  omega

/-- An integer that is kept is no negative zero. -/
theorem map_integerElement {range : ℤ × ℤ} {i : ℤ} (hrange : integerRange? dataType = some range)
    (hi : range.1 ≤ i ∧ i ≤ range.2) :
    (integerElement dataType i).map id JsAtom.dropNegZero = integerElement dataType i := by
  rw [integerRange?] at hrange
  rw [integerElement]
  split
  · rfl
  · next hbig =>
      rw [if_neg hbig] at hrange
      show Json.num (JsAtom.number (Double.ofInt i).dropNegZero) = _
      rw [dropNegZero_ofInt (natAbs_lt_of_intRange hrange hi)]

/-- A scalar is written as a token that is admissible for its data type, and whose element it is. -/
theorem exists_toJsonScalar (hctor : hasTypedArray dataType = true) (h : IsStored V dataType v) :
    ∃ s, toJsonScalar v dataType = .ok s ∧ IsJson s ∧
      element? dataType (s.map id atomToken) = some (v.map id JsAtom.dropNegZero) := by
  rcases float_or_bool_or_integer hctor with hfloat | rfl | ⟨hfloat, hbool, range, hrange⟩
  · obtain ⟨x, rfl, hrounded⟩ := h.float hctor hfloat
    have hstr : ∀ k, nonFinite? k = some x → Unicode.IsWellFormed k → x.dropNegZero = x →
        IsJson (.str k) ∧ element? dataType (.str k) = some (.num (.number x.dropNegZero)) := by
      intro k hk hwell hdrop
      refine ⟨(Json.every_str k).2 hwell, ?_⟩
      rw [element?, if_pos hfloat, hk, hdrop]
      rfl
    cases x with
    | nan => exact ⟨_, rfl, hstr (js "NaN") rfl (by decide) rfl⟩
    | infinity neg =>
        cases neg with
        | false => exact ⟨_, rfl, hstr (js "Infinity") rfl (by decide) rfl⟩
        | true => exact ⟨_, rfl, hstr (js "-Infinity") rfl (by decide) rfl⟩
    | finite neg u hu =>
        have hfinite : (Double.finite neg u hu).IsFinite := trivial
        refine ⟨_, rfl, (Json.every_num _).2 hfinite, ?_⟩
        show numberElement? dataType (Double.finite neg u hu).toToken = _
        rw [numberElement?, if_pos hfloat, nearest_toToken hfinite, rounded_dropNegZero hrounded,
          if_pos (Double.isFinite_dropNegZero.2 hfinite)]
        rfl
  · have hvalue : ∃ b, v = .bool b := ⟨V.boolArray v, (Except.ok.inj h).symm⟩
    obtain ⟨b, rfl⟩ := hvalue
    exact ⟨_, rfl, Json.every_bool b, rfl⟩
  · obtain ⟨i, rfl, hi⟩ := h.integer hrange
    have hread : numberElement? dataType (.ofInt i) = some (integerElement dataType i) := by
      simp only [numberElement?, hfloat, hrange, Bool.false_eq_true, if_false, NumberToken.isInteger_ofInt,
        NumberToken.intValue_ofInt, true_and, if_pos hi]
    have hnumber : i.natAbs < 2 ^ 53 → ∃ s, toJsonScalar (.num (.number (Double.ofInt i))) dataType = .ok s ∧
        IsJson s ∧ element? dataType (s.map id atomToken) = some (integerElement dataType i) := by
      intro hsafe
      have hfinite := isFinite_of_isSafeInteger ((isSafeInteger_ofInt i).2 hsafe)
      refine ⟨_, toJsonScalar_number hfinite, (Json.every_num _).2 hfinite, ?_⟩
      show numberElement? dataType (Double.ofInt i).toToken = _
      rw [Double.toToken_ofInt hsafe, hread]
    rw [map_integerElement hrange hi]
    by_cases hbig : isBigintType dataType = true
    · have hvalue : integerElement dataType i = .num (.bigint i) := by
        rw [integerElement, if_pos hbig]
      rw [hvalue, toJsonScalar]
      split
      · exact ⟨_, rfl, (Json.every_num _).2 trivial, hread.trans (congrArg some hvalue)⟩
      · next hsafe =>
          obtain ⟨s, hs, hjson, helement⟩ := hnumber (by rw [maxSafeInteger] at hsafe; omega)
          rw [toJsonScalar_number (isFinite_of_isSafeInteger ((isSafeInteger_ofInt i).2
            (by rw [maxSafeInteger] at hsafe; omega)))] at hs
          exact ⟨s, hs, hjson, hvalue ▸ helement⟩
    · have hvalue : integerElement dataType i = .num (.number (Double.ofInt i)) := by
        rw [integerElement, if_neg hbig]
      rw [integerRange?, if_neg hbig] at hrange
      rw [hvalue]
      exact hvalue ▸ hnumber (natAbs_lt_of_intRange hrange hi)

/-! ## The round trip -/

/-- A chunk of elements of the data type, whose strides address its data. -/
structure Chunk.IsAddressed (V : Conversions) (dataType : DataType) (chunk : Chunk) : Prop where
  rank : chunk.stride.length = chunk.shape.length
  inside : ∀ x, Grid.Within chunk.shape x →
    0 ≤ address x chunk.stride ∧ address x chunk.stride < chunk.data.length
  stored : ∀ v ∈ chunk.data, IsStored V dataType v

theorem Chunk.IsAddressed.at (h : chunk.IsAddressed V dataType) {x : List ℕ} (hx : Grid.Within chunk.shape x) :
    IsStored V dataType (chunk.at x) := by
  obtain ⟨hlo, hhi⟩ := h.inside x hx
  obtain ⟨i, hi⟩ := Int.eq_ofNat_of_zero_le hlo
  rw [hi] at hhi
  rw [Chunk.at, hi]
  exact h.stored _ (List.mem_of_getElem? (elementAt_of_lt (Int.ofNat_lt.1 hhi)))

/-- The text of a chunk, and its tokens. -/
theorem exists_encode (hctor : hasTypedArray dataType = true) (hlength : chunk.shape.prod ≤ maxArrayLength)
    (h : chunk.IsAddressed V dataType) :
    ∃ text tree leaves, JsonSerializer.encode dataType chunk = .ok (utf8Encode text) ∧
      Unicode.IsWellFormed text ∧ jsonParse text = .ok tree ∧ Json.Nests chunk.shape tree leaves ∧
      List.Forall₂ (fun leaf w => element? dataType leaf = some w) leaves
        (Grid.tabulate chunk.shape fun x => (chunk.at x).map id JsAtom.dropNegZero) := by
  have hstored : ∀ v ∈ Grid.tabulate chunk.shape chunk.at, IsStored V dataType v := by
    intro v hv
    obtain ⟨i, hi, rfl⟩ := List.mem_map.1 hv
    exact h.at (Grid.within_unravel (List.mem_range.1 hi))
  obtain ⟨flat, hflat⟩ := Json.exists_forall₂ fun v hv => exists_toJsonScalar hctor (hstored v hv)
  have hlen : flat.length = chunk.shape.prod := hflat.length_eq.symm.trans Grid.length_tabulate
  have hscalars : Json.sequence ((Grid.tabulate chunk.shape chunk.at).map fun v => toJsonScalar v dataType)
      = .ok flat := Json.sequence_eq_ok.2 (hflat.imp fun v s h => h.1)
  have hjson : ∀ s ∈ flat, IsJson s := by
    intro s hs
    obtain ⟨i, hi, rfl⟩ := List.getElem_of_mem hs
    exact ((List.forall₂_iff_get.1 hflat).2 i (hflat.length_eq ▸ hi) hi).2.1
  have hnest := isJson_nest hlen hjson
  have hcanonical : (nest chunk.shape flat).Every Unicode.IsWellFormed JsAtom.IsCanonical fun _ => True :=
    hnest.imp (fun _ => id) (fun _ => id) fun _ _ => trivial
  have htext := canonicalStringify_eq_ok_iff.2 ⟨hcanonical, rfl⟩
  refine ⟨_, _, _, ?_, Unicode.isWellFormed_encodeUtf16 (isScalar_canonicalTree hcanonical),
    jsonParse_canonicalStringify hnest htext, nests_nest id atomToken hlen, ?_⟩
  · rw [JsonSerializer.encode, chunkElements_eq hlength]
    show (do let flat ← Json.sequence ((Grid.tabulate chunk.shape chunk.at).map
      fun v => toJsonScalar v dataType); _) = _
    rw [hscalars]
    show (do let text ← ofDocument (canonicalStringify (nest chunk.shape flat)); _) = _
    rw [htext]
    rfl
  · have hmap : Grid.tabulate chunk.shape (fun x => (chunk.at x).map id JsAtom.dropNegZero)
        = (Grid.tabulate chunk.shape chunk.at).map (Json.map id JsAtom.dropNegZero) := (List.map_map ..).symm
    rw [hmap, List.forall₂_map_left_iff, List.forall₂_map_right_iff]
    exact (hflat.imp fun v s h => h.2.2).flip

/-- Two columns of two elements, the first axis fastest. -/
def columns : Chunk := ⟨[1, 2, 3, 4].map (integerElement .int8), [2, 2], [1, 2]⟩

end TypeScript
