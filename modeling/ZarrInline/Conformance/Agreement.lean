import ZarrInline.Conformance.Naming

/-!
# What the crosscheck harnesses agree on

The regions of a trace, and with the integers and shard shapes of `Conformance.Crosscheck`
and the names of `Conformance.Naming` the whole input contract: `harnesses_agree_iff`.
-/

namespace Conformance.Crosscheck

open Json (toOption_bind bind_bind_swap)
open Numeric (Text Double)

/-! ## Regions -/

/-- An axis of a region: the start and the size, and the extent of the array. -/
abbrev Axis := (ℤ × ℤ) × UInt64

/-- The region ends inside the array. -/
def Fits (a : Axis) : Prop := a.1.1 + a.1.2 ≤ a.2.toNat

/-- The region ends inside the array as far as the number of its extent says. -/
def FitsRounded (a : Axis) : Prop :=
  ((a.1.1 + a.1.2 : ℤ) : ℚ) ≤ (Double.ofInt (a.2.toNat : ℤ)).toRat

/-- The number of the end of the region is the end. -/
def HasExactStop (a : Axis) : Prop :=
  (Double.ofInt (a.1.1 + a.1.2)).toRat = ((a.1.1 + a.1.2 : ℤ) : ℚ)

instance : DecidablePred Fits := fun _ => inferInstanceAs (Decidable (_ ≤ _))
instance : DecidablePred FitsRounded := fun _ => inferInstanceAs (Decidable (_ ≤ _))
instance : DecidablePred HasExactStop := fun _ => inferInstanceAs (Decidable (_ = _))

section Regions

variable {ε α N : Type}

/-- A loop that stops at the first axis that does not fit. -/
theorem toOption_axes (loop : ℕ → List α → Except ε Unit) {fits : α → Prop} [DecidablePred fits]
    (hnil : ∀ n, loop n [] = .ok ())
    (hcons : ∀ n a as, (loop n (a :: as)).toOption =
      if fits a then (loop (n + 1) as).toOption else none) (n : ℕ) (as : List α) :
    (loop n as).toOption = if ∀ a ∈ as, fits a then some () else none := by
  induction as generalizing n with
  | nil =>
      rw [hnil, if_pos (by simp)]
      rfl
  | cons a as ih =>
      rw [hcons, ih]
      by_cases ha : fits a
      · rw [if_pos ha]
        exact if_congr (by simp [ha]) rfl rfl
      · rw [if_neg ha, if_neg fun h => ha (h a List.mem_cons_self)]

/-- A region is checked for its rank, then axis by axis. -/
theorem toOption_ranks {origin shape extents : List N} {fits : (N × N) × N → Prop}
    [DecidablePred fits] {check : Except ε Unit}
    (hcheck : check.toOption
      = if ∀ a ∈ (origin.zip shape).zip extents, fits a then some () else none) (e : ε) (r : α) :
    (if origin.length ≠ extents.length ∨ shape.length ≠ extents.length then .error e
      else do
        check
        return r : Except ε α).toOption
      = if (origin.length = extents.length ∧ shape.length = extents.length) ∧
          ∀ a ∈ (origin.zip shape).zip extents, fits a then some r else none := by
  by_cases hranks : origin.length = extents.length ∧ shape.length = extents.length
  · rw [if_neg (by tauto), toOption_bind, hcheck]
    simp only [hranks, and_self, true_and]
    split_ifs <;> rfl
  · rw [if_pos (by tauto), if_neg (by tauto)]
    rfl

end Regions

/-- The origin and the shape of a region of the rank of the array that fits on every axis. -/
def regionTokens? (fits : Axis → Prop) [DecidablePred fits] (origin shape : Json.Raw)
    (extents : List UInt64) : Option (List ℤ × List ℤ) :=
  (intTokens? 0 origin).bind fun start => (intTokens? 1 shape).bind fun size =>
    if (start.length = extents.length ∧ size.length = extents.length) ∧
        ∀ a ∈ (start.zip size).zip extents, fits a then some (start, size) else none

theorem intTokens?_of_regionTokens? {fits : Axis → Prop} [DecidablePred fits] {start size : Json.Raw}
    {extents : List UInt64} {r : List ℤ × List ℤ}
    (h : regionTokens? fits start size extents = some r) :
    intTokens? 0 start = some r.1 ∧ intTokens? 1 size = some r.2 := by
  obtain ⟨s, hs, h⟩ := Option.bind_eq_some_iff.1 h
  obtain ⟨z, hz, h⟩ := Option.bind_eq_some_iff.1 h
  split_ifs at h
  cases h
  exact ⟨hs, hz⟩

/-- A region with its numbers in another type. -/
theorem toOption_ranks_map {ε α N : Type} {f : ℤ → N} {h : UInt64 → N} {start size : List ℤ}
    {extents : List UInt64} {fits : (N × N) × N → Prop} [DecidablePred fits] {fits' : Axis → Prop}
    [DecidablePred fits'] {check : Except ε Unit}
    (hcheck : check.toOption = if ∀ a ∈ ((start.map f).zip (size.map f)).zip (extents.map h), fits a
      then some () else none)
    (hfits : ∀ a ∈ (start.zip size).zip extents, fits ((f a.1.1, f a.1.2), h a.2) ↔ fits' a)
    (e : ε) (r : α) :
    (if (start.map f).length ≠ (extents.map h).length ∨ (size.map f).length ≠ (extents.map h).length
      then .error e
      else do
        check
        return r : Except ε α).toOption
      = if (start.length = extents.length ∧ size.length = extents.length) ∧
          ∀ a ∈ (start.zip size).zip extents, fits' a then some r else none := by
  rw [toOption_ranks hcheck, List.zip_map, List.zip_map]
  simp only [List.length_map, List.forall_mem_map]
  refine if_congr (and_congr_right fun _ => ?_) rfl rfl
  exact forall₂_congr hfits

theorem python_checkAxes (operation : Python.PyString) (n : ℕ) (axes : List ((ℤ × ℤ) × ℤ)) :
    (Python.Crosscheck.checkAxes operation n axes).toOption
      = if ∀ a ∈ axes, a.1.1 + a.1.2 ≤ a.2 then some () else none := by
  refine toOption_axes (Python.Crosscheck.checkAxes operation) (fun _ => rfl) ?_ n axes
  rintro n ⟨⟨start, size⟩, extent⟩ axes
  rw [Python.Crosscheck.checkAxes]
  by_cases hfits : start + size ≤ extent
  · rw [if_neg (not_lt.2 hfits), if_pos hfits]
  · rw [if_pos (not_le.1 hfits), if_neg hfits]
    rfl

/-- What the `_region` of Python accepts. -/
theorem python_region (origin shape : Json.Raw) (extents : List UInt64) (index : ℕ) :
    ((Python.Crosscheck.readValue origin).bind fun o => (Python.Crosscheck.readValue shape).bind fun z =>
        (Python.Crosscheck.region o z (extents.map fun e => (e.toNat : ℤ)) index).toOption)
      = (regionTokens? Fits origin shape extents).map fun r =>
          (r.2, (r.1.zip r.2).map fun e => (e.1, e.1 + e.2)) := by
  simp only [Python.Crosscheck.region, toOption_bind]
  rw [bind_bind_swap, python_intList le_rfl, python_intList zero_le_one, regionTokens?, Option.map_bind]
  refine Option.bind_congr fun start _ => ?_
  rw [Function.comp_apply, Option.map_bind]
  refine Option.bind_congr fun size _ => ?_
  rw [Function.comp_apply, apply_ite (Option.map _)]
  refine (toOption_ranks (python_checkAxes _ 0 _) _ _).trans (if_congr ?_ rfl rfl)
  rw [List.length_map, List.zip_map_right, List.forall_mem_map]
  rfl

theorem typescript_checkAxes (operation : TypeScript.JsString) (n : ℕ)
    (axes : List ((Double × Double) × Double)) :
    (TypeScript.Crosscheck.checkAxes operation n axes).toOption
      = if ∀ a ∈ axes, (a.2.lt a.1.1 || (a.2.sub a.1.1).lt a.1.2) = false then some () else none := by
  refine toOption_axes (TypeScript.Crosscheck.checkAxes operation) (fun _ => rfl) ?_ n axes
  rintro n ⟨⟨start, size⟩, extent⟩ axes
  rw [TypeScript.Crosscheck.checkAxes]
  cases hfits : extent.lt start || (extent.sub start).lt size with
  | false => rfl
  | true => rfl

theorem add_ofInt_of_range {i j : ℤ} (hi : 0 ≤ i ∧ i ≤ 2 ^ 53 - 1) (hj : 1 ≤ j ∧ j ≤ 2 ^ 53 - 1) :
    (Double.ofInt i).add (Double.ofInt j) = Double.ofInt (i + j) := by
  obtain ⟨m, rfl⟩ := Int.eq_ofNat_of_zero_le hi.1
  obtain ⟨n, rfl⟩ := Int.eq_ofNat_of_zero_le (zero_le_one.trans hj.1)
  rw [Double.add_ofInt (by omega) (by omega), Nat.cast_add]

/-- An axis that fits as far as the numbers say. -/
theorem fitsRounded_iff {a : Axis} (hstart : 0 ≤ a.1.1 ∧ a.1.1 ≤ 2 ^ 53 - 1)
    (hsize : 1 ≤ a.1.2 ∧ a.1.2 ≤ 2 ^ 53 - 1) :
    ((Double.ofInt (a.2.toNat : ℤ)).lt (Double.ofInt a.1.1) ||
        ((Double.ofInt (a.2.toNat : ℤ)).sub (Double.ofInt a.1.1)).lt (Double.ofInt a.1.2)) = false ↔
      FitsRounded a := by
  obtain ⟨⟨start, size⟩, extent⟩ := a
  obtain ⟨s, rfl⟩ := Int.eq_ofNat_of_zero_le hstart.1
  obtain ⟨z, rfl⟩ := Int.eq_ofNat_of_zero_le (show 0 ≤ size from zero_le_one.trans hsize.1)
  have hs : s < 2 ^ 53 := by
    have hle := hstart.2
    simp only at hle
    omega
  have hz : z < 2 ^ 53 := by
    have hle := hsize.2
    simp only at hle
    omega
  obtain ⟨m, hm, h, hfinite⟩ := Double.exists_ofInt_natCast extent.toNat_lt
  have hvalue : (Double.ofInt (m : ℤ)).toRat = m := by
    rw [hfinite, Double.toRat_finite_mul_scale]
  have hrounded : FitsRounded (((s : ℤ), (z : ℤ)), extent) ↔ s + z ≤ m := by
    rw [FitsRounded, hm, hvalue]
    show (((s : ℤ) + (z : ℤ) : ℤ) : ℚ) ≤ (m : ℚ) ↔ s + z ≤ m
    exact_mod_cast Iff.rfl
  rw [hrounded, hm, Double.lt_ofInt hs]
  by_cases hle : s ≤ m
  · rw [Double.sub_ofInt hfinite hs hle, Double.lt_ofInt hz, decide_eq_false (not_lt.2 hle),
      Bool.false_or, decide_eq_false_iff_not]
    omega
  · rw [decide_eq_true (not_le.1 hle), Bool.true_or]
    simp only [Bool.true_eq_false, false_iff]
    omega

/-- What the `region` of TypeScript accepts. -/
theorem typescript_region (origin shape : Json.Raw) (extents : List UInt64) (index : ℕ) :
    ((TypeScript.Crosscheck.readValue origin).bind fun o =>
        (TypeScript.Crosscheck.readValue shape).bind fun z =>
          (TypeScript.Crosscheck.region o z (extents.map fun e => Double.ofInt (e.toNat : ℤ))
            index).toOption)
      = (regionTokens? FitsRounded origin shape extents).map fun r =>
          (r.2.map Double.ofInt,
            (r.1.zip r.2).map fun e => (Double.ofInt e.1, Double.ofInt (e.1 + e.2))) := by
  simp only [TypeScript.Crosscheck.region, toOption_bind]
  rw [bind_bind_swap, typescript_intList, typescript_intList, regionTokens?, Option.map_bind,
    Option.bind_map]
  refine Option.bind_congr fun start hstart => ?_
  rw [Function.comp_apply, Function.comp_apply, Option.map_bind, Option.bind_map]
  refine Option.bind_congr fun size hsize => ?_
  have hrange : ∀ e ∈ start.zip size, (0 ≤ e.1 ∧ e.1 ≤ 2 ^ 53 - 1) ∧ (1 ≤ e.2 ∧ e.2 ≤ 2 ^ 53 - 1) := by
    intro e he
    obtain ⟨h1, h2⟩ := List.of_mem_zip he
    exact ⟨intTokens?_range hstart _ h1, intTokens?_range hsize _ h2⟩
  have hstops : ((start.map Double.ofInt).zip (size.map Double.ofInt)).map (fun e => (e.1, e.1.add e.2))
      = (start.zip size).map fun e => (Double.ofInt e.1, Double.ofInt (e.1 + e.2)) := by
    rw [List.zip_map, List.map_map]
    refine List.map_congr_left fun e he => ?_
    obtain ⟨h1, h2⟩ := hrange e he
    exact congrArg (Prod.mk _) (add_ofInt_of_range h1 h2)
  rw [Function.comp_apply, Function.comp_apply, apply_ite (Option.map _), hstops]
  refine toOption_ranks_map (typescript_checkAxes _ 0 _) (fun a ha => ?_) _ _
  obtain ⟨h1, h2⟩ := hrange a.1 (List.of_mem_zip ha).1
  exact fitsRounded_iff h1 h2

theorem rust_checkAxes (operation : Rust.RustString) (n : ℕ) (axes : List ((ℕ × ℕ) × ℕ)) :
    (Rust.Crosscheck.checkAxes operation n axes).toOption
      = if ∀ a ∈ axes, a.1.1 + a.1.2 < 2 ^ 64 ∧ a.1.1 + a.1.2 ≤ a.2 then some () else none := by
  refine toOption_axes (Rust.Crosscheck.checkAxes operation) (fun _ => rfl) ?_ n axes
  rintro n ⟨⟨start, size⟩, extent⟩ axes
  rw [Rust.Crosscheck.checkAxes]
  by_cases hoverflow : 2 ^ 64 ≤ start + size
  · rw [if_pos hoverflow, if_neg fun h => absurd h.1 (not_lt.2 hoverflow)]
    rfl
  · by_cases hfits : start + size ≤ extent
    · rw [if_neg hoverflow, if_neg (not_lt.2 hfits), if_pos ⟨not_le.1 hoverflow, hfits⟩]
    · rw [if_neg hoverflow, if_pos (not_le.1 hfits), if_neg fun h => hfits h.2]
      rfl

/-- What the `region` of Rust accepts. -/
theorem rust_region (origin shape : Json.Raw) (extents : List UInt64) (index : ℕ) :
    ((Rust.Crosscheck.readValue origin).bind fun o => (Rust.Crosscheck.readValue shape).bind fun z =>
        (Rust.Crosscheck.region o z (extents.map UInt64.toNat) index).toOption)
      = if HasNegativeZero origin then none
        else (regionTokens? Fits origin shape extents).map fun r =>
          (r.1.map Int.toNat, r.2.map Int.toNat) := by
  simp only [Rust.Crosscheck.region, toOption_bind]
  rw [bind_bind_swap, rust_u64List, rust_positiveList]
  split_ifs with hzero
  · rfl
  rw [regionTokens?, Option.map_bind, Option.bind_map]
  refine Option.bind_congr fun start hstart => ?_
  rw [Function.comp_apply, Function.comp_apply, Option.map_bind, Option.bind_map]
  refine Option.bind_congr fun size hsize => ?_
  rw [Function.comp_apply, Function.comp_apply, apply_ite (Option.map _)]
  refine toOption_ranks_map (rust_checkAxes _ 0 _) (fun a ha => ?_) _ _
  obtain ⟨h1, h2⟩ := List.of_mem_zip (List.of_mem_zip ha).1
  have hs := intTokens?_range hstart _ h1
  have hz := intTokens?_range hsize _ h2
  show a.1.1.toNat + a.1.2.toNat < 2 ^ 64 ∧ a.1.1.toNat + a.1.2.toNat ≤ a.2.toNat ↔
    a.1.1 + a.1.2 ≤ (a.2.toNat : ℤ)
  generalize a.1.1 = s at *
  generalize a.1.2 = z at *
  omega

/-! ## Fields -/

/-- A value of a trace. -/
abbrev TraceValue := {raw : Json.Raw // HasCodePoints raw}

/-- A field of a trace: shard shapes with the chunk shape they are over, a region with the
extents of its array. -/
inductive Field
  | path (value : TraceValue)
  | dtype (value : TraceValue)
  | shape (value : TraceValue)
  | chunks (value : TraceValue)
  | origin (value : TraceValue)
  | shards (chunks : TraceValue) (value : Option TraceValue)
  | region (origin shape : TraceValue) (extents : List UInt64)

/-- What a harness makes of a field: strings by their code points, numbers by their value. -/
inductive Outcome
  | text (s : Text)
  | numbers (ns : List ℚ)
  | shapes (shapes : List (List ℚ))
  | region (shape : List ℚ) (slices : List (ℚ × ℚ))
deriving DecidableEq

/-- What a harness reads of a text, if the check accepts it. -/
def accepted {V ε α : Type} (read : Json.Raw → Option V) (check : V → Except ε α) (raw : Json.Raw) :
    Option α :=
  (read raw).bind fun v => (check v).toOption

/-- A list of integers in Python. -/
def pythonInts (minValue : ℤ) : Json.Raw → Option (List ℤ) :=
  accepted Python.Crosscheck.readValue fun v => Python.Crosscheck.intList v [] minValue

/-- A list of numbers in TypeScript. -/
def typescriptInts (minValue : ℤ) : Json.Raw → Option (List Double) :=
  accepted TypeScript.Crosscheck.readValue fun v => TypeScript.Crosscheck.intList v [] minValue

/-- A list of integers in Rust. -/
def rustInts (minValue : ℕ) : Json.Raw → Option (List ℕ) :=
  accepted Rust.Crosscheck.readValue fun v => Rust.Crosscheck.u64List v [] minValue

/-- What Python makes of a field. -/
def Field.python : Field → Option Outcome
  | .path raw =>
      (accepted Python.Crosscheck.readValue (fun v => Python.Crosscheck.path v []) raw.1).map .text
  | .dtype raw =>
      (accepted Python.Crosscheck.readValue (fun v => Python.Crosscheck.dtype v []) raw.1).map .text
  | .shape raw => (pythonInts 0 raw.1).map fun is => .numbers (is.map Int.cast)
  | .chunks raw => (pythonInts 1 raw.1).map fun is => .numbers (is.map Int.cast)
  | .origin raw => (pythonInts 0 raw.1).map fun is => .numbers (is.map Int.cast)
  | .shards inner raw =>
      ((pythonInts 1 inner.1).bind fun inner =>
        (readOption Python.Crosscheck.readValue (raw.map Subtype.val)).bind fun v =>
          (Python.Crosscheck.shards v inner []).toOption).map
        fun iss => .shapes (iss.map (·.map Int.cast))
  | .region start size extents =>
      ((Python.Crosscheck.readValue start.1).bind fun o =>
        (Python.Crosscheck.readValue size.1).bind fun z =>
          (Python.Crosscheck.region o z (extents.map fun e => (e.toNat : ℤ)) 0).toOption).map
        fun r => .region (r.1.map Int.cast) (r.2.map fun e => ((e.1 : ℚ), (e.2 : ℚ)))

/-- What TypeScript makes of a field. -/
def Field.typescript : Field → Option Outcome
  | .path raw =>
      (accepted TypeScript.Crosscheck.readValue
        (fun v => TypeScript.Crosscheck.portablePath v []) raw.1).map
        fun s => .text (Unicode.codePoints s)
  | .dtype raw =>
      (accepted TypeScript.Crosscheck.readValue
        (fun v => TypeScript.Crosscheck.portableDtype v []) raw.1).map
        fun s => .text (Unicode.codePoints s)
  | .shape raw => (typescriptInts 0 raw.1).map fun xs => .numbers (xs.map Double.toRat)
  | .chunks raw => (typescriptInts 1 raw.1).map fun xs => .numbers (xs.map Double.toRat)
  | .origin raw => (typescriptInts 0 raw.1).map fun xs => .numbers (xs.map Double.toRat)
  | .shards inner raw =>
      ((typescriptInts 1 inner.1).bind fun inner =>
        (readOption TypeScript.Crosscheck.readValue (raw.map Subtype.val)).bind fun v =>
          (TypeScript.Crosscheck.shardShapes v inner []).toOption).map
        fun xss => .shapes (xss.map (·.map Double.toRat))
  | .region start size extents =>
      ((TypeScript.Crosscheck.readValue start.1).bind fun o =>
        (TypeScript.Crosscheck.readValue size.1).bind fun z =>
          (TypeScript.Crosscheck.region o z (extents.map fun e => Double.ofInt (e.toNat : ℤ))
            0).toOption).map
        fun r => .region (r.1.map Double.toRat) (r.2.map fun e => (e.1.toRat, e.2.toRat))

/-- What Rust makes of a field; a subset by the bounds of its ranges. -/
def Field.rust : Field → Option Outcome
  | .path raw =>
      (accepted Rust.Crosscheck.readValue (fun v => Rust.Crosscheck.portablePath v []) raw.1).map
        fun s => .text (Rust.codes s)
  | .dtype raw =>
      (accepted Rust.Crosscheck.readValue (fun v => Rust.Crosscheck.portableDtype v []) raw.1).map
        fun s => .text (Rust.codes s)
  | .shape raw => (rustInts 0 raw.1).map fun ns => .numbers (ns.map Nat.cast)
  | .chunks raw => (rustInts 1 raw.1).map fun ns => .numbers (ns.map Nat.cast)
  | .origin raw => (rustInts 0 raw.1).map fun ns => .numbers (ns.map Nat.cast)
  | .shards inner raw =>
      ((rustInts 1 inner.1).bind fun inner =>
        (readOption Rust.Crosscheck.readValue (raw.map Subtype.val)).bind fun v =>
          (Rust.Crosscheck.shardShapes v inner []).toOption).map
        fun nss => .shapes (nss.map (·.map Nat.cast))
  | .region start size extents =>
      ((Rust.Crosscheck.readValue start.1).bind fun o =>
        (Rust.Crosscheck.readValue size.1).bind fun z =>
          (Rust.Crosscheck.region o z (extents.map UInt64.toNat) 0).toOption).map
        fun r => .region (r.2.map Nat.cast)
          ((r.1.zip r.2).map fun e => ((e.1 : ℚ), ((e.1 + e.2 : ℕ) : ℚ)))

/-- What a field is to be. -/
def Field.contract : Field → Option Outcome
  | .path raw => (pathToken? raw.1).map .text
  | .dtype raw => (dtypeToken? raw.1).map .text
  | .shape raw => (intTokens? 0 raw.1).map fun is => .numbers (is.map Int.cast)
  | .chunks raw => (intTokens? 1 raw.1).map fun is => .numbers (is.map Int.cast)
  | .origin raw => (intTokens? 0 raw.1).map fun is => .numbers (is.map Int.cast)
  | .shards inner raw =>
      ((intTokens? 1 inner.1).bind fun inner => shardTokens? inner (raw.map Subtype.val)).map
        fun iss => .shapes (iss.map (·.map Int.cast))
  | .region start size extents =>
      (regionTokens? Fits start.1 size.1 extents).map fun r =>
        .region (r.2.map Int.cast)
          ((r.1.zip r.2).map fun e => ((e.1 : ℚ), ((e.1 + e.2 : ℤ) : ℚ)))

/-- Python keeps the contract. -/
theorem python_eq_contract (f : Field) : f.python = f.contract := by
  cases f with
  | path raw => rw [Field.python, accepted, python_path, Field.contract]
  | dtype raw => rw [Field.python, accepted, python_dtype, Field.contract]
  | shape raw => rw [Field.python, pythonInts, accepted, python_intList le_rfl, Field.contract]
  | chunks raw => rw [Field.python, pythonInts, accepted, python_intList zero_le_one, Field.contract]
  | origin raw => rw [Field.python, pythonInts, accepted, python_intList le_rfl, Field.contract]
  | shards inner raw =>
      rw [Field.python, pythonInts, accepted, python_intList zero_le_one, Field.contract]
      simp only [python_shards]
  | region start size extents =>
      rw [Field.python, python_region, Field.contract, Option.map_map]
      simp [Function.comp_def]

/-! ### TypeScript -/

/-- The axes of a region whose ranks match. -/
def regionAxes (start size : Json.Raw) (extents : List UInt64) : List Axis :=
  match intTokens? 0 start, intTokens? 1 size with
  | some start, some size =>
      if start.length = extents.length ∧ size.length = extents.length then
        (start.zip size).zip extents
      else []
  | _, _ => []

/-- The numbers of the extents of an array say the same of a region as the extents, and the
numbers of its ends are its ends. -/
def Field.RoundsExactly : Field → Prop
  | .region start size extents =>
      ((∀ a ∈ regionAxes start.1 size.1 extents, Fits a) ↔
          ∀ a ∈ regionAxes start.1 size.1 extents, FitsRounded a) ∧
        ((∀ a ∈ regionAxes start.1 size.1 extents, Fits a) →
          ∀ a ∈ regionAxes start.1 size.1 extents, HasExactStop a)
  | _ => True

theorem toRat_ofInt_of_range {i : ℤ} (hi : 0 ≤ i ∧ i ≤ 2 ^ 53 - 1) : (Double.ofInt i).toRat = i := by
  obtain ⟨n, rfl⟩ := Int.eq_ofNat_of_zero_le hi.1
  rw [Double.toRat_ofInt (by omega), Int.cast_natCast]

section Values

variable {N : Type} {f : ℤ → N} {g : N → ℚ}

/-- Integers in another type have their values. -/
theorem map_values (hfg : ∀ i, 0 ≤ i ∧ i ≤ 2 ^ 53 - 1 → g (f i) = i) {is : List ℤ}
    (his : ∀ i ∈ is, 0 ≤ i ∧ i ≤ 2 ^ 53 - 1) : (is.map f).map g = is.map Int.cast := by
  rw [List.map_map]
  refine List.map_congr_left fun i hi => ?_
  rw [Function.comp_apply, hfg i (his i hi)]

theorem map_values_intTokens? (hfg : ∀ i, 0 ≤ i ∧ i ≤ 2 ^ 53 - 1 → g (f i) = i) {minValue : ℤ}
    (hmin : 0 ≤ minValue) {raw : Json.Raw} {is : List ℤ} (h : intTokens? minValue raw = some is) :
    (is.map f).map g = is.map Int.cast :=
  map_values hfg fun i hi => ⟨hmin.trans (intTokens?_range h i hi).1, (intTokens?_range h i hi).2⟩

theorem map_values_shardTokens? (hfg : ∀ i, 0 ≤ i ∧ i ≤ 2 ^ 53 - 1 → g (f i) = i)
    {chunks : List ℤ} {raw : Option Json.Raw} {iss : List (List ℤ)}
    (h : shardTokens? chunks raw = some iss) :
    (iss.map (·.map f)).map (·.map g) = iss.map (·.map Int.cast) := by
  rw [List.map_map]
  refine List.map_congr_left fun is his => map_values hfg fun i hi => ?_
  obtain ⟨hle, hlt⟩ := shardTokens?_range h is his i hi
  exact ⟨zero_le_one.trans hle, hlt⟩

end Values

theorem scalars_of_pathToken? {raw : Json.Raw} (h : Json.HasScalars raw) {s : Text}
    (hs : pathToken? raw = some s) : ∀ c ∈ s, Unicode.IsScalar c := by
  obtain ⟨t, ht, hts⟩ := Option.bind_eq_some_iff.1 hs
  split_ifs at hts
  cases hts
  exact scalars_of_strToken? h ht

theorem scalars_of_dtypeToken? {raw : Json.Raw} {s : Text} (hs : dtypeToken? raw = some s) :
    ∀ c ∈ s, Unicode.IsScalar c := by
  obtain ⟨t, -, hts⟩ := Option.bind_eq_some_iff.1 hs
  split_ifs at hts with hmem
  cases hts
  exact fun c hc => Unicode.isScalar_of_lt ((lt_of_mem_portableDtypes _ hmem c hc).trans (by norm_num))

/-- A region in the numbers of TypeScript. -/
theorem typescript_region_eq_contract_iff (start size : Json.Raw) (extents : List UInt64) :
    ((regionTokens? FitsRounded start size extents).map fun r => Outcome.region
          ((r.2.map Double.ofInt).map Double.toRat)
          (((r.1.zip r.2).map fun e => (Double.ofInt e.1, Double.ofInt (e.1 + e.2))).map
            fun e => (e.1.toRat, e.2.toRat)))
        = (regionTokens? Fits start size extents).map (fun r => Outcome.region (r.2.map Int.cast)
            ((r.1.zip r.2).map fun e => ((e.1 : ℚ), ((e.1 + e.2 : ℤ) : ℚ)))) ↔
      ((∀ a ∈ regionAxes start size extents, Fits a) ↔
          ∀ a ∈ regionAxes start size extents, FitsRounded a) ∧
        ((∀ a ∈ regionAxes start size extents, Fits a) →
          ∀ a ∈ regionAxes start size extents, HasExactStop a) := by
  rw [regionTokens?, regionTokens?, regionAxes]
  cases hs : intTokens? 0 start with
  | none => simp
  | some s =>
      cases hz : intTokens? 1 size with
      | none => simp
      | some z =>
          simp only [Option.bind_some]
          by_cases hranks : s.length = extents.length ∧ z.length = extents.length
          · simp only [hranks, and_self, true_and, if_true]
            have hsize := map_values_intTokens? (fun i => toRat_ofInt_of_range) zero_le_one hz
            have hslices : ((s.zip z).map fun e => (Double.ofInt e.1, Double.ofInt (e.1 + e.2))).map
                  (fun e => (e.1.toRat, e.2.toRat))
                = (s.zip z).map (fun e => ((e.1 : ℚ), ((e.1 + e.2 : ℤ) : ℚ))) ↔
                ∀ a ∈ (s.zip z).zip extents, HasExactStop a := by
              have hfst : ((s.zip z).zip extents).map Prod.fst = s.zip z :=
                List.map_fst_zip (by rw [List.length_zip, hranks.1]; exact min_le_left _ _)
              rw [List.map_map, List.map_inj_left, ← hfst, List.forall_mem_map, hfst]
              refine forall₂_congr fun a ha => ?_
              have hstart := intTokens?_range hs _ (List.of_mem_zip (List.of_mem_zip ha).1).1
              rw [Function.comp_apply, Prod.mk.injEq, toRat_ofInt_of_range hstart]
              exact and_iff_right rfl
            by_cases hfits : ∀ a ∈ (s.zip z).zip extents, Fits a
            · by_cases hrounded : ∀ a ∈ (s.zip z).zip extents, FitsRounded a
              · rw [if_pos hfits, if_pos hrounded, Option.map_some, Option.map_some, Option.some_inj,
                  Outcome.region.injEq, hslices]
                exact ⟨fun h => ⟨⟨fun _ => hrounded, fun _ => hfits⟩, fun _ => h.2⟩,
                  fun h => ⟨hsize, h.2 hfits⟩⟩
              · rw [if_pos hfits, if_neg hrounded]
                exact iff_of_false (by simp) fun h => hrounded (h.1.1 hfits)
            · by_cases hrounded : ∀ a ∈ (s.zip z).zip extents, FitsRounded a
              · rw [if_neg hfits, if_pos hrounded]
                exact iff_of_false (by simp) fun h => hfits (h.1.2 hrounded)
              · rw [if_neg hfits, if_neg hrounded]
                exact iff_of_true rfl ⟨iff_of_false hfits hrounded, fun h => absurd h hfits⟩
          · rw [if_neg fun h => hranks h.1, if_neg fun h => hranks h.1, if_neg hranks]
            simp

/-! ### Rust -/

/-- Nothing in a field is written in a way that Rust refuses. -/
def Field.IsPlain : Field → Prop
  | .path raw => (pathToken? raw.1).isSome → Json.HasScalars raw.1
  | .shape raw => (intTokens? 0 raw.1).isSome → ¬ HasNegativeZero raw.1
  | .origin raw => (intTokens? 0 raw.1).isSome → ¬ HasNegativeZero raw.1
  | .region start size extents =>
      (regionTokens? Fits start.1 size.1 extents).isSome → ¬ HasNegativeZero start.1
  | _ => True

/-- TypeScript keeps the contract where its numbers do. -/
theorem typescript_eq_contract_iff {f : Field} (hplain : f.IsPlain) :
    f.typescript = f.contract ↔ f.RoundsExactly := by
  have hints : ∀ (minValue : ℤ), 0 ≤ minValue → ∀ raw : Json.Raw,
      ((typescriptInts minValue raw).map fun xs => Outcome.numbers (xs.map Double.toRat))
        = (intTokens? minValue raw).map fun is => Outcome.numbers (is.map Int.cast) := by
    intro minValue hmin raw
    rw [typescriptInts, accepted, typescript_intList, Option.map_map]
    refine Option.map_congr fun is his => ?_
    rw [Function.comp_apply, map_values_intTokens? (fun i => toRat_ofInt_of_range) hmin his]
  cases f with
  | path raw =>
      refine iff_of_true ?_ trivial
      rw [Field.typescript, accepted, typescript_portablePath raw.2, Option.map_map, Field.contract]
      refine Option.map_congr fun s hs => ?_
      have hscalars := scalars_of_pathToken? (hplain (by rw [hs]; rfl)) hs
      rw [Function.comp_apply, Unicode.codePoints_encodeUtf16 hscalars]
  | dtype raw =>
      refine iff_of_true ?_ trivial
      rw [Field.typescript, accepted, typescript_portableDtype raw.2, Option.map_map, Field.contract]
      refine Option.map_congr fun s hs => ?_
      rw [Function.comp_apply, Unicode.codePoints_encodeUtf16 (scalars_of_dtypeToken? hs)]
  | shape raw => exact iff_of_true (hints 0 le_rfl raw.1) trivial
  | chunks raw => exact iff_of_true (hints 1 zero_le_one raw.1) trivial
  | origin raw => exact iff_of_true (hints 0 le_rfl raw.1) trivial
  | shards inner raw =>
      refine iff_of_true ?_ trivial
      rw [Field.typescript, typescriptInts, accepted, typescript_intList, Field.contract,
        Option.bind_map, Option.map_bind, Option.map_bind]
      refine Option.bind_congr fun chunks hchunks => ?_
      rw [Function.comp_apply, Function.comp_apply, Function.comp_apply,
        typescript_shardShapes (intTokens?_range hchunks), Option.map_map]
      refine Option.map_congr fun iss hiss => ?_
      rw [Function.comp_apply, map_values_shardTokens? (fun i => toRat_ofInt_of_range) hiss]
  | region start size extents =>
      rw [Field.typescript, typescript_region, Option.map_map, Field.contract, Field.RoundsExactly]
      exact typescript_region_eq_contract_iff start.1 size.1 extents

/-- A check may refuse more than the contract does. -/
theorem ite_none_eq_iff {α : Type} {p : Prop} [Decidable p] {x : Option α} :
    (if p then none else x) = x ↔ (x.isSome → ¬ p) := by
  cases x <;> by_cases hp : p <;> simp [hp]

theorem natCast_toNat {i : ℤ} (hi : 0 ≤ i ∧ i ≤ 2 ^ 53 - 1) : ((i.toNat : ℕ) : ℚ) = i := by
  rw [← Int.cast_natCast, Int.toNat_of_nonneg hi.1]

/-- Rust keeps the contract for plain fields. -/
theorem rust_eq_contract_iff (f : Field) : f.rust = f.contract ↔ f.IsPlain := by
  have hints : ∀ (minValue : ℕ) (raw : Json.Raw),
      (rustInts minValue raw).map (fun ns => Outcome.numbers (ns.map Nat.cast))
        = if HasNegativeZero raw then none
          else (intTokens? minValue raw).map fun is => Outcome.numbers (is.map Int.cast) := by
    intro minValue raw
    rw [rustInts, accepted, rust_u64List]
    split_ifs
    · rfl
    rw [Option.map_map]
    refine Option.map_congr fun is his => ?_
    rw [Function.comp_apply, map_values_intTokens? (fun i => natCast_toNat) (Nat.cast_nonneg _) his]
  cases f with
  | path raw =>
      rw [Field.rust, accepted, rust_portablePath, Field.contract, Field.IsPlain]
      by_cases hscalars : Json.HasScalars raw.1
      · refine iff_of_true ?_ fun _ => hscalars
        rw [if_pos hscalars, Option.map_map]
        refine Option.map_congr fun s hs => ?_
        rw [Function.comp_apply, Rust.codes_ofCodes (scalars_of_pathToken? hscalars hs)]
      · rw [if_neg hscalars]
        cases pathToken? raw.1 <;> simp [hscalars]
  | dtype raw =>
      refine iff_of_true ?_ trivial
      rw [Field.rust, accepted, rust_portableDtype, Option.map_map, Field.contract]
      refine Option.map_congr fun s hs => ?_
      rw [Function.comp_apply, Rust.codes_ofCodes (scalars_of_dtypeToken? hs)]
  | shape raw =>
      rw [Field.rust, hints, Field.contract, Field.IsPlain]
      exact ite_none_eq_iff.trans (by rw [Option.isSome_map]; rfl)
  | chunks raw =>
      refine iff_of_true ?_ trivial
      rw [Field.rust, rustInts, accepted, rust_positiveList, Option.map_map, Field.contract]
      refine Option.map_congr fun is his => ?_
      rw [Function.comp_apply, map_values_intTokens? (fun i => natCast_toNat) zero_le_one his]
  | origin raw =>
      rw [Field.rust, hints, Field.contract, Field.IsPlain]
      exact ite_none_eq_iff.trans (by rw [Option.isSome_map]; rfl)
  | shards inner raw =>
      refine iff_of_true ?_ trivial
      rw [Field.rust, rustInts, accepted, rust_positiveList, Field.contract, Option.bind_map,
        Option.map_bind, Option.map_bind]
      refine Option.bind_congr fun chunks hchunks => ?_
      rw [Function.comp_apply, Function.comp_apply, Function.comp_apply,
        rust_shardShapes (intTokens?_range hchunks), Option.map_map]
      refine Option.map_congr fun iss hiss => ?_
      rw [Function.comp_apply, map_values_shardTokens? (fun i => natCast_toNat) hiss]
  | region start size extents =>
      rw [Field.rust, rust_region, Field.contract, Field.IsPlain,
        apply_ite (Option.map _), Option.map_map]
      refine Iff.trans (Eq.congr_left (if_congr Iff.rfl rfl (Option.map_congr fun r hr => ?_)))
        (ite_none_eq_iff.trans (by rw [Option.isSome_map]))
      obtain ⟨hs, hz⟩ := intTokens?_of_regionTokens? hr
      have hslices : ((r.1.map Int.toNat).zip (r.2.map Int.toNat)).map
            (fun e => ((e.1 : ℚ), ((e.1 + e.2 : ℕ) : ℚ)))
          = (r.1.zip r.2).map fun e => ((e.1 : ℚ), ((e.1 + e.2 : ℤ) : ℚ)) := by
        rw [List.zip_map, List.map_map]
        refine List.map_congr_left fun e he => ?_
        have h1 := intTokens?_range hs _ (List.of_mem_zip he).1
        obtain ⟨h2, h2'⟩ := intTokens?_range hz _ (List.of_mem_zip he).2
        have hsum := natCast_toNat h1
        have hsum' := natCast_toNat ⟨zero_le_one.trans h2, h2'⟩
        rw [Function.comp_apply, Prod.map_apply, Nat.cast_add, hsum, hsum', Int.cast_add]
      rw [Function.comp_apply, map_values_intTokens? (fun i => natCast_toNat) zero_le_one hz, hslices]

/-! ### Agreement -/

/-- Extents below `2 ^ 53` are their own numbers. -/
theorem roundsExactly_of_lt {start size : TraceValue} {extents : List UInt64}
    (h : ∀ e ∈ extents, e.toNat < 2 ^ 53) : (Field.region start size extents).RoundsExactly := by
  have haxes : ∀ a ∈ regionAxes start.1 size.1 extents,
      (Fits a ↔ FitsRounded a) ∧ (Fits a → HasExactStop a) := by
    intro a ha
    rw [regionAxes] at ha
    split at ha
    · next s z hs hz =>
        split_ifs at ha
        · have he := h _ (List.of_mem_zip ha).2
          obtain ⟨h1, h2⟩ := List.of_mem_zip (List.of_mem_zip ha).1
          have hs := intTokens?_range hs _ h1
          have hz := intTokens?_range hz _ h2
          rw [Fits, FitsRounded, HasExactStop, Double.toRat_ofInt he]
          refine ⟨by exact_mod_cast Iff.rfl, fun hfits => toRat_ofInt_of_range ⟨?_, ?_⟩⟩
          · exact add_nonneg hs.1 (zero_le_one.trans hz.1)
          · refine le_trans hfits ?_
            omega
        · cases ha
    · cases ha
  exact ⟨forall₂_congr fun a ha => (haxes a ha).1,
    fun hfits a ha => (haxes a ha).2 (hfits a ha)⟩

/-- The three harnesses make the same of a field if and only if it is plain and rounds
exactly. -/
theorem harnesses_agree_iff (f : Field) :
    (f.python = f.typescript ∧ f.typescript = f.rust) ↔ f.IsPlain ∧ f.RoundsExactly := by
  rw [python_eq_contract]
  constructor
  · rintro ⟨ht, hr⟩
    have hplain : f.IsPlain := (rust_eq_contract_iff f).1 (ht.trans hr).symm
    exact ⟨hplain, (typescript_eq_contract_iff hplain).1 ht.symm⟩
  · rintro ⟨hplain, hrounds⟩
    have ht := (typescript_eq_contract_iff hplain).2 hrounds
    exact ⟨ht.symm, ht.trans ((rust_eq_contract_iff f).2 hplain).symm⟩

/-- The shape `[-0]`. -/
def signedZeroShape : Field :=
  .shape ⟨.arr [.num ⟨true, [0], [], none, by decide, by decide⟩], by decide⟩

/-- Python and TypeScript take `[-0]` for the shape `[0]`, Rust takes it for no shape. -/
theorem not_harnesses_agree_signedZeroShape :
    ¬ (signedZeroShape.python = signedZeroShape.typescript ∧
        signedZeroShape.typescript = signedZeroShape.rust) := by
  rintro ⟨hpython, hrust⟩
  have hcontract : signedZeroShape.rust = signedZeroShape.contract := by
    rw [← hrust, ← hpython, python_eq_contract]
  have hplain : (intTokens? 0 (.arr [.num ⟨true, [0], [], none, by decide, by decide⟩])).isSome →
      ¬ HasNegativeZero (.arr [.num ⟨true, [0], [], none, by decide, by decide⟩]) :=
    (rust_eq_contract_iff signedZeroShape).1 hcontract
  exact hplain (by decide) (by decide)

end Conformance.Crosscheck
