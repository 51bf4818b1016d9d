import ZarrInline.Json.Results
import ZarrInline.Python.Crosscheck
import ZarrInline.Rust.Crosscheck
import ZarrInline.Text.Splitting
import ZarrInline.TypeScript.Crosscheck

/-!
# The crosscheck input contract

The three harnesses check the fields of a trace with validators of their own.  What a
field is to be is stated here on the tree of its text, and each validator is shown to
accept that or something else: `IsPortablePath`, `intTokens?` and `shardTokens?` are the
contract, and `harnesses_agree_iff` says for which fields the three keep it alike.

They part in three places.  Rust reads an integer from its text and refuses the spelling
`-0`.  Rust cannot hold a lone surrogate.  TypeScript holds the extents of an array, and the
end of a region, as binary64 numbers.
-/

namespace Conformance.Crosscheck

open Json (mapM_cons_option mapM_bind_mapM mapM_map_option mapM_congr_option mapM_ite mapM_unless
  isSome_of_mapM forall_of_mapM toOption_sequence toOption_map bind_eq_none_of_kind)
open Numeric (Text Double NumberToken)

/-! ## Integers -/

/-- The value of an integer token in a range up to `2 ^ 53 - 1`. -/
def intToken? (minValue : ℤ) : Json.Raw → Option ℤ
  | .num n =>
      if n.IsInteger ∧ minValue ≤ n.intValue ∧ n.intValue ≤ 2 ^ 53 - 1 then some n.intValue else none
  | _ => none

/-- The values of a list of integer tokens. -/
def intTokens? (minValue : ℤ) : Json.Raw → Option (List ℤ)
  | .arr xs => xs.mapM (intToken? minValue)
  | _ => none

/-- A token that writes zero with a sign. -/
def IsNegativeZero : Json.Raw → Prop
  | .num n => n.neg = true ∧ n.intValue = 0
  | _ => False

/-- One of the items of a list is a zero with a sign. -/
def HasNegativeZero : Json.Raw → Prop
  | .arr xs => ∃ x ∈ xs, IsNegativeZero x
  | _ => False

section Ints

variable {minValue : ℤ} {x : Json.Raw} {i : ℤ}

theorem intToken?_eq_some (h : intToken? minValue x = some i) :
    ∃ n, x = .num n ∧ n.IsInteger ∧ n.intValue = i ∧ minValue ≤ i ∧ i ≤ 2 ^ 53 - 1 := by
  cases x with
  | num n =>
      rw [intToken?] at h
      split_ifs at h with hn
      cases h
      exact ⟨n, rfl, hn.1, rfl, hn.2.1, hn.2.2⟩
  | _ => cases h

theorem intTokens?_range {is : List ℤ} (h : intTokens? minValue x = some is) :
    ∀ i ∈ is, minValue ≤ i ∧ i ≤ 2 ^ 53 - 1 := by
  cases x with
  | arr xs =>
      refine forall_of_mapM (fun x i hi => ?_) h
      obtain ⟨n, -, -, -, hmin, hmax⟩ := intToken?_eq_some hi
      exact ⟨hmin, hmax⟩
  | _ => cases h

/-- A small integer token has few digits. -/
theorem acceptsNumber_of_le {n : NumberToken} (hn : n.IsInteger) (hmin : 0 ≤ n.intValue)
    (hmax : n.intValue ≤ 2 ^ 53 - 1) : Python.acceptsNumber n = true := by
  have hof : Numeric.ofDigits n.int < 10 ^ 16 := by
    have habs := NumberToken.natAbs_intValue n
    have hpow : (2 : ℤ) ^ 53 - 1 < 10 ^ 16 := by norm_num
    zify
    rw [← habs]
    omega
  have hlen : n.int.length ≤ 17 := by
    by_contra hlong
    obtain ⟨d, ds, hds⟩ := List.exists_cons_of_ne_nil n.int_ne
    have hd : d ≠ 0 := by
      rintro rfl
      have hlead := n.int_lead (by rw [hds]; rfl)
      rw [hlead] at hlong
      simp at hlong
    have hle : 10 ^ ds.length ≤ Numeric.ofDigits (d :: ds) := Numeric.le_ofDigits hd
    rw [← hds] at hle
    have hpow : 10 ^ 16 ≤ 10 ^ ds.length := by
      refine Nat.pow_le_pow_right (by norm_num) ?_
      rw [hds, List.length_cons] at hlong
      omega
    omega
  rw [Python.acceptsNumber, if_pos hn]
  exact decide_eq_true (hlen.trans (by norm_num [Python.maxStrDigits]))

end Ints

/-! ## Reading a list -/

/-- Python reads a list item by item. -/
theorem python_readValue_arr (xs : List Json.Raw) :
    Python.Crosscheck.readValue (.arr xs) = (xs.mapM Python.Crosscheck.readValue).map .arr := by
  have hraw : Python.ofRaw (.arr xs) = .arr (xs.map Python.ofRaw) := by
    rw [Python.ofRaw, Json.read, Json.load_arr, Json.map_arr, List.map_map]
    rfl
  have hitems := mapM_ite (p := fun x : Json.Raw =>
    x.Every (fun _ => True) (fun n => Python.acceptsNumber n = true) (fun _ => True)) Python.ofRaw xs
  rw [Python.Crosscheck.readValue, hraw]
  refine Eq.trans ?_ (congrArg (Option.map Json.arr) hitems.symm)
  simp only [Json.every_arr]
  split_ifs <;> rfl

/-- TypeScript reads a list item by item. -/
theorem typescript_readValue_arr (xs : List Json.Raw) :
    TypeScript.Crosscheck.readValue (.arr xs)
      = (xs.mapM TypeScript.Crosscheck.readValue).map .arr := by
  rw [TypeScript.Crosscheck.readValue, Json.load_arr, Json.traverse_arr, toOption_map, List.map_map,
    toOption_sequence]
  rfl

/-- Rust reads a list item by item. -/
theorem rust_readValue_arr (xs : List Json.Raw) :
    Rust.Crosscheck.readValue (.arr xs) = (xs.mapM Rust.Crosscheck.readValue).map .arr := by
  have hread : ∀ raw, Rust.Crosscheck.readValue raw
      = if Json.HasScalars raw ∧ Json.IsOk (Rust.checkNumbers (Rust.ofRaw raw)) then
          some (Rust.ofRaw raw) else none := by
    intro raw
    rw [Rust.Crosscheck.readValue]
    cases Rust.checkNumbers (Rust.ofRaw raw) <;> split_ifs <;> simp_all
  have hraw : Rust.ofRaw (.arr xs) = .arr (xs.map Rust.ofRaw) := by
    rw [Rust.ofRaw, Json.read, Json.load_arr, Json.map_arr, List.map_map]
    rfl
  have hall : Json.HasScalars (.arr xs) ∧ Json.IsOk (Rust.checkNumbers (Rust.ofRaw (.arr xs))) ↔
      ∀ x ∈ xs, Json.HasScalars x ∧ Json.IsOk (Rust.checkNumbers (Rust.ofRaw x)) := by
    rw [forall₂_and]
    refine and_congr (Json.every_arr xs) ?_
    simp only [hraw, Rust.checkNumbers, Json.isOk_map, Json.isOk_traverse, Json.every_arr,
      List.forall_mem_map]
  have hitems := mapM_ite (p := fun x : Json.Raw =>
    Json.HasScalars x ∧ Json.IsOk (Rust.checkNumbers (Rust.ofRaw x))) Rust.ofRaw xs
  have hmapM := @mapM_congr_option _ _ _ _ xs fun x _ => hread x
  rw [hmapM, hitems, hread]
  by_cases hpass : ∀ x ∈ xs, Json.HasScalars x ∧ Json.IsOk (Rust.checkNumbers (Rust.ofRaw x))
  · rw [if_pos (hall.2 hpass), if_pos hpass, hraw]
    rfl
  · rw [if_neg (mt hall.1 hpass), if_neg hpass]
    rfl

theorem python_kind {raw : Json.Raw} {v : Python.PyValue}
    (h : Python.Crosscheck.readValue raw = some v) : v.kind = raw.kind := by
  rw [Python.Crosscheck.readValue] at h
  split_ifs at h
  cases h
  rw [Python.ofRaw, Json.read, Json.kind_map, Json.kind_load]

theorem typescript_kind {raw : Json.Raw} {v : TypeScript.JsValue}
    (h : TypeScript.Crosscheck.readValue raw = some v) : v.kind = raw.kind := by
  rw [TypeScript.Crosscheck.readValue] at h
  cases hread : (raw.load TypeScript.stringValue TypeScript.arrayIndex?).traverse
      (TypeScript.revive { integersAsBigInt := true }) with
  | error e => rw [hread] at h; cases h
  | ok w =>
      rw [hread] at h
      cases h
      rw [Json.kind_traverse hread, Json.kind_load]

theorem rust_kind {raw : Json.Raw} {v : Rust.Value} (h : Rust.Crosscheck.readValue raw = some v) :
    v.kind = raw.kind := by
  rw [Rust.Crosscheck.readValue] at h
  split_ifs at h
  cases hcheck : Rust.checkNumbers (Rust.ofRaw raw) with
  | error e => rw [hcheck] at h; cases h
  | ok u =>
      rw [hcheck] at h
      cases h
      rw [Rust.ofRaw, Json.read, Json.kind_map, Json.kind_load]

/-! ## Lists of integers -/

instance : DecidablePred IsNegativeZero := fun x =>
  match x with
  | .num _ => inferInstanceAs (Decidable (_ ∧ _))
  | .null => inferInstanceAs (Decidable False)
  | .bool _ => inferInstanceAs (Decidable False)
  | .str _ => inferInstanceAs (Decidable False)
  | .arr _ => inferInstanceAs (Decidable False)
  | .obj _ => inferInstanceAs (Decidable False)

instance : DecidablePred HasNegativeZero := fun x =>
  match x with
  | .arr xs => inferInstanceAs (Decidable (∃ x ∈ xs, IsNegativeZero x))
  | .num _ => inferInstanceAs (Decidable False)
  | .null => inferInstanceAs (Decidable False)
  | .bool _ => inferInstanceAs (Decidable False)
  | .str _ => inferInstanceAs (Decidable False)
  | .obj _ => inferInstanceAs (Decidable False)

/-- Python takes the integer tokens. -/
theorem python_intItem {minValue : ℤ} (hmin : 0 ≤ minValue) (x : Json.Raw) :
    (Python.Crosscheck.readValue x).bind (Python.Crosscheck.intItem minValue)
      = intToken? minValue x := by
  have hother : ∀ v : Python.PyValue, v.kind ≠ .num → Python.Crosscheck.intItem minValue v = none := by
    intro v hv
    cases v with
    | num n => exact absurd rfl hv
    | _ => rfl
  cases x with
  | num n =>
      have hread : Python.Crosscheck.readValue (.num n)
          = if Python.acceptsNumber n = true then some (.num (Python.numberValue n)) else none := by
        rw [Python.Crosscheck.readValue]
        exact if_congr (Json.every_num n) rfl rfl
      rw [hread, intToken?, Python.numberValue]
      by_cases hn : n.IsInteger
      · simp only [hn, true_and, if_true]
        by_cases hrange : minValue ≤ n.intValue ∧ n.intValue ≤ 2 ^ 53 - 1
        · rw [if_pos hrange, if_pos (acceptsNumber_of_le hn (hmin.trans hrange.1) hrange.2),
            Option.bind_some, Python.Crosscheck.intItem, Python.Crosscheck.maxSafeDimension,
            if_pos hrange]
        · rw [if_neg hrange]
          split_ifs
          · rw [Option.bind_some, Python.Crosscheck.intItem, Python.Crosscheck.maxSafeDimension,
              if_neg hrange]
          · rfl
      · simp only [hn, false_and, if_false]
        split_ifs <;> rfl
  | _ => exact bind_eq_none_of_kind python_kind hother (by simp [Json.kind])

/-- TypeScript takes the integer tokens, and converts them to numbers. -/
theorem typescript_intItem (minValue : ℤ) (x : Json.Raw) :
    (TypeScript.Crosscheck.readValue x).bind (TypeScript.Crosscheck.intItem minValue)
      = (intToken? minValue x).map Double.ofInt := by
  have hother : ∀ v : TypeScript.JsValue, v.kind ≠ .num →
      TypeScript.Crosscheck.intItem minValue v = none := by
    intro v hv
    cases v with
    | num n => exact absurd rfl hv
    | _ => rfl
  cases x with
  | num n =>
      have hread : TypeScript.Crosscheck.readValue (.num n)
          = ((TypeScript.revive { integersAsBigInt := true } n).map Json.num).toOption := rfl
      rw [hread, toOption_map, TypeScript.revive, intToken?]
      by_cases hn : n.IsInteger
      · simp only [hn, true_or, true_and, if_true, Except.toOption, Option.map_some,
          Option.bind_some, TypeScript.Crosscheck.intItem]
        by_cases hrange : minValue ≤ n.intValue ∧ n.intValue ≤ 2 ^ 53 - 1
        · rw [if_pos hrange]
          exact if_pos hrange
        · rw [if_neg hrange]
          exact if_neg hrange
      · simp only [hn, and_false, false_and, if_false]
        split_ifs <;> rfl
  | _ => exact bind_eq_none_of_kind typescript_kind hother (by simp [Json.kind])

/-- Rust takes the integer tokens without a sign. -/
theorem rust_intItem (minValue : ℕ) (x : Json.Raw) :
    (Rust.Crosscheck.readValue x).bind (Rust.Crosscheck.u64Item minValue)
      = if IsNegativeZero x then none else (intToken? minValue x).map Int.toNat := by
  have hother : ∀ v : Rust.Value, v.kind ≠ .num → Rust.Crosscheck.u64Item minValue v = none := by
    intro v hv
    cases v with
    | num n => exact absurd rfl hv
    | _ => rfl
  cases x with
  | num n =>
      have hread : Rust.Crosscheck.readValue (.num n)
          = if Json.InRange n then some (.num n) else none := by
        have hscalars : Json.HasScalars (.num n) := (Json.every_num n).2 trivial
        have hraw : Rust.ofRaw (.num n) = .num n := rfl
        have hcheck : Rust.checkNumbers (.num n) = ((Rust.checkNumber n).map Json.num).map fun _ => () := rfl
        rw [Rust.Crosscheck.readValue, if_pos hscalars, hraw, hcheck, Rust.checkNumber_eq]
        split_ifs <;> rfl
      have hitem : Rust.Crosscheck.u64Item minValue (.num n)
          = (Rust.Crosscheck.parseU64 n.render).filter fun k =>
              minValue ≤ k && k ≤ Rust.Crosscheck.maxSafeDimension := rfl
      rw [hread, intToken?]
      by_cases hn : n.IsInteger
      · have hin : Json.InRange n := Or.inl hn
        rw [if_pos hin, Option.bind_some, hitem, Rust.Crosscheck.parseU64_render]
        cases hneg : n.neg with
        | true =>
            have hvalue : n.intValue = -(Numeric.ofDigits n.int : ℤ) := by
              rw [NumberToken.intValue, if_pos hneg]
            rw [if_neg fun h => Bool.noConfusion h.2.1]
            split_ifs with hzero hrange
            · rfl
            · -- a negative number is no smaller than `minValue`
              refine absurd ⟨hneg, ?_⟩ hzero
              omega
            · rfl
        | false =>
            have hvalue : n.intValue = (Numeric.ofDigits n.int : ℤ) := by
              rw [NumberToken.intValue, if_neg (by simp [hneg])]
            have hzero : ¬ IsNegativeZero (.num n) := fun h => by
              rw [h.1] at hneg
              cases hneg
            have hmax : Rust.Crosscheck.maxSafeDimension = 2 ^ 53 - 1 := rfl
            rw [if_neg hzero, hvalue]
            by_cases hrange : minValue ≤ Numeric.ofDigits n.int ∧ Numeric.ofDigits n.int ≤ 2 ^ 53 - 1
            · rw [if_pos ⟨hn, rfl, by omega⟩, if_pos ⟨hn, by omega, by omega⟩, Option.filter_some,
                if_pos (by simp [hmax]; omega)]
              rfl
            · have hout : ¬ (n.IsInteger ∧ (minValue : ℤ) ≤ (Numeric.ofDigits n.int : ℤ) ∧
                  (Numeric.ofDigits n.int : ℤ) ≤ 2 ^ 53 - 1) := by
                rintro ⟨-, hlo, hhi⟩
                exact hrange ⟨by omega, by omega⟩
              rw [if_neg hout]
              by_cases hfits : n.IsInteger ∧ false = false ∧ Numeric.ofDigits n.int < 2 ^ 64
              · rw [if_pos hfits, Option.filter_some, if_neg (by simp [hmax]; omega)]
                rfl
              · rw [if_neg hfits]
                rfl
      · have hnone : (none : Option ℕ)
            = if IsNegativeZero (.num n) then none else (none : Option ℤ).map Int.toNat := by
          split_ifs <;> rfl
        have hout : ¬ (n.IsInteger ∧ (minValue : ℤ) ≤ n.intValue ∧ n.intValue ≤ 2 ^ 53 - 1) :=
          fun h => hn h.1
        rw [if_neg hout, ← hnone]
        by_cases hin : Json.InRange n
        · rw [if_pos hin, Option.bind_some, hitem, Rust.Crosscheck.parseU64_render, if_neg fun h => hn h.1]
          rfl
        · rw [if_neg hin]
          rfl
  | _ => exact bind_eq_none_of_kind rust_kind hother (by simp [Json.kind])

/-- What the `int_list` of Python accepts. -/
theorem python_intList {minValue : ℤ} (hmin : 0 ≤ minValue) (raw : Json.Raw) (what : Python.PyString) :
    ((Python.Crosscheck.readValue raw).bind fun v =>
        (Python.Crosscheck.intList v what minValue).toOption) = intTokens? minValue raw := by
  have hlist : ∀ vs : List Python.PyValue,
      (Python.Crosscheck.intList (.arr vs) what minValue).toOption
        = vs.mapM (Python.Crosscheck.intItem minValue) := by
    intro vs
    rw [Python.Crosscheck.intList]
    cases vs.mapM (Python.Crosscheck.intItem minValue) <;> rfl
  have hother : ∀ v : Python.PyValue, v.kind ≠ .arr →
      (Python.Crosscheck.intList v what minValue).toOption = none := by
    intro v hv
    cases v with
    | arr vs => exact absurd rfl hv
    | _ => rfl
  cases raw with
  | arr xs =>
      rw [python_readValue_arr, Option.bind_map]
      simp only [Function.comp_def, hlist]
      rw [mapM_bind_mapM]
      exact mapM_congr_option fun x _ => python_intItem hmin x
  | _ => exact bind_eq_none_of_kind python_kind hother (by simp [Json.kind])

/-- What the `intList` of TypeScript accepts. -/
theorem typescript_intList (minValue : ℤ) (raw : Json.Raw) (what : TypeScript.JsString) :
    ((TypeScript.Crosscheck.readValue raw).bind fun v =>
        (TypeScript.Crosscheck.intList v what minValue).toOption)
      = (intTokens? minValue raw).map (·.map Double.ofInt) := by
  have hlist : ∀ vs : List TypeScript.JsValue,
      (TypeScript.Crosscheck.intList (.arr vs) what minValue).toOption
        = vs.mapM (TypeScript.Crosscheck.intItem minValue) := by
    intro vs
    rw [TypeScript.Crosscheck.intList]
    cases vs.mapM (TypeScript.Crosscheck.intItem minValue) <;> rfl
  have hother : ∀ v : TypeScript.JsValue, v.kind ≠ .arr →
      (TypeScript.Crosscheck.intList v what minValue).toOption = none := by
    intro v hv
    cases v with
    | arr vs => exact absurd rfl hv
    | _ => rfl
  cases raw with
  | arr xs =>
      rw [typescript_readValue_arr, Option.bind_map]
      simp only [Function.comp_def, hlist]
      rw [mapM_bind_mapM, intTokens?, ← mapM_map_option]
      exact mapM_congr_option fun x _ => typescript_intItem minValue x
  | _ => exact bind_eq_none_of_kind typescript_kind hother (by simp [Json.kind])

/-- What the `u64_list` of Rust accepts. -/
theorem rust_u64List (minValue : ℕ) (raw : Json.Raw) (what : Rust.RustString) :
    ((Rust.Crosscheck.readValue raw).bind fun v =>
        (Rust.Crosscheck.u64List v what minValue).toOption)
      = if HasNegativeZero raw then none else (intTokens? minValue raw).map (·.map Int.toNat) := by
  have hlist : ∀ vs : List Rust.Value, (Rust.Crosscheck.u64List (.arr vs) what minValue).toOption
      = vs.mapM (Rust.Crosscheck.u64Item minValue) := by
    intro vs
    rw [Rust.Crosscheck.u64List]
    cases vs.mapM (Rust.Crosscheck.u64Item minValue) <;> rfl
  have hother : ∀ v : Rust.Value, v.kind ≠ .arr →
      (Rust.Crosscheck.u64List v what minValue).toOption = none := by
    intro v hv
    cases v with
    | arr vs => exact absurd rfl hv
    | _ => rfl
  cases raw with
  | arr xs =>
      rw [rust_readValue_arr, Option.bind_map]
      simp only [Function.comp_def, hlist]
      rw [mapM_bind_mapM, mapM_congr_option fun x _ => rust_intItem minValue x, mapM_unless,
        mapM_map_option]
      rfl
  | _ =>
      refine Eq.trans (bind_eq_none_of_kind rust_kind hother ?_) (if_neg id).symm
      simp [Json.kind]

/-- A list of positive integers has no zero. -/
theorem intTokens?_of_hasNegativeZero {minValue : ℤ} (hmin : 0 < minValue) {raw : Json.Raw}
    (h : HasNegativeZero raw) : intTokens? minValue raw = none := by
  cases raw with
  | arr xs =>
      obtain ⟨x, hx, hzero⟩ := h
      rw [Option.eq_none_iff_forall_ne_some]
      intro is his
      obtain ⟨i, hi⟩ := Option.isSome_iff_exists.1 (isSome_of_mapM his hx)
      obtain ⟨n, rfl, -, rfl, hle, -⟩ := intToken?_eq_some hi
      exact absurd hzero.2 (by omega)
  | _ => exact h.elim

/-- A list of positive integers in Rust. -/
theorem rust_positiveList (raw : Json.Raw) (what : Rust.RustString) :
    ((Rust.Crosscheck.readValue raw).bind fun v => (Rust.Crosscheck.u64List v what 1).toOption)
      = (intTokens? 1 raw).map (·.map Int.toNat) := by
  rw [rust_u64List]
  split_ifs with hzero
  · rw [intTokens?_of_hasNegativeZero (by norm_num) hzero]
    rfl
  · rfl

/-! ## Shard shapes -/

section Shards

variable {V W N M : Type}

/-- Shard shapes from inner to outer, each of the rank of the one before and divisible
by it. -/
def shardLevels (ints : V → Option (List N)) (divides : N → N → Bool) :
    List N → List V → Option (List (List N))
  | _, [] => some []
  | inner, v :: vs =>
      (ints v).bind fun shard =>
        if shard.length = inner.length ∧ (shard.zip inner).all (fun e => divides e.1 e.2) then
          (shardLevels ints divides shard vs).map (shard :: ·)
        else none

/-- Reading the levels first changes nothing. -/
theorem shardLevels_read (ints : V → Option (List N)) (divides : N → N → Bool) (t : W → Option V)
    (inner : List N) (xs : List W) :
    (xs.mapM t).bind (shardLevels ints divides inner)
      = shardLevels (fun x => (t x).bind ints) divides inner xs := by
  induction xs generalizing inner with
  | nil => rfl
  | cons x xs ih =>
      rw [mapM_cons_option, shardLevels]
      cases t x with
      | none => rfl
      | some v =>
          simp only [Option.bind_some]
          cases hints : ints v with
          | none => cases xs.mapM t <;> simp [shardLevels, hints]
          | some shard =>
              rw [Option.bind_some, ← ih shard]
              cases xs.mapM t with
              | none => simp
              | some vs => simp [shardLevels, hints]

/-- The numbers may be of another type. -/
theorem shardLevels_map {ints : V → Option (List N)} {divides : N → N → Bool} {P : N → Prop}
    (hints : ∀ v is, ints v = some is → ∀ i ∈ is, P i) (f : N → M) (divides' : M → M → Bool)
    (hdiv : ∀ a b, P a → P b → divides' (f a) (f b) = divides a b) {inner : List N}
    (hinner : ∀ i ∈ inner, P i) (vs : List V) :
    shardLevels (fun v => (ints v).map (·.map f)) divides' (inner.map f) vs
      = (shardLevels ints divides inner vs).map (·.map (·.map f)) := by
  induction vs generalizing inner with
  | nil => rfl
  | cons v vs ih =>
      rw [shardLevels, shardLevels]
      cases hv : ints v with
      | none => rfl
      | some shard =>
          have hshard := hints v shard hv
          have hall : ((shard.map f).zip (inner.map f)).all (fun e => divides' e.1 e.2)
              = (shard.zip inner).all fun e => divides e.1 e.2 := by
            rw [List.zip_map, List.all_map, Bool.eq_iff_iff, List.all_eq_true, List.all_eq_true]
            refine forall₂_congr fun e he => ?_
            obtain ⟨h1, h2⟩ := List.of_mem_zip he
            rw [← hdiv e.1 e.2 (hshard _ h1) (hinner _ h2)]
            rfl
          simp only [Option.map_some, Option.bind_some, List.length_map, hall, ih hshard]
          split_ifs
          · rw [Option.map_map, Option.map_map]
            rfl
          · rfl

/-- The integers of the levels. -/
theorem forall_of_shardLevels {ints : V → Option (List N)} {divides : N → N → Bool} {P : N → Prop}
    (hints : ∀ v is, ints v = some is → ∀ i ∈ is, P i) {inner : List N} {vs : List V}
    {iss : List (List N)} (h : shardLevels ints divides inner vs = some iss) :
    ∀ is ∈ iss, ∀ i ∈ is, P i := by
  induction vs generalizing inner iss with
  | nil =>
      cases h
      simp
  | cons v vs ih =>
      rw [shardLevels] at h
      obtain ⟨shard, hshard, hlevels⟩ := Option.bind_eq_some_iff.1 h
      split_ifs at hlevels
      obtain ⟨rest, hrest, rfl⟩ := Option.map_eq_some_iff.1 hlevels
      exact List.forall_mem_cons.2 ⟨hints v shard hshard, ih hrest⟩

end Shards

/-- The shard shapes over the chunk shape `chunks`. -/
def shardTokens? (chunks : List ℤ) : Option Json.Raw → Option (List (List ℤ))
  | none => some []
  | some (.arr levels) =>
      shardLevels (intTokens? 1) (fun shard chunk => decide (shard % chunk = 0)) chunks levels
  | some _ => none

theorem shardTokens?_range {chunks : List ℤ} {shards : Option Json.Raw} {iss : List (List ℤ)}
    (h : shardTokens? chunks shards = some iss) : ∀ is ∈ iss, ∀ i ∈ is, 1 ≤ i ∧ i ≤ 2 ^ 53 - 1 := by
  cases shards with
  | none =>
      cases h
      simp
  | some raw =>
      cases raw with
      | arr levels => exact forall_of_shardLevels (fun _ _ => intTokens?_range) h
      | _ => cases h

/-- A loop that stops at the first level that is no list of integers or does not fit the
level before. -/
theorem toOption_loop {ε V N : Type} (loop : ℕ → List N → List V → Except ε (List (List N)))
    {ints : V → Option (List N)} {divides misfit : N → N → Bool}
    (hmisfit : ∀ a b, misfit a b = !divides a b)
    (hnil : ∀ level inner, loop level inner [] = .ok [])
    (hcons : ∀ level inner v vs, (loop level inner (v :: vs)).toOption =
      (ints v).bind fun shard =>
        if shard.length ≠ inner.length ∨ (shard.zip inner).any (fun e => misfit e.1 e.2) = true then none
        else (loop (level + 1) shard vs).toOption.map (shard :: ·))
    (level : ℕ) (inner : List N) (vs : List V) :
    (loop level inner vs).toOption = shardLevels ints divides inner vs := by
  induction vs generalizing level inner with
  | nil => rw [hnil]; rfl
  | cons v vs ih =>
      rw [hcons, shardLevels]
      refine Option.bind_congr fun shard _ => ?_
      have hcond : ¬ (shard.length ≠ inner.length ∨
            (shard.zip inner).any (fun e => misfit e.1 e.2) = true) ↔
          shard.length = inner.length ∧ (shard.zip inner).all (fun e => divides e.1 e.2) = true := by
        simp only [hmisfit]
        rw [not_or, not_not, Bool.not_eq_true, List.any_eq_false, List.all_eq_true]
        simp
      by_cases hfits : shard.length = inner.length ∧
          (shard.zip inner).all (fun e => divides e.1 e.2) = true
      · rw [if_neg (hcond.2 hfits), if_pos hfits, ih]
      · rw [if_pos (not_not.1 (mt hcond.1 hfits)), if_neg hfits]

theorem python_shardLevels (what : Python.PyString) (level : ℕ) (inner : List ℤ)
    (vs : List Python.PyValue) :
    (Python.Crosscheck.shardLevels what level inner vs).toOption
      = shardLevels (fun v => (Python.Crosscheck.intList v [] 1).toOption)
          (fun shard chunk => decide (shard % chunk = 0)) inner vs := by
  refine toOption_loop (Python.Crosscheck.shardLevels what) (fun a b => decide_not)
    (fun _ _ => rfl) (fun level inner v vs => ?_) level inner vs
  have hwhat : ∀ w : Python.PyString,
      (Python.Crosscheck.intList v w 1).toOption = (Python.Crosscheck.intList v [] 1).toOption := by
    intro w
    cases v with
    | arr items =>
        rw [Python.Crosscheck.intList, Python.Crosscheck.intList]
        cases items.mapM (Python.Crosscheck.intItem 1) <;> rfl
    | _ => rfl
  rw [Python.Crosscheck.shardLevels, ← hwhat]
  cases Python.Crosscheck.intList v _ 1 with
  | error e => rfl
  | ok shard =>
      show Except.toOption (if _ then _ else _) = if _ then _ else _
      split_ifs
      · rfl
      · cases Python.Crosscheck.shardLevels what (level + 1) shard vs <;> rfl

theorem typescript_shardLevels (what : TypeScript.JsString) (level : ℕ) (inner : List Double)
    (vs : List TypeScript.JsValue) :
    (TypeScript.Crosscheck.shardLevels what level inner vs).toOption
      = shardLevels (fun v => (TypeScript.Crosscheck.intList v [] 1).toOption)
          (fun shard chunk => (shard.rem chunk).isZero) inner vs := by
  refine toOption_loop (TypeScript.Crosscheck.shardLevels what) (fun a b => rfl)
    (fun _ _ => rfl) (fun level inner v vs => ?_) level inner vs
  have hwhat : ∀ w : TypeScript.JsString, (TypeScript.Crosscheck.intList v w 1).toOption
      = (TypeScript.Crosscheck.intList v [] 1).toOption := by
    intro w
    cases v with
    | arr items =>
        rw [TypeScript.Crosscheck.intList, TypeScript.Crosscheck.intList]
        cases items.mapM (TypeScript.Crosscheck.intItem 1) <;> rfl
    | _ => rfl
  rw [TypeScript.Crosscheck.shardLevels, ← hwhat]
  cases TypeScript.Crosscheck.intList v _ 1 with
  | error e => rfl
  | ok shard =>
      show Except.toOption (if _ then _ else _) = if _ then _ else _
      split_ifs
      · rfl
      · cases TypeScript.Crosscheck.shardLevels what (level + 1) shard vs <;> rfl

theorem rust_shardLevels (what : Rust.RustString) (level : ℕ) (inner : List ℕ)
    (vs : List Rust.Value) :
    (Rust.Crosscheck.shardLevels what level inner vs).toOption
      = shardLevels (fun v => (Rust.Crosscheck.u64List v [] 1).toOption)
          (fun shard chunk => decide (shard % chunk = 0)) inner vs := by
  refine toOption_loop (Rust.Crosscheck.shardLevels what) (fun a b => decide_not)
    (fun _ _ => rfl) (fun level inner v vs => ?_) level inner vs
  have hwhat : ∀ w : Rust.RustString,
      (Rust.Crosscheck.u64List v w 1).toOption = (Rust.Crosscheck.u64List v [] 1).toOption := by
    intro w
    cases v with
    | arr items =>
        rw [Rust.Crosscheck.u64List, Rust.Crosscheck.u64List]
        cases items.mapM (Rust.Crosscheck.u64Item 1) <;> rfl
    | _ => rfl
  rw [Rust.Crosscheck.shardLevels, ← hwhat]
  cases Rust.Crosscheck.u64List v _ 1 with
  | error e => rfl
  | ok shard =>
      show Except.toOption (if _ then _ else _) = if _ then _ else _
      split_ifs
      · rfl
      · cases Rust.Crosscheck.shardLevels what (level + 1) shard vs <;> rfl

/-- A field that may be missing. -/
def readOption {V : Type} (read : Json.Raw → Option V) : Option Json.Raw → Option (Option V)
  | none => some none
  | some raw => (read raw).map some

/-- What the `_shards` of Python accepts. -/
theorem python_shards (chunks : List ℤ) (shards : Option Json.Raw) (what : Python.PyString) :
    ((readOption Python.Crosscheck.readValue shards).bind fun v =>
        (Python.Crosscheck.shards v chunks what).toOption) = shardTokens? chunks shards := by
  have hother : ∀ v : Python.PyValue, v.kind ≠ .arr →
      (Python.Crosscheck.shards (some v) chunks what).toOption = none := by
    intro v hv
    cases v with
    | arr vs => exact absurd rfl hv
    | _ => rfl
  cases shards with
  | none => rfl
  | some raw =>
      cases raw with
      | arr xs =>
          have hints : (fun x => (Python.Crosscheck.readValue x).bind fun v =>
              (Python.Crosscheck.intList v [] 1).toOption) = intTokens? 1 :=
            funext fun x => python_intList (by norm_num) x []
          rw [readOption, python_readValue_arr, Option.bind_map, Option.bind_map, shardTokens?, ← hints,
            ← shardLevels_read]
          exact Option.bind_congr fun vs _ => python_shardLevels what 0 chunks vs
      | _ =>
          rw [readOption, Option.bind_map]
          exact bind_eq_none_of_kind python_kind hother (by simp [Json.kind])

/-- The remainder of two extents as numbers. -/
theorem isZero_rem_extents {a b : ℤ} (ha : 1 ≤ a ∧ a ≤ 2 ^ 53 - 1) (hb : 1 ≤ b ∧ b ≤ 2 ^ 53 - 1) :
    ((Double.ofInt a).rem (Double.ofInt b)).isZero = decide (a % b = 0) := by
  obtain ⟨m, rfl⟩ := Int.eq_ofNat_of_zero_le (show 0 ≤ a by omega)
  obtain ⟨n, rfl⟩ := Int.eq_ofNat_of_zero_le (show 0 ≤ b by omega)
  rw [Double.isZero_rem_ofInt (by omega) (by omega) (by omega)]
  exact decide_eq_decide.2 (by rw [← Int.natCast_mod, Int.natCast_eq_zero])

/-- What the `shardShapes` of TypeScript accepts. -/
theorem typescript_shardShapes {chunks : List ℤ} (hchunks : ∀ c ∈ chunks, 1 ≤ c ∧ c ≤ 2 ^ 53 - 1)
    (shards : Option Json.Raw) (what : TypeScript.JsString) :
    ((readOption TypeScript.Crosscheck.readValue shards).bind fun v =>
        (TypeScript.Crosscheck.shardShapes v (chunks.map Double.ofInt) what).toOption)
      = (shardTokens? chunks shards).map (·.map (·.map Double.ofInt)) := by
  have hother : ∀ v : TypeScript.JsValue, v.kind ≠ .arr →
      (TypeScript.Crosscheck.shardShapes (some v) (chunks.map Double.ofInt) what).toOption = none := by
    intro v hv
    cases v with
    | arr vs => exact absurd rfl hv
    | _ => rfl
  cases shards with
  | none => rfl
  | some raw =>
      cases raw with
      | arr xs =>
          have hints : (fun x => (TypeScript.Crosscheck.readValue x).bind fun v =>
              (TypeScript.Crosscheck.intList v [] 1).toOption)
              = fun x => (intTokens? 1 x).map (·.map Double.ofInt) :=
            funext fun x => typescript_intList 1 x []
          rw [readOption, typescript_readValue_arr, Option.bind_map, Option.bind_map, shardTokens?,
            ← shardLevels_map (fun x is h => intTokens?_range h) Double.ofInt
              (fun shard chunk => (shard.rem chunk).isZero) (fun a b => isZero_rem_extents) hchunks,
            ← hints, ← shardLevels_read]
          exact Option.bind_congr fun vs _ => typescript_shardLevels what 0 _ vs
      | _ =>
          rw [readOption, Option.bind_map]
          exact bind_eq_none_of_kind typescript_kind hother (by simp [Json.kind])

/-- What the `shard_shapes` of Rust accepts. -/
theorem rust_shardShapes {chunks : List ℤ} (hchunks : ∀ c ∈ chunks, 1 ≤ c ∧ c ≤ 2 ^ 53 - 1)
    (shards : Option Json.Raw) (what : Rust.RustString) :
    ((readOption Rust.Crosscheck.readValue shards).bind fun v =>
        (Rust.Crosscheck.shardShapes v (chunks.map Int.toNat) what).toOption)
      = (shardTokens? chunks shards).map (·.map (·.map Int.toNat)) := by
  have hother : ∀ v : Rust.Value, v.kind ≠ .arr →
      (Rust.Crosscheck.shardShapes (some v) (chunks.map Int.toNat) what).toOption = none := by
    intro v hv
    cases v with
    | arr vs => exact absurd rfl hv
    | _ => rfl
  cases shards with
  | none => rfl
  | some raw =>
      cases raw with
      | arr xs =>
          have hints : (fun x => (Rust.Crosscheck.readValue x).bind fun v =>
              (Rust.Crosscheck.u64List v [] 1).toOption)
              = fun x => (intTokens? 1 x).map (·.map Int.toNat) :=
            funext fun x => rust_positiveList x []
          have hdiv : ∀ a b : ℤ, 1 ≤ a ∧ a ≤ 2 ^ 53 - 1 → 1 ≤ b ∧ b ≤ 2 ^ 53 - 1 →
              decide (a.toNat % b.toNat = 0) = decide (a % b = 0) := by
            intro a b ha hb
            refine decide_eq_decide.2 ?_
            rw [← Int.natCast_eq_zero, Int.natCast_mod, Int.toNat_of_nonneg (by omega),
              Int.toNat_of_nonneg (by omega)]
          rw [readOption, rust_readValue_arr, Option.bind_map, Option.bind_map, shardTokens?,
            ← shardLevels_map (fun x is h => intTokens?_range h) Int.toNat
              (fun shard chunk => decide (shard % chunk = 0)) hdiv hchunks, ← hints, ← shardLevels_read]
          exact Option.bind_congr fun vs _ => rust_shardLevels what 0 _ vs
      | _ =>
          rw [readOption, Option.bind_map]
          exact bind_eq_none_of_kind rust_kind hother (by simp [Json.kind])

end Conformance.Crosscheck
