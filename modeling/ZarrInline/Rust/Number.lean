import ZarrInline.Rust.Value

/-!
# Number text in Rust

`es_number_str` takes the digits that `ryu` prints and moves the point to where ECMAScript
writes it.  Whatever the layout of `ryu`, the digits and the exponent it comes down to are
those of the shortest decimal (`esDigits_render`), so the result is the ECMAScript text
(`esNumberStr_eq`).
-/

namespace Rust

open Numeric

/-! ## The source -/

/-- `str::split_once`. -/
def splitOnce (p : ℕ → Bool) : Text → Option (Text × Text)
  | [] => none
  | c :: t => if p c then some ([], t) else (splitOnce p t).map fun s => (c :: s.1, s.2)

/-- `str::parse::<i32>`. -/
def parseI32 (t : Text) : Option ℤ :=
  let (sign, digits) := NumberToken.readExpSign t
  match digits.mapM Numeric.digit? with
  | some (d :: ds) =>
      let i : ℤ := if sign = some true then -(ofDigits (d :: ds) : ℤ) else ofDigits (d :: ds)
      if -2 ^ 31 ≤ i ∧ i < 2 ^ 31 then some i else none
  | _ => none

/-- The mantissa and the exponent of a printed number.  There is none if the `expect` on
the exponent panics. -/
def splitExponent (shortest : Text) : Option (Text × ℤ) :=
  match splitOnce (fun c => c = 'e'.toNat || c = 'E'.toNat) shortest with
  | some (mantissa, exp) => (parseI32 exp).map fun exp => (mantissa, exp)
  | none => some (shortest, 0)

/-- The significant digits of a mantissa, and the exponent of the last one. -/
def significantDigits (mantissa : Text) (expPart : ℤ) : Text × ℤ :=
  let (intPart, fracPart) := (splitOnce (fun c => c = '.'.toNat) mantissa).getD (mantissa, [])
  let digits := intPart ++ fracPart
  let stripped := digits.rdropWhile (· = '0'.toNat)
  let exp := expPart - fracPart.length + (digits.length - stripped.length : ℕ)
  (stripped.dropWhile (· = '0'.toNat), exp)

/-- The significant digits of a printed number, and the exponent of the last one. -/
def esDigits (shortest : Text) : Option (Text × ℤ) :=
  (splitExponent shortest).map fun s => significantDigits s.1 s.2

/-- Digits and the exponent of the last one in ECMAScript notation. -/
def esFormat (digits : Text) (exp : ℤ) : Text :=
  let k : ℤ := digits.length
  let n := exp + k
  if k ≤ n ∧ n ≤ 21 then digits ++ List.replicate (n - k).toNat '0'.toNat
  else if 0 < n ∧ n ≤ 21 then digits.take n.toNat ++ '.'.toNat :: digits.drop n.toNat
  else if -6 < n ∧ n ≤ 0 then
    '0'.toNat :: '.'.toNat :: (List.replicate (-n).toNat '0'.toNat ++ digits)
  else
    let mantissa :=
      if 1 < digits.length then digits.take 1 ++ '.'.toNat :: digits.drop 1 else digits
    let e := n - 1
    mantissa ++
      'e'.toNat :: (if 0 ≤ e then '+'.toNat else '-'.toNat) :: (natDigits e.natAbs).map digitChar

/-- `es_number_str`; there is no text where it panics. -/
def esNumberStr (C : Crates) : Double → Option Text
  | .finite neg u h =>
      if u = 0 then some ['0'.toNat]
      else
        let positive := (esDigits (C.formatFinite (.finite false u h))).map fun d =>
          esFormat d.1 d.2
        if neg then positive.map ('-'.toNat :: ·) else positive
  | _ => none

/-! ## Splitting a token -/

theorem splitOnce_append {p : ℕ → Bool} {a : Text} (ha : ∀ c ∈ a, p c = false) {c : ℕ}
    (hc : p c = true) (b : Text) : splitOnce p (a ++ c :: b) = some (a, b) := by
  induction a with
  | nil => simp [splitOnce, hc]
  | cons d a ih =>
      rw [List.cons_append, splitOnce, if_neg (by simp [ha d (by simp)]),
        ih fun x hx => ha x (by simp [hx])]
      rfl

theorem splitOnce_eq_none {p : ℕ → Bool} {a : Text} (ha : ∀ c ∈ a, p c = false) :
    splitOnce p a = none := by
  induction a with
  | nil => rfl
  | cons d a ih =>
      rw [splitOnce, if_neg (by simp [ha d (by simp)]), ih fun x hx => ha x (by simp [hx])]
      rfl

theorem mapM_digit? (ds : List Digit) : (ds.map digitChar).mapM Numeric.digit? = some ds := by
  induction ds with
  | nil => rfl
  | cons d ds ih => simp [ih]

theorem digitChar_eq_zero {d : Digit} : digitChar d = '0'.toNat ↔ d = 0 := by
  constructor
  · intro h
    have hd : '0'.toNat + d.val = '0'.toNat := h
    exact Fin.ext (by simpa using hd)
  · rintro rfl
    rfl

theorem dropWhile_digitChar (ds : List Digit) :
    (ds.map digitChar).dropWhile (· = '0'.toNat) = (ds.dropWhile (· = 0)).map digitChar := by
  rw [List.dropWhile_map]
  congr 2
  funext d
  exact decide_eq_decide.2 digitChar_eq_zero

theorem rdropWhile_digitChar (ds : List Digit) :
    (ds.map digitChar).rdropWhile (· = '0'.toNat) = (ds.rdropWhile (· = 0)).map digitChar := by
  rw [List.rdropWhile, List.rdropWhile, ← List.map_reverse, dropWhile_digitChar, List.map_reverse]

/-- The exponent of a token parses to its value, if it fits. -/
theorem parseI32_render (x : Exponent) (hlo : -2 ^ 31 ≤ x.value) (hhi : x.value < 2 ^ 31) :
    parseI32 (Exponent.renderSign x.sign ++ x.digits.map digitChar) = some x.value := by
  obtain ⟨upper, sign, ds, hne⟩ := x
  obtain ⟨d, ds, rfl⟩ := List.exists_cons_of_ne_nil hne
  unfold parseI32
  rw [NumberToken.readExpSign_renderSign sign hne]
  simp only [mapM_digit?]
  exact if_pos ⟨hlo, hhi⟩

theorem splitOnce_renderFrac (int frac : List Digit) :
    (splitOnce (fun c => c = '.'.toNat) (int.map digitChar ++ NumberToken.renderFrac frac)).getD
        (int.map digitChar ++ NumberToken.renderFrac frac, [])
      = (int.map digitChar, frac.map digitChar) := by
  have hint : ∀ c ∈ int.map digitChar, decide (c = '.'.toNat) = false := by
    intro c hc
    refine decide_eq_false ?_
    rintro rfl
    exact absurd (NumberToken.digit?_of_mem hc) (by decide)
  cases frac with
  | nil =>
      simp only [NumberToken.renderFrac, List.append_nil]
      rw [splitOnce_eq_none hint]
      rfl
  | cons d ds =>
      rw [NumberToken.renderFrac, splitOnce_append hint (by decide)]
      rfl

theorem splitExponent_render {t : NumberToken} (hneg : t.neg = false)
    (hlo : -2 ^ 31 ≤ t.expValue) (hhi : t.expValue < 2 ^ 31) :
    splitExponent t.render
      = some (t.int.map digitChar ++ NumberToken.renderFrac t.frac, t.expValue) := by
  have hmantissa : ∀ c ∈ t.int.map digitChar ++ NumberToken.renderFrac t.frac,
      (decide (c = 'e'.toNat) || decide (c = 'E'.toNat)) = false := by
    have hdigit : ∀ {ds : List Digit}, ∀ c ∈ ds.map digitChar,
        (decide (c = 'e'.toNat) || decide (c = 'E'.toNat)) = false := by
      intro ds c hc
      have hc' := NumberToken.digit?_of_mem hc
      simp only [Bool.or_eq_false_iff, decide_eq_false_iff_not]
      constructor <;> rintro rfl <;> exact absurd hc' (by decide)
    intro c hc
    rcases List.mem_append.1 hc with hc | hc
    · exact hdigit c hc
    · cases hf : t.frac with
      | nil => rw [hf] at hc; cases hc
      | cons d ds =>
          rw [hf, NumberToken.renderFrac] at hc
          rcases List.mem_cons.1 hc with rfl | hc
          · decide
          · exact hdigit c hc
  have hrender : t.render
      = (t.int.map digitChar ++ NumberToken.renderFrac t.frac) ++ NumberToken.renderExp t.exp := by
    rw [NumberToken.render, hneg]
    simp
  rw [hrender, splitExponent]
  cases hexp : t.exp with
  | none =>
      rw [NumberToken.renderExp, List.append_nil, splitOnce_eq_none hmantissa,
        NumberToken.expValue, hexp]
  | some x =>
      have hvalue : t.expValue = x.value := by rw [NumberToken.expValue, hexp]
      have hletter : (decide ((if x.upper then 'E'.toNat else 'e'.toNat) = 'e'.toNat) ||
          decide ((if x.upper then 'E'.toNat else 'e'.toNat) = 'E'.toNat)) = true := by
        cases x.upper <;> decide
      rw [NumberToken.renderExp, Exponent.render, splitOnce_append hmantissa hletter]
      simp only [parseI32_render x (hvalue ▸ hlo) (hvalue ▸ hhi), Option.map_some, hvalue]

/-! ## The digits of a token -/

/-- Digits stripped of their zeros at both ends are the digits of the decimal they
write. -/
theorem stripped_eq_digits {ds : List Digit} {e : ℤ} {d : Decimal}
    (h : ofDigits ds * (10 : ℚ) ^ e = d.value) :
    (ds.rdropWhile (· = 0)).dropWhile (· = 0) = d.digits ∧
      e + (ds.length - (ds.rdropWhile (· = 0)).length : ℕ) = d.exp := by
  obtain ⟨k, hk⟩ : ∃ k, ds = ds.rdropWhile (· = 0) ++ List.replicate k 0 := by
    refine ⟨(ds.rtakeWhile (· = 0)).length, ?_⟩
    rw [← List.eq_replicate_of_mem (a := (0 : Digit)) (l := ds.rtakeWhile (· = 0)) fun x hx => by
      simpa using List.mem_rtakeWhile_imp hx]
    exact (List.rdropWhile_append_rtakeWhile).symm
  have hlast := List.rdropWhile_last_not (fun x : Digit => decide (x = 0)) ds
  generalize ds.rdropWhile (· = 0) = s at hk hlast
  obtain ⟨j, hj⟩ : ∃ j, s = List.replicate j 0 ++ s.dropWhile (· = 0) := by
    refine ⟨(s.takeWhile (· = 0)).length, ?_⟩
    rw [← List.eq_replicate_of_mem (a := (0 : Digit)) (l := s.takeWhile (· = 0)) fun x hx => by
      simpa using List.mem_takeWhile_imp hx]
    exact List.takeWhile_append_dropWhile.symm
  have hhead := List.head?_dropWhile_not (fun x : Digit => decide (x = 0)) s
  generalize s.dropWhile (· = 0) = r at hj hhead
  have hval : ofDigits ds = ofDigits r * 10 ^ k := by
    rw [hk, hj]
    simp [ofDigits_append]
  have hr : r ≠ [] := by
    rintro rfl
    have hpos := d.value_pos
    rw [← h, hval] at hpos
    simp at hpos
  -- the last digit that is left is not zero, so the digits are those of a decimal
  obtain ⟨init, x, hx⟩ : ∃ init x, r = init ++ [x] := ⟨_, _, (List.dropLast_append_getLast hr).symm⟩
  have hx0 : x ≠ 0 := by
    subst hx hj
    simpa using hlast (by simp)
  have hmod : ofDigits r % 10 ≠ 0 := by
    rw [hx, ofDigits_append]
    have hxv : x.val ≠ 0 := fun hv => hx0 (Fin.ext hv)
    have hlt := x.isLt
    simp [ofDigits_cons]
    omega
  have hd : d = ⟨ofDigits r, e + k, hmod⟩ := by
    refine Decimal.ext_value ?_
    rw [← h, hval, Decimal.value, zpow_add₀ (by norm_num), zpow_natCast]
    push_cast
    ring
  have hlead : NoLeadingZero r := by
    intro h0
    rw [h0] at hhead
    simp at hhead
  rw [hd]
  exact ⟨(natDigits_ofDigits hr hlead).symm, by simp [hk]⟩

/-- The digits found in the text of a positive token are those of its decimal. -/
theorem esDigits_render {t : NumberToken} {d : Decimal} (hneg : t.neg = false)
    (hmag : t.magnitude = d.value) (hlo : -2 ^ 31 ≤ t.expValue) (hhi : t.expValue < 2 ^ 31) :
    esDigits t.render = some (d.digits.map digitChar, d.exp) := by
  obtain ⟨hdigits, hexp⟩ := stripped_eq_digits hmag
  rw [esDigits, splitExponent_render hneg hlo hhi]
  simp only [Option.map_some, significantDigits, splitOnce_renderFrac, ← List.map_append,
    rdropWhile_digitChar, dropWhile_digitChar, List.length_map, hdigits, hexp]

/-- Digits in ECMAScript notation. -/
theorem esFormat_digits (d : Decimal) :
    esFormat (d.digits.map digitChar) d.exp = d.esNotation := by
  have hlen : 0 < d.digits.length := List.length_pos_of_ne_nil d.digits_ne_nil
  have hpoint : d.exp + d.digits.length = d.point := Int.add_comm _ _
  simp only [esFormat, Decimal.esNotation, List.length_map, hpoint]
  have hsign : (if 0 ≤ d.point - 1 then '+'.toNat else '-'.toNat)
      = Decimal.expSign (d.point - 1) := by
    unfold Decimal.expSign
    by_cases hlt : d.point - 1 < 0
    · rw [if_pos hlt, if_neg (by omega)]
    · rw [if_neg hlt, if_pos (by omega)]
  rw [hsign]
  refine if_congr Iff.rfl rfl (if_congr Iff.rfl rfl (if_congr Iff.rfl rfl ?_))
  by_cases hone : d.digits.length = 1
  · rw [if_neg (by omega), if_pos hone]
  · rw [if_pos (by omega), if_neg hone]
    simp only [List.append_assoc, List.cons_append]

/-- The text of a finite number is its ECMAScript text. -/
theorem esNumberStr_eq (C : Crates) {x : Double} (h : x.IsFinite) :
    esNumberStr C x = some x.toText := by
  match x, h with
  | .finite neg u hu, _ =>
      by_cases h0 : u = 0
      · simp [esNumberStr, Double.toText, h0]
      · obtain ⟨t, htext, hneg, hmag, hlo, hhi⟩ := C.formatFinite_spec u h0 hu
        have hpos : (esDigits (C.formatFinite (.finite false u hu))).map (fun d => esFormat d.1 d.2)
            = some (Double.shortest u h0).esNotation := by
          rw [htext, esDigits_render hneg hmag hlo hhi, Option.map_some, esFormat_digits]
        rw [esNumberStr, if_neg h0]
        simp only [hpos, Double.toText, h0, dif_neg, not_false_eq_true]
        cases neg <;> rfl

/-! ## The text of a number -/

/-- The text of a number other than zero is the one that ECMA-262 prescribes for the shortest
decimal that `ryu` prints, with a sign for a negative number.  It has the value that `ryu`
printed and the digits of the decimal, and it reads back as the number. -/
theorem esNumberStr_exact (C : Crates) (u : ℕ) (hu : u ≠ 0) (h : binary64.Representable u) :
    ∃ positive printed,
      esNumberStr C (.finite false u h) = some positive ∧
      esNumberStr C (.finite true u h) = some ('-'.toNat :: positive) ∧
      C.formatFinite (.finite false u h) = NumberToken.render printed ∧
      printed.magnitude = (Double.shortest u hu).value ∧
      (Double.shortest u hu).digits.head? ≠ some 0 ∧
      (Double.shortest u hu).digits.getLast? ≠ some 0 ∧
      (Double.shortest u hu).IsEsText positive ∧
      ∀ neg, ∃ t, NumberToken.ofWord ((if neg then ['-'.toNat] else []) ++ positive) = some t ∧
        t.neg = neg ∧ t.magnitude = printed.magnitude ∧
        (∃ a b, t.int ++ t.frac
            = List.replicate a 0 ++ ((Double.shortest u hu).digits ++ List.replicate b 0) ∧
          (a ≠ 0 → -6 < (Double.shortest u hu).point ∧ (Double.shortest u hu).point ≤ 0) ∧
          (b ≠ 0 → t.IsInteger)) ∧
        Double.ofToken t = .finite neg u h := by
  obtain ⟨printed, htext, -, hmag, -, -⟩ := C.formatFinite_spec u hu h
  have htextOf : ∀ neg, esNumberStr C (.finite neg u h)
      = some ((if neg then ['-'.toNat] else []) ++ (Double.shortest u hu).esNotation) := by
    intro neg
    have hfin : (Double.finite neg u h).IsFinite := trivial
    rw [esNumberStr_eq C hfin, Double.toText, dif_neg hu]
  generalize hs : Double.shortest u hu = s at hmag htextOf ⊢
  refine ⟨s.esNotation, printed, htextOf false, htextOf true, htext, hmag, s.head_digits_ne,
    s.getLast_digits_ne, s.isEsText_esNotation, fun neg => ⟨s.esToken neg, ?_, rfl, ?_, ?_, ?_⟩⟩
  · rw [← Decimal.render_esToken, NumberToken.ofWord_render]
  · rw [Decimal.magnitude_esToken, hmag]
  · refine ⟨_, _, s.significand_esToken neg, fun ha => ?_, fun hb => ?_⟩
    · by_contra hpoint
      exact ha (if_neg hpoint)
    · have hpoint : (s.digits.length : ℤ) ≤ s.point ∧ s.point ≤ 21 := by
        by_contra hpoint
        exact hb (if_neg hpoint)
      have hsum : s.point = s.digits.length + s.exp := rfl
      rw [Decimal.isInteger_esToken]
      omega
  · show Double.ofMagnitude neg (s.esToken neg).magnitude = _
    rw [Decimal.magnitude_esToken, ← hs, Double.ofMagnitude_shortest hu neg h]

theorem esNumberStr_exact_one :
    ∃ positive printed,
      esNumberStr crates (.finite false (1 * scale) (Double.representable_natCast (by norm_num)))
        = some positive ∧
      esNumberStr crates (.finite true (1 * scale) (Double.representable_natCast (by norm_num)))
        = some ('-'.toNat :: positive) ∧
      crates.formatFinite (.finite false (1 * scale) (Double.representable_natCast (by norm_num)))
        = NumberToken.render printed := by
  obtain ⟨positive, printed, hpos, hneg, htext, -⟩ := esNumberStr_exact crates
    (1 * scale) (Nat.mul_ne_zero one_ne_zero scale_pos.ne') (Double.representable_natCast (by norm_num))
  exact ⟨positive, printed, hpos, hneg, htext⟩

end Rust
