import ZarrInline.Numeric.Rounding

/-!
# Decimal digits and JSON number tokens

A number token of RFC 8259 is a sign, an integer part without leading zeros, an
optional fraction and an optional exponent.  `NumberToken` keeps the token as
written, down to the case of its `e` and the presence of a `+`, so that
`NumberToken.render` is its exact text.  `NumberToken.ofWord` reads a token back
(`ofWord_render`) and reads nothing else (`render_ofWord`).

Texts are lists of code points.  Digits are written most significant first.
-/

namespace Numeric

/-- A text, as the list of its code points. -/
abbrev Text := List ℕ

instance (s : Text) (l : List Text) : Decidable (s ∈ l) := List.instDecidableMemOfLawfulBEq s l

/-- A decimal digit. -/
abbrev Digit := Fin 10

instance digitNeZero : NeZero (10 : ℕ) := ⟨Nat.succ_ne_zero 9⟩

/-! ## Digit lists -/

/-- The natural number a digit list writes, most significant digit first. -/
def ofDigits (ds : List Digit) : ℕ := ds.foldl (fun n d => 10 * n + d.val) 0

theorem foldl_digits (ds : List Digit) (n : ℕ) :
    ds.foldl (fun n d => 10 * n + d.val) n = n * 10 ^ ds.length + ofDigits ds := by
  induction ds generalizing n with
  | nil => simp [ofDigits]
  | cons d ds ih =>
      simp only [ofDigits, List.foldl_cons, List.length_cons]
      rw [ih, ih (10 * 0 + d.val)]
      ring

@[simp] theorem ofDigits_nil : ofDigits [] = 0 := rfl

theorem ofDigits_cons (d : Digit) (ds : List Digit) :
    ofDigits (d :: ds) = d * 10 ^ ds.length + ofDigits ds := by
  have := foldl_digits ds (10 * 0 + d.val)
  simpa [ofDigits] using this

theorem ofDigits_append (ds es : List Digit) :
    ofDigits (ds ++ es) = ofDigits ds * 10 ^ es.length + ofDigits es := by
  simp only [ofDigits, List.foldl_append]
  exact foldl_digits es _

@[simp] theorem ofDigits_replicate_zero (n : ℕ) :
    ofDigits (List.replicate n (0 : Digit)) = 0 := by
  induction n with
  | zero => rfl
  | succ n ih => simp [List.replicate_succ, ofDigits_cons, ih]

theorem ofDigits_lt (ds : List Digit) : ofDigits ds < 10 ^ ds.length := by
  induction ds with
  | nil => simp
  | cons d ds ih =>
      rw [ofDigits_cons, List.length_cons, pow_succ]
      have hd := d.isLt
      nlinarith

/-- A digit list with a nonzero first digit writes a number of that length. -/
theorem le_ofDigits {d : Digit} {ds : List Digit} (hd : d ≠ 0) :
    10 ^ ds.length ≤ ofDigits (d :: ds) := by
  have hd1 : 1 ≤ d.val := by
    rcases Nat.eq_zero_or_pos d.val with h | h
    · exact absurd (Fin.ext h) hd
    · exact h
  rw [ofDigits_cons]
  have hpos : 0 < 10 ^ ds.length := by positivity
  nlinarith

/-- The digits of a natural number: no leading zero, except for `0` itself. -/
def natDigits (n : ℕ) : List Digit :=
  if n = 0 then [0] else (Nat.digits 10 n).reverse.map (Fin.ofNat 10)

@[simp] theorem natDigits_zero : natDigits 0 = [0] := rfl

/-- No leading zero unless the list is the single digit `0`. -/
def NoLeadingZero (ds : List Digit) : Prop := ds.head? = some 0 → ds = [0]

instance (ds : List Digit) : Decidable (NoLeadingZero ds) := inferInstanceAs (Decidable (_ → _))

theorem ofDigits_reverse_map (l : List ℕ) (h : ∀ d ∈ l, d < 10) :
    ofDigits (l.reverse.map (Fin.ofNat 10)) = Nat.ofDigits 10 l := by
  induction l with
  | nil => rfl
  | cons d l ih =>
      have hd : d < 10 := h d (by simp)
      rw [List.reverse_cons, List.map_append, ofDigits_append, ih (fun x hx => h x (by simp [hx]))]
      simp [Nat.ofDigits_cons, ofDigits_cons, Fin.ofNat, Nat.mod_eq_of_lt hd]
      ring

@[simp] theorem ofDigits_natDigits (n : ℕ) : ofDigits (natDigits n) = n := by
  by_cases h : n = 0
  · subst h; rfl
  · rw [natDigits, if_neg h, ofDigits_reverse_map _ (fun d hd => Nat.digits_lt_base (by norm_num) hd),
      Nat.ofDigits_digits]

theorem natDigits_ne_nil (n : ℕ) : natDigits n ≠ [] := by
  by_cases h : n = 0
  · subst h; decide
  · simpa [natDigits, h] using Nat.digits_ne_nil_iff_ne_zero.2 h

/-- A digit list is determined by its value and its length. -/
theorem ofDigits_inj {ds es : List Digit} (hlen : ds.length = es.length)
    (h : ofDigits ds = ofDigits es) : ds = es := by
  induction ds generalizing es with
  | nil => exact (List.length_eq_zero_iff.1 hlen.symm).symm
  | cons d ds ih =>
      cases es with
      | nil => simp at hlen
      | cons e es =>
          have hlen' : ds.length = es.length := by simpa using hlen
          rw [ofDigits_cons, ofDigits_cons, hlen'] at h
          have h1 := ofDigits_lt ds
          have h2 := ofDigits_lt es
          rw [hlen'] at h1
          have hpos : 0 < 10 ^ es.length := by positivity
          have hde : d.val = e.val := by
            have hd := congrArg (· / 10 ^ es.length) h
            simpa [Nat.mul_comm _ (10 ^ es.length), Nat.mul_add_div hpos, Nat.div_eq_of_lt h1,
              Nat.div_eq_of_lt h2] using hd
          rw [hde] at h
          rw [Fin.ext hde, ih hlen' (by omega)]

theorem natDigits_noLeadingZero (n : ℕ) : NoLeadingZero (natDigits n) := by
  intro hhead
  by_cases h : n = 0
  · subst h; rfl
  · exfalso
    have hlast := Nat.getLast_digit_ne_zero 10 h
    have hne : Nat.digits 10 n ≠ [] := Nat.digits_ne_nil_iff_ne_zero.2 h
    have hlt := Nat.digits_lt_base (b := 10) (by norm_num) (List.getLast_mem hne)
    simp only [natDigits, if_neg h, List.head?_map, List.head?_reverse,
      List.getLast?_eq_some_getLast hne, Option.map_some, Option.some.injEq] at hhead
    have := congrArg Fin.val hhead
    simp only [Fin.ofNat, Nat.mod_eq_of_lt hlt] at this
    exact hlast this

/-- A digit list without leading zeros is the digit list of its value. -/
theorem natDigits_ofDigits {ds : List Digit} (hne : ds ≠ []) (h : NoLeadingZero ds) :
    natDigits (ofDigits ds) = ds := by
  obtain ⟨d, ds, rfl⟩ := List.exists_cons_of_ne_nil hne
  by_cases hd : d = 0
  · have : d :: ds = [0] := h (by simp [hd])
    rw [this]; rfl
  · obtain ⟨e, es, he⟩ := List.exists_cons_of_ne_nil (natDigits_ne_nil (ofDigits (d :: ds)))
    have hval : ofDigits (e :: es) = ofDigits (d :: ds) := by rw [← he, ofDigits_natDigits]
    have hle := @le_ofDigits _ ds hd
    have he0 : e ≠ 0 := by
      rintro rfl
      have hz : natDigits (ofDigits (d :: ds)) = [0] :=
        natDigits_noLeadingZero _ (by rw [he]; rfl)
      have : ofDigits (d :: ds) = 0 := by rw [← ofDigits_natDigits (ofDigits (d :: ds)), hz]; rfl
      have hpos : 0 < 10 ^ ds.length := by positivity
      omega
    have hle' := @le_ofDigits _ es he0
    have hlt := ofDigits_lt (d :: ds)
    have hlt' := ofDigits_lt (e :: es)
    have h1 : es.length < ds.length + 1 := by
      have : 10 ^ es.length < 10 ^ (ds.length + 1) := by simpa using (hval ▸ hle').trans_lt hlt
      exact (Nat.pow_lt_pow_iff_right (by norm_num)).1 this
    have h2 : ds.length < es.length + 1 := by
      have : 10 ^ ds.length < 10 ^ (es.length + 1) := by simpa using (hval.symm ▸ hle).trans_lt hlt'
      exact (Nat.pow_lt_pow_iff_right (by norm_num)).1 this
    rw [he]
    exact ofDigits_inj (by simp; omega) hval

/-! ## Digit text -/

/-- The code point of a digit. -/
def digitChar (d : Digit) : ℕ := '0'.toNat + d

/-- The digit a code point writes, if any. -/
def digit? (c : ℕ) : Option Digit :=
  if h : '0'.toNat ≤ c ∧ c ≤ '9'.toNat then
    some ⟨c - '0'.toNat, by simp at h ⊢; omega⟩
  else none

@[simp] theorem digit?_digitChar (d : Digit) : digit? (digitChar d) = some d := by
  have hd := d.isLt
  have h : '0'.toNat ≤ digitChar d ∧ digitChar d ≤ '9'.toNat := by
    simp [digitChar]; omega
  rw [digit?, dif_pos h]
  simp [digitChar]

theorem digitChar_of_digit? {c : ℕ} {d : Digit} (h : digit? c = some d) : digitChar d = c := by
  unfold digit? at h
  split at h
  · next hc =>
      obtain rfl := Option.some.inj h
      simp [digitChar] at hc ⊢
      omega
  · cases h

/-- A code point that starts no digit. -/
def NoDigit (t : Text) : Prop := ∀ c rest, t = c :: rest → digit? c = none

@[simp] theorem noDigit_nil : NoDigit [] := by
  intro c rest h; cases h

@[simp] theorem noDigit_cons (c : ℕ) (t : Text) : NoDigit (c :: t) ↔ digit? c = none := by
  constructor
  · intro h; exact h c t rfl
  · rintro h c' t' heq
    cases heq
    exact h

/-- The longest run of digits at the start of a text, and what follows. -/
def takeDigits : Text → List Digit × Text
  | [] => ([], [])
  | c :: t =>
      match digit? c with
      | some d => (d :: (takeDigits t).1, (takeDigits t).2)
      | none => ([], c :: t)

theorem takeDigits_append (ds : List Digit) {t : Text} (ht : NoDigit t) :
    takeDigits (ds.map digitChar ++ t) = (ds, t) := by
  induction ds with
  | nil =>
      cases t with
      | nil => rfl
      | cons c t => simp [takeDigits, (noDigit_cons c t).1 ht]
  | cons d ds ih => simp [takeDigits, ih]

theorem takeDigits_sound (t : Text) :
    t = (takeDigits t).1.map digitChar ++ (takeDigits t).2 ∧ NoDigit (takeDigits t).2 := by
  induction t with
  | nil => simp [takeDigits]
  | cons c t ih =>
      rw [takeDigits]
      split
      · next d hd => exact ⟨by simp [digitChar_of_digit? hd, ← ih.1], ih.2⟩
      · next hd => simp [hd]

/-! ## Number tokens -/

/-- The exponent of a number token, as written. -/
structure Exponent where
  /-- Written `E` and not `e`. -/
  upper : Bool
  /-- The sign, if one is written: `true` for `-`. -/
  sign : Option Bool
  /-- The exponent digits, leading zeros included. -/
  digits : List Digit
  digits_ne : digits ≠ []
deriving DecidableEq

/-- A number token, as written. -/
structure NumberToken where
  /-- A leading `-`. -/
  neg : Bool
  /-- The integer part. -/
  int : List Digit
  /-- The digits after the `.`, empty when there is no fraction. -/
  frac : List Digit
  /-- The exponent, if one is written. -/
  exp : Option Exponent
  int_ne : int ≠ []
  int_lead : NoLeadingZero int
deriving DecidableEq

namespace Exponent

/-- The text of an optional sign. -/
def renderSign : Option Bool → Text
  | none => []
  | some true => ['-'.toNat]
  | some false => ['+'.toNat]

/-- The text of an exponent. -/
def render (x : Exponent) : Text :=
  (if x.upper then 'E'.toNat else 'e'.toNat) :: (renderSign x.sign ++ x.digits.map digitChar)

/-- The integer an exponent writes. -/
def value (x : Exponent) : ℤ :=
  if x.sign = some true then -(ofDigits x.digits : ℤ) else ofDigits x.digits

end Exponent

namespace NumberToken

/-- The text of a fraction. -/
def renderFrac : List Digit → Text
  | [] => []
  | d :: ds => '.'.toNat :: (d :: ds).map digitChar

/-- The text of an optional exponent. -/
def renderExp : Option Exponent → Text
  | none => []
  | some x => x.render

/-- The text of a token. -/
def render (t : NumberToken) : Text :=
  (if t.neg then ['-'.toNat] else []) ++
    (t.int.map digitChar ++ (renderFrac t.frac ++ renderExp t.exp))

/-- The characters of a token are signs, letters and digits. -/
theorem forall_mem_render {P : ℕ → Prop} (t : NumberToken)
    (hsign : ∀ c ∈ ['-'.toNat, '+'.toNat, '.'.toNat, 'e'.toNat, 'E'.toNat], P c)
    (hdigit : ∀ d : Digit, P (digitChar d)) : ∀ c ∈ t.render, P c := by
  have hdigits : ∀ ds : List Digit, ∀ c ∈ ds.map digitChar, P c := by
    intro ds c hc
    obtain ⟨d, -, rfl⟩ := List.mem_map.1 hc
    exact hdigit d
  intro c hc
  simp only [render, List.mem_append] at hc
  rcases hc with hc | hc | hc | hc
  · split at hc
    · exact hsign c (by simp_all)
    · cases hc
  · exact hdigits _ c hc
  · cases hfrac : t.frac with
    | nil => simp [hfrac, renderFrac] at hc
    | cons d ds =>
        rw [hfrac, renderFrac, List.mem_cons] at hc
        rcases hc with rfl | hc
        · exact hsign _ (by simp)
        · exact hdigits _ c hc
  · cases hexp : t.exp with
    | none => simp [hexp, renderExp] at hc
    | some x =>
        rw [hexp, renderExp, Exponent.render, List.mem_cons, List.mem_append] at hc
        rcases hc with rfl | hc | hc
        · split <;> exact hsign _ (by simp)
        · rcases x with ⟨upper, _ | _ | _, ds, hne⟩ <;>
            simp only [Exponent.renderSign, List.not_mem_nil, List.mem_singleton] at hc <;>
            subst hc <;> exact hsign _ (by simp)
        · exact hdigits _ c hc

theorem lt_of_mem_render (t : NumberToken) : ∀ c ∈ t.render, c < 128 := by
  refine forall_mem_render t (by decide) fun d => ?_
  revert d
  decide

theorem pos_of_mem_render (t : NumberToken) : ∀ c ∈ t.render, 0 < c := by
  refine forall_mem_render t (by decide) fun d => ?_
  revert d
  decide

/-- No `.`, `e` or `E`. -/
def IsInteger (t : NumberToken) : Prop := t.frac = [] ∧ t.exp = none

instance (t : NumberToken) : Decidable t.IsInteger := inferInstanceAs (Decidable (_ ∧ _))

/-- The integer a token without fraction and exponent writes. -/
def intValue (t : NumberToken) : ℤ := if t.neg then -(ofDigits t.int : ℤ) else ofDigits t.int

/-- The exponent of a token, `0` when none is written. -/
def expValue (t : NumberToken) : ℤ :=
  match t.exp with
  | none => 0
  | some x => x.value

/-- The absolute value of the rational a token writes. -/
def magnitude (t : NumberToken) : ℚ :=
  ofDigits (t.int ++ t.frac) * (10 : ℚ) ^ (t.expValue - t.frac.length)

theorem magnitude_nonneg (t : NumberToken) : 0 ≤ t.magnitude := by
  unfold magnitude; positivity

theorem natAbs_intValue (t : NumberToken) : t.intValue.natAbs = ofDigits t.int := by
  simp only [intValue]
  split <;> simp

theorem magnitude_of_isInteger {t : NumberToken} (h : t.IsInteger) :
    t.magnitude = (t.intValue.natAbs : ℚ) := by
  obtain ⟨hf, he⟩ := h
  rw [natAbs_intValue]
  simp [magnitude, hf, he, expValue]

/-- The token of an integer: its digits, with a `-` when it is negative. -/
def ofInt (i : ℤ) : NumberToken where
  neg := decide (i < 0)
  int := natDigits i.natAbs
  frac := []
  exp := none
  int_ne := natDigits_ne_nil _
  int_lead := natDigits_noLeadingZero _

@[simp] theorem isInteger_ofInt (i : ℤ) : (ofInt i).IsInteger := ⟨rfl, rfl⟩

@[simp] theorem intValue_ofInt (i : ℤ) : (ofInt i).intValue = i := by
  simp only [intValue, ofInt, ofDigits_natDigits, decide_eq_true_eq]
  split <;> omega

/-- An integer token is the token of its value, save for the spelling `-0`. -/
theorem eq_ofInt {t : NumberToken} (h : t.IsInteger) (h0 : t.neg = true → ofDigits t.int ≠ 0) :
    t = ofInt t.intValue := by
  obtain ⟨neg, int, frac, exp, hne, hlead⟩ := t
  obtain ⟨rfl, rfl⟩ := h
  have hint : natDigits (ofDigits int) = int := natDigits_ofDigits hne hlead
  cases neg with
  | false => simp [ofInt, intValue, hint]
  | true =>
      have : ofDigits int ≠ 0 := h0 rfl
      simp [ofInt, intValue, hint]
      omega

/-! ### Reading a token -/

/-- The optional sign at the start of a text. -/
def readSign : Text → Bool × Text
  | [] => (false, [])
  | c :: t => if c = '-'.toNat then (true, t) else (false, c :: t)

/-- The optional fraction at the start of a text; a `.` must be followed by a
digit. -/
def readFrac : Text → Option (List Digit × Text)
  | [] => some ([], [])
  | c :: t =>
      if c = '.'.toNat then
        match takeDigits t with
        | ([], _) => none
        | (d :: ds, rest) => some (d :: ds, rest)
      else some ([], c :: t)

/-- The optional sign of an exponent. -/
def readExpSign : Text → Option Bool × Text
  | [] => (none, [])
  | c :: t =>
      if c = '-'.toNat then (some true, t)
      else if c = '+'.toNat then (some false, t)
      else (none, c :: t)

/-- The optional exponent that ends a token. -/
def readExp : Text → Option (Option Exponent)
  | [] => some none
  | c :: t =>
      if c = 'e'.toNat ∨ c = 'E'.toNat then
        let (sign, t) := readExpSign t
        match takeDigits t with
        | (ds, []) => if h : ds ≠ [] then some (some ⟨c = 'E'.toNat, sign, ds, h⟩) else none
        | _ => none
      else none

/-- Read a whole word as a number token. -/
def ofWord (w : Text) : Option NumberToken :=
  let (neg, t) := readSign w
  let (int, t) := takeDigits t
  if h : int ≠ [] ∧ NoLeadingZero int then
    match readFrac t with
    | none => none
    | some (frac, t) =>
        match readExp t with
        | none => none
        | some exp => some ⟨neg, int, frac, exp, h.1, h.2⟩
  else none

theorem noDigit_renderExp (x : Option Exponent) : NoDigit (renderExp x) := by
  cases x with
  | none => simp [renderExp]
  | some x =>
      simp only [renderExp, Exponent.render, noDigit_cons]
      split <;> decide

theorem noDigit_renderFrac (ds : List Digit) {t : Text} (ht : NoDigit t) :
    NoDigit (renderFrac ds ++ t) := by
  cases ds with
  | nil => simpa [renderFrac] using ht
  | cons d ds =>
      simp only [renderFrac, List.cons_append, noDigit_cons]
      decide

theorem digitChar_ne {d : Digit} {c : ℕ} (h : digit? c = none) : digitChar d ≠ c := by
  rintro rfl
  simp at h

@[simp] theorem digitChar_ne_minus (d : Digit) : digitChar d ≠ 45 := digitChar_ne (by decide)

@[simp] theorem digitChar_ne_plus (d : Digit) : digitChar d ≠ 43 := digitChar_ne (by decide)

theorem readExpSign_renderSign (sign : Option Bool) {ds : List Digit} (hne : ds ≠ []) :
    readExpSign (Exponent.renderSign sign ++ ds.map digitChar) = (sign, ds.map digitChar) := by
  rcases sign with _ | _ | _
  · obtain ⟨d, ds, rfl⟩ := List.exists_cons_of_ne_nil hne
    simp [Exponent.renderSign, readExpSign]
  · simp [Exponent.renderSign, readExpSign]
  · simp [Exponent.renderSign, readExpSign]

theorem readExp_renderExp (x : Option Exponent) : readExp (renderExp x) = some x := by
  cases x with
  | none => rfl
  | some x =>
      obtain ⟨upper, sign, ds, hne⟩ := x
      have htake := takeDigits_append ds noDigit_nil
      rw [List.append_nil] at htake
      have hsign := readExpSign_renderSign sign hne
      cases upper <;>
        simp only [renderExp, Exponent.render, readExp, hsign, htake] <;>
        simp [hne]

theorem readFrac_renderFrac (ds : List Digit) {t : Text} (ht : NoDigit t)
    (hdot : ∀ c rest, t = c :: rest → c ≠ '.'.toNat) :
    readFrac (renderFrac ds ++ t) = some (ds, t) := by
  cases ds with
  | nil =>
      cases t with
      | nil => rfl
      | cons c t =>
          have hc := hdot c t rfl
          simp only [renderFrac, List.nil_append, readFrac, if_neg hc]
  | cons d ds =>
      have htake := takeDigits_append (d :: ds) ht
      simp only [renderFrac, List.cons_append] at htake ⊢
      simp only [readFrac, if_true, htake]

theorem renderExp_ne_dot (x : Option Exponent) (c : ℕ) (rest : Text)
    (h : renderExp x = c :: rest) : c ≠ '.'.toNat := by
  cases x with
  | none => cases h
  | some x =>
      simp only [renderExp, Exponent.render, List.cons.injEq] at h
      rw [← h.1]
      split <;> decide

theorem readSign_render (t : NumberToken) :
    readSign t.render = (t.neg, t.int.map digitChar ++ (renderFrac t.frac ++ renderExp t.exp)) := by
  obtain ⟨neg, int, frac, exp, hne, hlead⟩ := t
  cases neg with
  | true => simp [render, readSign]
  | false =>
      obtain ⟨d, ds, rfl⟩ := List.exists_cons_of_ne_nil hne
      simp [render, readSign]

theorem digit?_of_mem {ds : List Digit} {c : ℕ} (h : c ∈ ds.map digitChar) : (digit? c).isSome := by
  obtain ⟨d, -, rfl⟩ := List.mem_map.1 h
  simp

/-- After its sign, the text of a token is digits if and only if the token is an integer. -/
theorem all_digits_render (t : NumberToken) :
    (!(readSign t.render).2.isEmpty && (readSign t.render).2.all fun c => (digit? c).isSome)
      = decide t.IsInteger := by
  have hall : ∀ ds : List Digit, (ds.map digitChar).all (fun c => (digit? c).isSome) = true := by
    intro ds
    rw [List.all_eq_true]
    exact fun c hc => digit?_of_mem hc
  have hint : (t.int.map digitChar).isEmpty = false := by simp [t.int_ne]
  have hdot : (digit? '.'.toNat).isSome = false := by decide
  have hletter : ∀ b : Bool, (digit? (if b then 'E'.toNat else 'e'.toNat)).isSome = false := by decide
  rw [readSign_render, Bool.eq_iff_iff, decide_eq_true_eq, IsInteger]
  dsimp only
  cases t.frac with
  | cons d ds =>
      simp only [renderFrac, List.all_append, List.all_cons, List.cons_append, hdot]
      simp
  | nil =>
      cases t.exp with
      | none =>
          simp only [renderFrac, renderExp, List.append_nil, hint, hall]
          simp
      | some x =>
          simp only [renderFrac, renderExp, Exponent.render, List.nil_append, List.all_append,
            List.all_cons, hletter]
          simp

/-- Reading the text of a token gives the token. -/
theorem ofWord_render (t : NumberToken) : ofWord t.render = some t := by
  have hsign := readSign_render t
  obtain ⟨neg, int, frac, exp, hne, hlead⟩ := t
  have hexp := noDigit_renderExp exp
  have hfrac := readFrac_renderFrac frac hexp (renderExp_ne_dot exp)
  have hint := takeDigits_append int (noDigit_renderFrac frac hexp)
  simp only [ofWord, hsign, hint]
  rw [dif_pos ⟨hne, hlead⟩]
  simp only [hfrac, readExp_renderExp]

theorem readSign_sound (w : Text) :
    w = (if (readSign w).1 then ['-'.toNat] else []) ++ (readSign w).2 := by
  cases w with
  | nil => rfl
  | cons c t =>
      simp only [readSign]
      split <;> simp_all

theorem readFrac_sound {t rest : Text} {ds : List Digit} (h : readFrac t = some (ds, rest)) :
    t = renderFrac ds ++ rest := by
  cases t with
  | nil => simp only [readFrac, Option.some.injEq, Prod.mk.injEq] at h; simp [← h.1, ← h.2, renderFrac]
  | cons c t =>
      simp only [readFrac] at h
      split at h
      · next hc =>
          have hsound := (takeDigits_sound t).1
          split at h
          · cases h
          · next d ds' rest' heq =>
              simp only [Option.some.injEq, Prod.mk.injEq] at h
              obtain ⟨rfl, rfl⟩ := h
              rw [heq] at hsound
              rw [hsound, hc]
              simp [renderFrac]
      · simp only [Option.some.injEq, Prod.mk.injEq] at h
        simp [← h.1, ← h.2, renderFrac]

theorem readExpSign_sound (t : Text) :
    t = Exponent.renderSign (readExpSign t).1 ++ (readExpSign t).2 := by
  cases t with
  | nil => rfl
  | cons c t =>
      simp only [readExpSign]
      split_ifs with h1 h2
      · simp [h1, Exponent.renderSign]
      · simp [h2, Exponent.renderSign]
      · rfl

theorem readExp_sound {t : Text} {x : Option Exponent} (h : readExp t = some x) :
    t = renderExp x := by
  cases t with
  | nil => simp only [readExp, Option.some.injEq] at h; simp [← h, renderExp]
  | cons c t =>
      simp only [readExp] at h
      split at h
      · next hc =>
          have hsign := readExpSign_sound t
          have hdig := (takeDigits_sound (readExpSign t).2).1
          split at h
          · next ds heq =>
              rw [heq, List.append_nil] at hdig
              split at h
              · simp only [Option.some.injEq] at h
                subst h
                have hletter : c = if c = 'E'.toNat then 'E'.toNat else 'e'.toNat := by
                  rcases hc with rfl | rfl <;> rfl
                simp only [renderExp, Exponent.render, ← hdig, ← hsign, decide_eq_true_eq]
                rw [← hletter]
              · cases h
          · cases h
      · cases h

/-- A word read as a token is the text of that token. -/
theorem render_ofWord {w : Text} {t : NumberToken} (h : ofWord w = some t) : w = t.render := by
  have hsign := readSign_sound w
  have hint := (takeDigits_sound (readSign w).2).1
  simp only [ofWord] at h
  split at h
  · split at h
    · cases h
    · next frac rest hfrac =>
        split at h
        · cases h
        · next exp hexp =>
            obtain rfl := Option.some.inj h
            rw [render, ← readExp_sound hexp, ← readFrac_sound hfrac, ← hint, ← hsign]
  · cases h

end NumberToken

end Numeric
