import ZarrInline.Text.Decoding

/-!
# Unicode encodings

Code points are natural numbers.  UTF-16 code units are `UInt16`, UTF-8 code
units `UInt8`.

A sequence of code units has a code-point reading even when it holds unpaired
surrogates: a surrogate that is not part of a pair is read as itself
(`codePoints`).  Reading is inverse to `encodeUtf16` (`encodeUtf16_codePoints`),
and it is the other way round on well-formed texts (`codePoints_encodeUtf16`).

`decodeUtf8` is the strict decoder: no overlong form, nothing past U+10FFFF, and
a surrogate only when the caller passes it.  It accepts exactly the encodings
(`decodeUtf8_encodeUtf8`, `encodeUtf8_of_decodeUtf8`).
-/

namespace Unicode

/-! ## Code points -/

/-- The first half of a surrogate pair. -/
def IsHigh (c : ℕ) : Prop := 0xD800 ≤ c ∧ c < 0xDC00

/-- The second half of a surrogate pair. -/
def IsLow (c : ℕ) : Prop := 0xDC00 ≤ c ∧ c < 0xE000

/-- A surrogate code point. -/
def IsSurrogate (c : ℕ) : Prop := 0xD800 ≤ c ∧ c < 0xE000

/-- A Unicode scalar value. -/
def IsScalar (c : ℕ) : Prop := c < 0x110000 ∧ ¬ IsSurrogate c

instance : DecidablePred IsHigh := fun _ => inferInstanceAs (Decidable (_ ∧ _))
instance : DecidablePred IsLow := fun _ => inferInstanceAs (Decidable (_ ∧ _))
instance : DecidablePred IsSurrogate := fun _ => inferInstanceAs (Decidable (_ ∧ _))
instance : DecidablePred IsScalar := fun _ => inferInstanceAs (Decidable (_ ∧ _))

theorem isScalar_of_lt {c : ℕ} (h : c < 0xD800) : IsScalar c := by
  simp only [IsScalar, IsSurrogate]
  omega

/-- The code point of a surrogate pair. -/
def combine (hi lo : ℕ) : ℕ := 0x10000 + (hi - 0xD800) * 0x400 + (lo - 0xDC00)

/-! ## UTF-16 -/

/-- The code units of one code point; a surrogate stands for itself. -/
def encodeUnits (c : ℕ) : List UInt16 :=
  if c < 0x10000 then [.ofNat c]
  else [.ofNat (0xD800 + (c - 0x10000) / 0x400), .ofNat (0xDC00 + (c - 0x10000) % 0x400)]

/-- The code units of a text. -/
def encodeUtf16 (cs : List ℕ) : List UInt16 := cs.flatMap encodeUnits

/-- The code points of a sequence of code units. -/
def codePoints : List UInt16 → List ℕ
  | [] => []
  | [u] => [u.toNat]
  | u :: v :: rest =>
      if IsHigh u.toNat ∧ IsLow v.toNat then combine u.toNat v.toNat :: codePoints rest
      else u.toNat :: codePoints (v :: rest)

/-- No unpaired surrogate. -/
def IsWellFormed (s : List UInt16) : Prop := ∀ c ∈ codePoints s, ¬ IsSurrogate c

instance (s : List UInt16) : Decidable (IsWellFormed s) :=
  inferInstanceAs (Decidable (∀ c ∈ _, _))

@[simp] theorem codePoints_nil : codePoints [] = [] := rfl

@[simp] theorem encodeUtf16_nil : encodeUtf16 [] = [] := rfl

@[simp] theorem encodeUtf16_cons (c : ℕ) (cs : List ℕ) :
    encodeUtf16 (c :: cs) = encodeUnits c ++ encodeUtf16 cs := rfl

@[simp] theorem encodeUtf16_append (cs ds : List ℕ) :
    encodeUtf16 (cs ++ ds) = encodeUtf16 cs ++ encodeUtf16 ds := List.flatMap_append

/-- A code unit that is not the first half of a pair is read alone. -/
theorem codePoints_cons {u : UInt16} {s : List UInt16}
    (h : ¬ (IsHigh u.toNat ∧ ∃ v rest, s = v :: rest ∧ IsLow v.toNat)) :
    codePoints (u :: s) = u.toNat :: codePoints s := by
  cases s with
  | nil => rfl
  | cons v rest =>
      rw [codePoints, if_neg]
      rintro ⟨hu, hv⟩
      exact h ⟨hu, v, rest, rfl, hv⟩

theorem codePoints_cons_of_not_isHigh {u : UInt16} (h : ¬ IsHigh u.toNat) (s : List UInt16) :
    codePoints (u :: s) = u.toNat :: codePoints s :=
  codePoints_cons fun hu => h hu.1

theorem combine_units {hi lo : ℕ} (hh : IsHigh hi) (hl : IsLow lo) :
    0x10000 ≤ combine hi lo ∧ combine hi lo < 0x110000 ∧
      0xD800 + (combine hi lo - 0x10000) / 0x400 = hi ∧
      0xDC00 + (combine hi lo - 0x10000) % 0x400 = lo := by
  unfold IsHigh at hh
  unfold IsLow at hl
  unfold combine
  omega

theorem combine_halves {c : ℕ} (h : 0x10000 ≤ c) :
    combine (0xD800 + (c - 0x10000) / 0x400) (0xDC00 + (c - 0x10000) % 0x400) = c := by
  unfold combine
  omega

/-- Every sequence of code units is the encoding of its code points. -/
theorem encodeUtf16_codePoints (s : List UInt16) : encodeUtf16 (codePoints s) = s := by
  induction s using codePoints.induct with
  | case1 => rfl
  | case2 u =>
      have hu := u.toNat_lt
      simp only [codePoints, encodeUtf16_cons, encodeUnits, if_pos hu, encodeUtf16_nil,
        List.append_nil, UInt16.ofNat_toNat]
  | case3 u v rest h ih =>
      obtain ⟨hge, -, hhi, hlo⟩ := combine_units h.1 h.2
      rw [codePoints, if_pos h, encodeUtf16_cons, encodeUnits, if_neg (by omega), hhi, hlo, ih]
      simp
  | case4 u v rest h ih =>
      have hu := u.toNat_lt
      rw [codePoints, if_neg h, encodeUtf16_cons, encodeUnits, if_pos hu, ih]
      simp

theorem codePoints_lt (s : List UInt16) : ∀ c ∈ codePoints s, c < 0x110000 := by
  induction s using codePoints.induct with
  | case1 => simp
  | case2 u =>
      have hu := u.toNat_lt
      simp [codePoints]
      omega
  | case3 u v rest h ih =>
      have hlt := (combine_units h.1 h.2).2.1
      rw [codePoints, if_pos h]
      simpa using ⟨hlt, ih⟩
  | case4 u v rest h ih =>
      have hu := u.toNat_lt
      rw [codePoints, if_neg h]
      simp only [List.mem_cons, forall_eq_or_imp]
      exact ⟨by omega, ih⟩

theorem codePoints_isScalar {s : List UInt16} (h : IsWellFormed s) :
    ∀ c ∈ codePoints s, IsScalar c :=
  fun c hc => ⟨codePoints_lt s c hc, h c hc⟩

/-- The code units of a scalar value are read back, whatever follows. -/
theorem codePoints_encodeUnits_append {c : ℕ} (hc : IsScalar c) (s : List UInt16) :
    codePoints (encodeUnits c ++ s) = c :: codePoints s := by
  obtain ⟨hlt, hsur⟩ := hc
  simp only [encodeUnits]
  split
  · next h =>
      have htoNat : (UInt16.ofNat c).toNat = c := UInt16.toNat_ofNat_of_lt' h
      have hhigh : ¬ IsHigh (UInt16.ofNat c).toNat := by
        rw [htoNat]
        simp only [IsSurrogate, IsHigh] at hsur ⊢
        omega
      rw [List.singleton_append, codePoints_cons_of_not_isHigh hhigh, htoNat]
  · next h =>
      have hhi : (UInt16.ofNat (0xD800 + (c - 0x10000) / 0x400)).toNat
          = 0xD800 + (c - 0x10000) / 0x400 := UInt16.toNat_ofNat_of_lt' (by rw [UInt16.size]; omega)
      have hlo : (UInt16.ofNat (0xDC00 + (c - 0x10000) % 0x400)).toNat
          = 0xDC00 + (c - 0x10000) % 0x400 := UInt16.toNat_ofNat_of_lt' (by rw [UInt16.size]; omega)
      simp only [List.cons_append, List.nil_append, codePoints, hhi, hlo]
      rw [if_pos (by unfold IsHigh IsLow; omega)]
      rw [combine_halves (by omega)]

theorem codePoints_encodeUtf16_append {cs : List ℕ} (h : ∀ c ∈ cs, IsScalar c)
    (s : List UInt16) : codePoints (encodeUtf16 cs ++ s) = cs ++ codePoints s := by
  induction cs with
  | nil => rfl
  | cons c cs ih =>
      rw [encodeUtf16_cons, List.append_assoc, codePoints_encodeUnits_append (h c (by simp)),
        ih fun d hd => h d (by simp [hd])]
      rfl

/-- A text of scalar values is read back from its code units. -/
theorem codePoints_encodeUtf16 {cs : List ℕ} (h : ∀ c ∈ cs, IsScalar c) :
    codePoints (encodeUtf16 cs) = cs := by
  simpa using codePoints_encodeUtf16_append h []

/-- Reading splits after a well-formed prefix. -/
theorem codePoints_append {s : List UInt16} (h : IsWellFormed s) (t : List UInt16) :
    codePoints (s ++ t) = codePoints s ++ codePoints t := by
  conv_lhs => rw [← encodeUtf16_codePoints s]
  exact codePoints_encodeUtf16_append (codePoints_isScalar h) t

theorem IsWellFormed.append {s t : List UInt16} (hs : IsWellFormed s) (ht : IsWellFormed t) :
    IsWellFormed (s ++ t) := by
  intro c hc
  rw [codePoints_append hs, List.mem_append] at hc
  exact hc.elim (hs c) (ht c)

theorem isWellFormed_encodeUtf16 {cs : List ℕ} (h : ∀ c ∈ cs, IsScalar c) :
    IsWellFormed (encodeUtf16 cs) := by
  intro c hc
  rw [codePoints_encodeUtf16 h] at hc
  exact (h c hc).2

/-- The code units of a text below the surrogates are its code points. -/
theorem codePoints_map_ofNat {cs : List ℕ} (h : ∀ c ∈ cs, c < 0xD800) :
    codePoints (cs.map UInt16.ofNat) = cs := by
  have hmap : cs.map UInt16.ofNat = encodeUtf16 cs := by
    induction cs with
    | nil => rfl
    | cons c cs ih =>
        have hc : c < 0x10000 := (h c (by simp)).trans (by norm_num)
        rw [List.map_cons, encodeUtf16_cons, encodeUnits, if_pos hc,
          ih fun d hd => h d (by simp [hd])]
        rfl
  rw [hmap, codePoints_encodeUtf16 fun c hc => isScalar_of_lt (h c hc)]

theorem isWellFormed_map_ofNat {cs : List ℕ} (h : ∀ c ∈ cs, c < 0xD800) :
    IsWellFormed (cs.map UInt16.ofNat) := by
  intro c hc
  rw [codePoints_map_ofNat h] at hc
  exact (isScalar_of_lt (h c hc)).2

/-! ## UTF-8 -/

/-- The bytes of one code point. -/
def encodeBytes (c : ℕ) : List UInt8 :=
  if c < 0x80 then [.ofNat c]
  else if c < 0x800 then [.ofNat (0xC0 + c / 0x40), .ofNat (0x80 + c % 0x40)]
  else if c < 0x10000 then
    [.ofNat (0xE0 + c / 0x1000), .ofNat (0x80 + c / 0x40 % 0x40), .ofNat (0x80 + c % 0x40)]
  else
    [.ofNat (0xF0 + c / 0x40000), .ofNat (0x80 + c / 0x1000 % 0x40),
      .ofNat (0x80 + c / 0x40 % 0x40), .ofNat (0x80 + c % 0x40)]

/-- The bytes of a text. -/
def encodeUtf8 (cs : List ℕ) : List UInt8 := cs.flatMap encodeBytes

/-- A code point the decoder lets through: a scalar value, or a surrogate when
`pass` is set. -/
def Passes (pass : Bool) (c : ℕ) : Prop := c < 0x110000 ∧ (pass = true ∨ ¬ IsSurrogate c)

instance (pass : Bool) : DecidablePred (Passes pass) :=
  fun _ => inferInstanceAs (Decidable (_ ∧ _))

/-- A continuation byte. -/
def IsTail (b : UInt8) : Prop := 0x80 ≤ b.toNat ∧ b.toNat < 0xC0

instance : DecidablePred IsTail := fun _ => inferInstanceAs (Decidable (_ ∧ _))

/-- Take one code point off the front of a byte sequence; `pass` lets surrogates
through. -/
def takeUtf8 (pass : Bool) : List UInt8 → Option (ℕ × List UInt8)
  | [] => none
  | a :: rest =>
      if a.toNat < 0x80 then some (a.toNat, rest)
      else if a.toNat < 0xC0 then none
      else if a.toNat < 0xE0 then
        match rest with
        | b :: rest =>
            let c := (a.toNat - 0xC0) * 0x40 + (b.toNat - 0x80)
            if IsTail b ∧ 0x80 ≤ c then some (c, rest) else none
        | _ => none
      else if a.toNat < 0xF0 then
        match rest with
        | b :: b' :: rest =>
            let c := (a.toNat - 0xE0) * 0x1000 + (b.toNat - 0x80) * 0x40 + (b'.toNat - 0x80)
            if IsTail b ∧ IsTail b' ∧ 0x800 ≤ c ∧ Passes pass c then some (c, rest) else none
        | _ => none
      else
        match rest with
        | b :: b' :: b'' :: rest =>
            let c := (a.toNat - 0xF0) * 0x40000 + (b.toNat - 0x80) * 0x1000
              + (b'.toNat - 0x80) * 0x40 + (b''.toNat - 0x80)
            if IsTail b ∧ IsTail b' ∧ IsTail b'' ∧ 0x10000 ≤ c ∧ c < 0x110000 then
              some (c, rest)
            else none
        | _ => none

/-- The strict UTF-8 decoder. -/
def decodeUtf8 (pass : Bool) (bs : List UInt8) : Option (List ℕ) :=
  Decoding.decode (takeUtf8 pass) bs

@[simp] theorem encodeUtf8_nil : encodeUtf8 [] = [] := rfl

@[simp] theorem encodeUtf8_cons (c : ℕ) (cs : List ℕ) :
    encodeUtf8 (c :: cs) = encodeBytes c ++ encodeUtf8 cs := rfl

theorem encodeUtf8_append (cs ds : List ℕ) :
    encodeUtf8 (cs ++ ds) = encodeUtf8 cs ++ encodeUtf8 ds :=
  List.flatMap_append

theorem encodeUtf8_replicate {c : ℕ} {b : UInt8} (h : encodeBytes c = [b]) (n : ℕ) :
    encodeUtf8 (List.replicate n c) = List.replicate n b := by
  induction n with
  | zero => rfl
  | succ n ih =>
      rw [List.replicate_succ, encodeUtf8_cons, h, ih]
      rfl

theorem toNat_ofNat {n : ℕ} (h : n < 256) : (UInt8.ofNat n).toNat = n :=
  UInt8.toNat_ofNat_of_lt' h

theorem encodeBytes_ne_nil (c : ℕ) : encodeBytes c ≠ [] := by
  unfold encodeBytes
  split_ifs <;> simp

/-- Only NUL has a zero byte. -/
theorem zero_notMem_encodeBytes {c : ℕ} (h0 : 0 < c) (hc : c < 0x110000) : 0 ∉ encodeBytes c := by
  have hne : ∀ n : ℕ, 0 < n % 256 → (0 : UInt8) ≠ UInt8.ofNat n := by
    intro n hn heq
    have hnat := congrArg UInt8.toNat heq
    rw [UInt8.toNat_ofNat'] at hnat
    exact hn.ne hnat
  unfold encodeBytes
  split_ifs with h1 h2 h3
  all_goals simp only [List.mem_cons, List.not_mem_nil, or_false, not_or]
  · exact hne _ (by omega)
  · exact ⟨hne _ (by omega), hne _ (by omega)⟩
  · exact ⟨hne _ (by omega), hne _ (by omega), hne _ (by omega)⟩
  · exact ⟨hne _ (by omega), hne _ (by omega), hne _ (by omega), hne _ (by omega)⟩

/-- One encoded code point is taken off, whatever follows. -/
theorem takeUtf8_encodeBytes {pass : Bool} (c : ℕ) (bs : List UInt8) (hc : Passes pass c) :
    takeUtf8 pass (encodeBytes c ++ bs) = some (c, bs) := by
  have hlt := hc.1
  unfold encodeBytes
  split_ifs with h1 h2 h3
  · have ha := toNat_ofNat (n := c) (by omega)
    simp only [List.cons_append, List.nil_append, takeUtf8, ha, if_pos h1]
  · have ha := toNat_ofNat (n := 0xC0 + c / 0x40) (by omega)
    have hb := toNat_ofNat (n := 0x80 + c % 0x40) (by omega)
    have hval : (0xC0 + c / 0x40 - 0xC0) * 0x40 + (0x80 + c % 0x40 - 0x80) = c := by omega
    simp only [List.cons_append, List.nil_append, takeUtf8, IsTail, ha, hb, hval]
    rw [if_neg (by omega), if_neg (by omega), if_pos (by omega), if_pos (by omega)]
  · have ha := toNat_ofNat (n := 0xE0 + c / 0x1000) (by omega)
    have hb := toNat_ofNat (n := 0x80 + c / 0x40 % 0x40) (by omega)
    have hb' := toNat_ofNat (n := 0x80 + c % 0x40) (by omega)
    have hval : (0xE0 + c / 0x1000 - 0xE0) * 0x1000 + (0x80 + c / 0x40 % 0x40 - 0x80) * 0x40
        + (0x80 + c % 0x40 - 0x80) = c := by omega
    simp only [List.cons_append, List.nil_append, takeUtf8, IsTail, ha, hb, hb', hval]
    rw [if_neg (by omega), if_neg (by omega), if_neg (by omega), if_pos (by omega), if_pos]
    exact ⟨by omega, by omega, by omega, hc⟩
  · have ha := toNat_ofNat (n := 0xF0 + c / 0x40000) (by omega)
    have hb := toNat_ofNat (n := 0x80 + c / 0x1000 % 0x40) (by omega)
    have hb' := toNat_ofNat (n := 0x80 + c / 0x40 % 0x40) (by omega)
    have hb'' := toNat_ofNat (n := 0x80 + c % 0x40) (by omega)
    have hval : (0xF0 + c / 0x40000 - 0xF0) * 0x40000 + (0x80 + c / 0x1000 % 0x40 - 0x80) * 0x1000
        + (0x80 + c / 0x40 % 0x40 - 0x80) * 0x40 + (0x80 + c % 0x40 - 0x80) = c := by omega
    simp only [List.cons_append, List.nil_append, takeUtf8, IsTail, ha, hb, hb', hb'', hval]
    rw [if_neg (by omega), if_neg (by omega), if_neg (by omega), if_neg (by omega), if_pos]
    omega

theorem ofNat_of_toNat_eq {b : UInt8} {n : ℕ} (h : n = b.toNat) : UInt8.ofNat n = b := by
  rw [h, UInt8.ofNat_toNat]

theorem not_isSurrogate_of_lt {c : ℕ} (h : c < 0x800) : ¬ IsSurrogate c := by
  unfold IsSurrogate
  omega

theorem not_isSurrogate_of_ge {c : ℕ} (h : 0x10000 ≤ c) : ¬ IsSurrogate c := by
  unfold IsSurrogate
  omega

/-- Only an encoded code point is taken off. -/
theorem takeUtf8_sound {pass : Bool} (bs : List UInt8) (c : ℕ) (rest : List UInt8)
    (h : takeUtf8 pass bs = some (c, rest)) : bs = encodeBytes c ++ rest ∧ Passes pass c := by
  cases bs with
  | nil => cases h
  | cons a bs =>
      have ha := a.toNat_lt
      unfold takeUtf8 at h
      dsimp only at h
      split at h
      · next h1 =>
          obtain ⟨rfl, rfl⟩ := Prod.mk.inj (Option.some.inj h)
          refine ⟨?_, by omega, Or.inr (not_isSurrogate_of_lt (by omega))⟩
          simp [encodeBytes, h1]
      split at h
      · cases h
      split at h
      · split at h
        · next b rest' =>
            split at h
            · next hc =>
                obtain ⟨rfl, rfl⟩ := Prod.mk.inj (Option.some.inj h)
                have hb := hc.1
                unfold IsTail at hb
                refine ⟨?_, by omega, Or.inr (not_isSurrogate_of_lt (by omega))⟩
                rw [encodeBytes, if_neg (by omega), if_pos (by omega),
                  ofNat_of_toNat_eq (b := a) (by omega), ofNat_of_toNat_eq (b := b) (by omega)]
                rfl
            · cases h
        · cases h
      split at h
      · split at h
        · next b b' rest' =>
            split at h
            · next hc =>
                obtain ⟨rfl, rfl⟩ := Prod.mk.inj (Option.some.inj h)
                obtain ⟨hb, hb', hge, hpass⟩ := hc
                unfold IsTail at hb hb'
                refine ⟨?_, hpass⟩
                rw [encodeBytes, if_neg (by omega), if_neg (by omega), if_pos (by omega),
                  ofNat_of_toNat_eq (b := a) (by omega), ofNat_of_toNat_eq (b := b) (by omega),
                  ofNat_of_toNat_eq (b := b') (by omega)]
                rfl
            · cases h
        · cases h
      · split at h
        · next b b' b'' rest' =>
            split at h
            · next hc =>
                obtain ⟨rfl, rfl⟩ := Prod.mk.inj (Option.some.inj h)
                obtain ⟨hb, hb', hb'', hge, hlt⟩ := hc
                unfold IsTail at hb hb' hb''
                refine ⟨?_, hlt, Or.inr (not_isSurrogate_of_ge hge)⟩
                rw [encodeBytes, if_neg (by omega), if_neg (by omega), if_neg (by omega),
                  ofNat_of_toNat_eq (b := a) (by omega), ofNat_of_toNat_eq (b := b) (by omega),
                  ofNat_of_toNat_eq (b := b') (by omega), ofNat_of_toNat_eq (b := b'') (by omega)]
                rfl
            · cases h
        · cases h

/-- Encoded texts decode to themselves. -/
theorem decodeUtf8_encodeUtf8 {pass : Bool} {cs : List ℕ} (h : ∀ c ∈ cs, Passes pass c) :
    decodeUtf8 pass (encodeUtf8 cs) = some cs :=
  Decoding.decode_flatMap encodeBytes_ne_nil takeUtf8_encodeBytes h

/-- Only encodings decode. -/
theorem encodeUtf8_of_decodeUtf8 {pass : Bool} {bs : List UInt8} {cs : List ℕ}
    (h : decodeUtf8 pass bs = some cs) : encodeUtf8 cs = bs ∧ ∀ c ∈ cs, Passes pass c :=
  Decoding.flatMap_of_decode takeUtf8_sound h

end Unicode
