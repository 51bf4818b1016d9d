import Mathlib

/-!
# Base64

The standard alphabet of RFC 4648 §4 with required padding.  Texts are code
points.  `Base64.decode` takes the strict grammar: groups of four symbols, of
which only the last may be padded, as `XX==` or `XXX=`.  Bits left over before
the padding may be anything.  The encoder sets them to zero, and what it writes
decodes to the bytes it was given (`decode_encode`).
-/

namespace Base64

/-- The symbol of a six-bit value. -/
def symbol (v : ℕ) : ℕ :=
  if v < 26 then 'A'.toNat + v
  else if v < 52 then 'a'.toNat + (v - 26)
  else if v < 62 then '0'.toNat + (v - 52)
  else if v = 62 then '+'.toNat
  else '/'.toNat

/-- The six-bit value of a symbol. -/
def sextet? (c : ℕ) : Option ℕ :=
  if 'A'.toNat ≤ c ∧ c ≤ 'Z'.toNat then some (c - 'A'.toNat)
  else if 'a'.toNat ≤ c ∧ c ≤ 'z'.toNat then some (c - 'a'.toNat + 26)
  else if '0'.toNat ≤ c ∧ c ≤ '9'.toNat then some (c - '0'.toNat + 52)
  else if c = '+'.toNat then some 62
  else if c = '/'.toNat then some 63
  else none

/-- The padding symbol. -/
def pad : ℕ := '='.toNat

theorem sextet?_symbol {v : ℕ} (h : v < 64) : sextet? (symbol v) = some v := by
  have : ∀ v < 64, sextet? (symbol v) = some v := by decide
  exact this v h

theorem symbol_ne_pad {v : ℕ} (h : v < 64) : symbol v ≠ pad := by
  have : ∀ v < 64, symbol v ≠ pad := by decide
  exact this v h

theorem symbol_lt (v : ℕ) : symbol v < 128 := by
  unfold symbol
  simp
  split_ifs <;> omega

/-- Standard base64 with padding. -/
def encode : List UInt8 → List ℕ
  | [] => []
  | [a] => [symbol (a.toNat / 4), symbol (a.toNat % 4 * 16), pad, pad]
  | [a, b] =>
      [symbol (a.toNat / 4), symbol (a.toNat % 4 * 16 + b.toNat / 16),
        symbol (b.toNat % 16 * 4), pad]
  | a :: b :: c :: rest =>
      symbol (a.toNat / 4) :: symbol (a.toNat % 4 * 16 + b.toNat / 16) ::
        symbol (b.toNat % 16 * 4 + c.toNat / 64) :: symbol (c.toNat % 64) :: encode rest

/-- The bytes of a final group `wx==`. -/
def decodeOne (w x : ℕ) : Option (List UInt8) := do
  let w ← sextet? w
  let x ← sextet? x
  return [.ofNat (w * 4 + x / 16)]

/-- The bytes of a final group `wxy=`. -/
def decodeTwo (w x y : ℕ) : Option (List UInt8) := do
  let w ← sextet? w
  let x ← sextet? x
  let y ← sextet? y
  return [.ofNat (w * 4 + x / 16), .ofNat (x % 16 * 16 + y / 4)]

/-- The bytes of a full group. -/
def decodeThree (w x y z : ℕ) : Option (List UInt8) := do
  let w ← sextet? w
  let x ← sextet? x
  let y ← sextet? y
  let z ← sextet? z
  return [.ofNat (w * 4 + x / 16), .ofNat (x % 16 * 16 + y / 4), .ofNat (y % 4 * 64 + z)]

/-- Strict decoding. -/
def decode : List ℕ → Option (List UInt8)
  | [] => some []
  | w :: x :: y :: z :: rest =>
      if z = pad then
        if rest = [] then if y = pad then decodeOne w x else decodeTwo w x y else none
      else do
        let bytes ← decodeThree w x y z
        let tail ← decode rest
        return bytes ++ tail
  | _ => none

theorem ofNat_eq {b : UInt8} {n : ℕ} (h : n = b.toNat) : UInt8.ofNat n = b := by
  rw [h, UInt8.ofNat_toNat]

/-- What the encoder writes decodes to the bytes it was given. -/
@[simp] theorem decode_encode (bs : List UInt8) : decode (encode bs) = some bs := by
  induction bs using encode.induct with
  | case1 => rfl
  | case2 a =>
      have ha := a.toNat_lt
      have hw := sextet?_symbol (v := a.toNat / 4) (by omega)
      have hx := sextet?_symbol (v := a.toNat % 4 * 16) (by omega)
      simp only [encode, decode, if_true, decodeOne, hw, hx, bind, Option.bind_some, pure]
      rw [ofNat_eq (b := a) (by omega)]
  | case3 a b =>
      have ha := a.toNat_lt
      have hb := b.toNat_lt
      have hw := sextet?_symbol (v := a.toNat / 4) (by omega)
      have hx := sextet?_symbol (v := a.toNat % 4 * 16 + b.toNat / 16) (by omega)
      have hy := sextet?_symbol (v := b.toNat % 16 * 4) (by omega)
      have hpad := symbol_ne_pad (v := b.toNat % 16 * 4) (by omega)
      simp only [encode, decode, if_true, if_neg hpad, decodeTwo, hw, hx, hy, bind,
        Option.bind_some, pure]
      rw [ofNat_eq (b := a) (by omega), ofNat_eq (b := b) (by omega)]
  | case4 a b c rest ih =>
      have ha := a.toNat_lt
      have hb := b.toNat_lt
      have hc := c.toNat_lt
      have hw := sextet?_symbol (v := a.toNat / 4) (by omega)
      have hx := sextet?_symbol (v := a.toNat % 4 * 16 + b.toNat / 16) (by omega)
      have hy := sextet?_symbol (v := b.toNat % 16 * 4 + c.toNat / 64) (by omega)
      have hz := sextet?_symbol (v := c.toNat % 64) (by omega)
      have hpad := symbol_ne_pad (v := c.toNat % 64) (by omega)
      simp only [encode, decode, if_neg hpad, decodeThree, hw, hx, hy, hz, ih, bind,
        Option.bind_some, pure]
      rw [ofNat_eq (b := a) (by omega), ofNat_eq (b := b) (by omega), ofNat_eq (b := c) (by omega)]
      rfl

/-- Encoded texts are ASCII. -/
theorem encode_lt (bs : List UInt8) : ∀ c ∈ encode bs, c < 128 := by
  have hpad : pad < 128 := by decide
  induction bs using encode.induct with
  | case1 => simp [encode]
  | case2 a => simp [encode, symbol_lt, hpad]
  | case3 a b => simp [encode, symbol_lt, hpad]
  | case4 a b c rest ih => simpa [encode, symbol_lt] using ih

theorem lt_of_sextet? {c v : ℕ} (h : sextet? c = some v) : c < 128 := by
  have hbounds : 'Z'.toNat = 90 ∧ 'z'.toNat = 122 ∧ '9'.toNat = 57 ∧ '+'.toNat = 43 ∧
      '/'.toNat = 47 := by decide
  unfold sextet? at h
  split_ifs at h <;> omega

theorem sextets_of_decodeOne {w x : ℕ} {bs : List UInt8} (h : decodeOne w x = some bs) :
    w < 128 ∧ x < 128 := by
  obtain ⟨v, hw, h⟩ := Option.bind_eq_some_iff.1 h
  obtain ⟨u, hx, -⟩ := Option.bind_eq_some_iff.1 h
  exact ⟨lt_of_sextet? hw, lt_of_sextet? hx⟩

theorem sextets_of_decodeTwo {w x y : ℕ} {bs : List UInt8} (h : decodeTwo w x y = some bs) :
    w < 128 ∧ x < 128 ∧ y < 128 := by
  obtain ⟨a, hw, h⟩ := Option.bind_eq_some_iff.1 h
  obtain ⟨b, hx, h⟩ := Option.bind_eq_some_iff.1 h
  obtain ⟨c, hy, -⟩ := Option.bind_eq_some_iff.1 h
  exact ⟨lt_of_sextet? hw, lt_of_sextet? hx, lt_of_sextet? hy⟩

theorem sextets_of_decodeThree {w x y z : ℕ} {bs : List UInt8} (h : decodeThree w x y z = some bs) :
    w < 128 ∧ x < 128 ∧ y < 128 ∧ z < 128 := by
  obtain ⟨a, hw, h⟩ := Option.bind_eq_some_iff.1 h
  obtain ⟨b, hx, h⟩ := Option.bind_eq_some_iff.1 h
  obtain ⟨c, hy, h⟩ := Option.bind_eq_some_iff.1 h
  obtain ⟨d, hz, -⟩ := Option.bind_eq_some_iff.1 h
  exact ⟨lt_of_sextet? hw, lt_of_sextet? hx, lt_of_sextet? hy, lt_of_sextet? hz⟩

/-- Only ASCII texts decode. -/
theorem lt_of_decode {text : List ℕ} {bs : List UInt8} (h : decode text = some bs) :
    ∀ c ∈ text, c < 128 := by
  have hpad : pad < 128 := by decide
  induction text using decode.induct generalizing bs with
  | case1 => exact List.forall_mem_nil _
  | case2 w x =>
      rw [decode, if_pos rfl, if_pos rfl, if_pos rfl] at h
      have hgroup := sextets_of_decodeOne h
      simp [hgroup, hpad]
  | case3 w x y hy =>
      rw [decode, if_pos rfl, if_pos rfl, if_neg hy] at h
      have hgroup := sextets_of_decodeTwo h
      simp [hgroup, hpad]
  | case4 w x y rest hrest =>
      rw [decode, if_pos rfl, if_neg hrest] at h
      cases h
  | case5 w x y z rest hz ih =>
      rw [decode, if_neg hz] at h
      obtain ⟨bytes, hbytes, h⟩ := Option.bind_eq_some_iff.1 h
      obtain ⟨tail, htail, -⟩ := Option.bind_eq_some_iff.1 h
      have hgroup := sextets_of_decodeThree hbytes
      simpa [hgroup] using ih htail
  | case6 text hnil hcons =>
      rw [decode] at h
      · cases h
      · exact hnil
      · exact hcons

end Base64
