import ZarrInline.Text.Unicode

/-!
# UTF-16 and UTF-32 in bytes

Decoders that read the bytes of 16-bit and 32-bit units in either order.  Surrogates
that are not part of a pair pass.
-/

namespace Unicode

/-- The order of the bytes of a unit. -/
inductive ByteOrder where
  | big
  | little
deriving DecidableEq

/-- The value of the bytes of a unit. -/
def ByteOrder.value (order : ByteOrder) (bs : List UInt8) : ℕ :=
  let bs := match order with
    | .big => bs
    | .little => bs.reverse
  bs.foldl (fun n b => 256 * n + b.toNat) 0

/-- The 16-bit units of a byte sequence. -/
def units16 (order : ByteOrder) : List UInt8 → Option (List UInt16)
  | [] => some []
  | a :: b :: bs => (units16 order bs).map (UInt16.ofNat (order.value [a, b]) :: ·)
  | _ => none

/-- Decode UTF-16. -/
def decodeUtf16 (order : ByteOrder) (bs : List UInt8) : Option (List ℕ) :=
  (units16 order bs).map codePoints

/-- Decode UTF-32. -/
def decodeUtf32 (order : ByteOrder) : List UInt8 → Option (List ℕ)
  | [] => some []
  | a :: b :: c :: d :: bs =>
      if order.value [a, b, c, d] < 0x110000 then
        (decodeUtf32 order bs).map (order.value [a, b, c, d] :: ·)
      else none
  | _ => none

theorem lt_of_decodeUtf16 {order : ByteOrder} {bs : List UInt8} {cs : List ℕ}
    (h : decodeUtf16 order bs = some cs) : ∀ c ∈ cs, c < 0x110000 := by
  obtain ⟨units, -, rfl⟩ := Option.map_eq_some_iff.1 h
  exact codePoints_lt units

theorem lt_of_decodeUtf32 {order : ByteOrder} {bs : List UInt8} {cs : List ℕ}
    (h : decodeUtf32 order bs = some cs) : ∀ c ∈ cs, c < 0x110000 := by
  induction bs using decodeUtf32.induct order generalizing cs with
  | case1 =>
      cases h
      simp
  | case2 a b c d bs hlt ih =>
      rw [decodeUtf32, if_pos hlt] at h
      obtain ⟨ds, hds, rfl⟩ := Option.map_eq_some_iff.1 h
      exact List.forall_mem_cons.2 ⟨hlt, ih hds⟩
  | case3 a b c d bs hlt =>
      rw [decodeUtf32, if_neg hlt] at h
      cases h
  | case4 bs h1 h2 =>
      rw [decodeUtf32] at h
      · cases h
      · exact h1
      · exact h2

end Unicode
