import ZarrInline.Text.Unicode

/-!
# The order of encoded strings

A string is encoded character by character, `g` giving the units of a character.  If the
lesser of two characters is encoded before the greater, whatever follows them (`Before`),
the encodings of strings are in the order of the strings.  UTF-8 is such an encoding, so
strings are in one order by their bytes and by their code points.
-/

namespace Text

variable {α β : Type} [LinearOrder α] [LT β] {g : α → List β}

/-- `c` is encoded before `d`, whatever follows. -/
def Before (g : α → List β) (c d : α) : Prop := ∀ s t : List β, g c ++ s < g d ++ t

theorem flatMap_lt {l l' : List α} (hne : ∀ c ∈ l', g c ≠ [])
    (h : ∀ c ∈ l, ∀ d ∈ l', c < d → Before g c d) (hlt : l < l') : l.flatMap g < l'.flatMap g := by
  induction l generalizing l' with
  | nil =>
      cases l' with
      | nil => exact absurd hlt (lt_irrefl _)
      | cons d l' =>
          obtain ⟨u, us, hu⟩ := List.exists_cons_of_ne_nil (hne d List.mem_cons_self)
          rw [List.flatMap_nil, List.flatMap_cons, hu, List.cons_append]
          exact List.nil_lt_cons _ _
  | cons c l ih =>
      cases l' with
      | nil => exact absurd hlt (List.not_lt_nil _)
      | cons d l' =>
          rw [List.flatMap_cons, List.flatMap_cons]
          rcases List.cons_lt_cons_iff.1 hlt with hcd | ⟨rfl, htail⟩
          · exact h c List.mem_cons_self d List.mem_cons_self hcd _ _
          · refine List.append_left_lt (ih (fun d hd => hne d (List.mem_cons_of_mem _ hd)) ?_ htail)
            exact fun c' hc' d hd => h c' (List.mem_cons_of_mem _ hc') d (List.mem_cons_of_mem _ hd)

/-- Strings of characters in `p` are in the order of their encodings. -/
theorem flatMap_lt_iff [Std.Asymm (· < · : β → β → Prop)] {p : α → Prop} (hne : ∀ c, p c → g c ≠ [])
    (h : ∀ c d, p c → p d → c < d → Before g c d) {l l' : List α} (hl : ∀ c ∈ l, p c)
    (hl' : ∀ c ∈ l', p c) : l.flatMap g < l'.flatMap g ↔ l < l' := by
  have hmono : ∀ {k k' : List α}, (∀ c ∈ k, p c) → (∀ c ∈ k', p c) → k < k' →
      k.flatMap g < k'.flatMap g := fun hk hk' hlt =>
    flatMap_lt (fun c hc => hne c (hk' c hc)) (fun c hc d hd => h c d (hk c hc) (hk' d hd)) hlt
  refine ⟨fun hlt => ?_, hmono hl hl'⟩
  rcases lt_trichotomy l l' with hll | rfl | hll
  · exact hll
  · exact absurd hlt (List.lt_irrefl _)
  · exact absurd hlt (List.lt_asymm (hmono hl' hl hll))

end Text

namespace Unicode

theorem ofNat_lt_ofNat {m n : ℕ} (hm : m < 256) (hn : n < 256) :
    UInt8.ofNat m < UInt8.ofNat n ↔ m < n := UInt8.ofNat_lt_iff_lt hm hn

theorem ofNat_eq_ofNat {m n : ℕ} (hm : m < 256) (hn : n < 256) :
    UInt8.ofNat m = UInt8.ofNat n ↔ m = n := by
  rw [← UInt8.toNat_inj, toNat_ofNat hm, toNat_ofNat hn]

/-- The lesser of two code points has the lesser bytes. -/
theorem before_encodeBytes {c d : ℕ} (hd : d < 0x110000) (h : c < d) :
    Text.Before encodeBytes c d := by
  intro s t
  unfold encodeBytes
  split_ifs <;>
    simp (disch := omega) only [List.cons_append, List.nil_append, List.cons_lt_cons_iff,
      ofNat_lt_ofNat, ofNat_eq_ofNat] <;>
    omega

/-- The order of UTF-8 is the order of code points. -/
theorem encodeUtf8_lt_iff {cs ds : List ℕ} (hcs : ∀ c ∈ cs, c < 0x110000)
    (hds : ∀ d ∈ ds, d < 0x110000) : encodeUtf8 cs < encodeUtf8 ds ↔ cs < ds :=
  Text.flatMap_lt_iff (fun c _ => encodeBytes_ne_nil c) (fun _ _ _ hd => before_encodeBytes hd)
    hcs hds

end Unicode
