import Mathlib

/-!
# Decoding by repetition

A decoder that takes one symbol off the front of its input at a time.  The two
directions of "accepts exactly the encodings" follow from the same two facts
about one symbol: `decodeAll_flatMap` and `flatMap_of_decodeAll`.
-/

namespace Decoding

variable {α β : Type}

/-- Take symbols until the input is used up.  The first argument bounds the
number of symbols. -/
def decodeAll (take : List α → Option (β × List α)) : ℕ → List α → Option (List β)
  | _, [] => some []
  | 0, _ :: _ => none
  | fuel + 1, a :: as =>
      match take (a :: as) with
      | none => none
      | some (b, rest) => (decodeAll take fuel rest).map (b :: ·)

/-- Decode a whole input: no input holds more symbols than units. -/
def decode (take : List α → Option (β × List α)) (as : List α) : Option (List β) :=
  decodeAll take as.length as

variable {take : List α → Option (β × List α)} {enc : β → List α} {Good : β → Prop}

/-- Encodings decode. -/
theorem decodeAll_flatMap (hne : ∀ b, enc b ≠ [])
    (htake : ∀ b rest, Good b → take (enc b ++ rest) = some (b, rest)) :
    ∀ {bs : List β} {fuel : ℕ}, (∀ b ∈ bs, Good b) → (bs.flatMap enc).length ≤ fuel →
      decodeAll take fuel (bs.flatMap enc) = some bs
  | [], fuel, _, _ => by simp [decodeAll]
  | b :: bs, fuel, hgood, hfuel => by
      obtain ⟨a, as, ha⟩ := List.exists_cons_of_ne_nil (hne b)
      have htake' := htake b (bs.flatMap enc) (hgood b (by simp))
      rw [List.flatMap_cons, ha, List.cons_append, List.length_cons, List.length_append] at hfuel
      obtain ⟨fuel, rfl⟩ : ∃ f, fuel = f + 1 := ⟨fuel - 1, by omega⟩
      rw [ha, List.cons_append] at htake'
      rw [List.flatMap_cons, ha, List.cons_append, decodeAll, htake']
      simp only
      rw [decodeAll_flatMap hne htake (fun c hc => hgood c (by simp [hc])) (by omega)]
      rfl

theorem decode_flatMap (hne : ∀ b, enc b ≠ [])
    (htake : ∀ b rest, Good b → take (enc b ++ rest) = some (b, rest)) {bs : List β}
    (hgood : ∀ b ∈ bs, Good b) : decode take (bs.flatMap enc) = some bs :=
  decodeAll_flatMap hne htake hgood le_rfl

/-- Only encodings decode. -/
theorem flatMap_of_decodeAll
    (hsound : ∀ as b rest, take as = some (b, rest) → as = enc b ++ rest ∧ Good b) :
    ∀ {fuel : ℕ} {as : List α} {bs : List β}, decodeAll take fuel as = some bs →
      bs.flatMap enc = as ∧ ∀ b ∈ bs, Good b
  | _, [], bs, h => by
      have : bs = [] := by simpa [decodeAll] using h.symm
      simp [this]
  | 0, _ :: _, _, h => by cases h
  | fuel + 1, a :: as, bs, h => by
      rw [decodeAll] at h
      split at h
      · cases h
      · next b rest htake =>
          obtain ⟨has, hb⟩ := hsound _ _ _ htake
          obtain ⟨bs', hbs', rfl⟩ := Option.map_eq_some_iff.1 h
          obtain ⟨hrest, hgood⟩ := flatMap_of_decodeAll hsound hbs'
          refine ⟨by rw [List.flatMap_cons, hrest, has], ?_⟩
          simpa using ⟨hb, hgood⟩

theorem flatMap_of_decode
    (hsound : ∀ as b rest, take as = some (b, rest) → as = enc b ++ rest ∧ Good b)
    {as : List α} {bs : List β} (h : decode take as = some bs) :
    bs.flatMap enc = as ∧ ∀ b ∈ bs, Good b :=
  flatMap_of_decodeAll hsound h

end Decoding
