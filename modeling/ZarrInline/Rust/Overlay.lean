import ZarrInline.Rust.Panics

/-!
# Partial writes in Rust

A partial write puts its bytes over the bytes that were there, zeros filling the gap.
`overlay` says so byte by byte, and `set_partial_many` is the fold of it over the writes
(`foldlM_writeAt`), followed by what `set` does with the result.

The call panics in two ways: at a value with no canonical text, and at a write that would
make the bytes longer than a `Vec` may be.  The checked addition only guards the greatest
`usize`, which is twice as large.
-/

namespace Rust

open Store (writeAt usizeMax isizeMax)

variable {C : Crates} {s : Store} {key : RustString}

/-- The bytes with a write put over them: up to the end of the write, what was not there is
zero. -/
def overlay (bytes : Bytes) (w : UInt64 × Bytes) : Bytes :=
  List.ofFn fun i : Fin (max bytes.length (writeEnd w)) =>
    if w.1.toNat ≤ i ∧ i < writeEnd w then w.2.getD (i - w.1.toNat) 0 else bytes.getD i 0

/-! ## One write -/

theorem getElem?_splice {α : Type} {bytes value : List α} {offset i : ℕ}
    (h : offset + value.length ≤ bytes.length) :
    (bytes.take offset ++ value ++ bytes.drop (offset + value.length))[i]?
      = if offset ≤ i ∧ i < offset + value.length then value[i - offset]? else bytes[i]? := by
  have htake : (bytes.take offset).length = offset := by
    rw [List.length_take]
    omega
  rcases lt_or_ge i offset with hlow | hlow
  · rw [if_neg (by omega), List.append_assoc, List.getElem?_append_left (by omega),
      List.getElem?_take_of_lt hlow]
  · rcases lt_or_ge i (offset + value.length) with hhigh | hhigh
    · rw [if_pos ⟨hlow, hhigh⟩, List.append_assoc, List.getElem?_append_right (by omega), htake,
        List.getElem?_append_left (by omega)]
    · rw [if_neg (by omega), List.getElem?_append_right (by rw [List.length_append]; omega),
        List.getElem?_drop, List.length_append, htake]
      congr 1
      omega

theorem getElem?_padded {bytes : Bytes} {len i : ℕ} :
    (bytes ++ List.replicate (len - bytes.length) 0)[i]?
      = if i < max bytes.length len then some (bytes.getD i 0) else none := by
  rcases lt_or_ge i bytes.length with hlt | hge
  · rw [if_pos (by omega), List.getElem?_append_left hlt, List.getElem?_eq_getElem hlt,
      List.getD_eq_getElem _ _ hlt]
  · rw [List.getElem?_append_right hge, List.getElem?_replicate, List.getD_eq_default _ _ hge]
    exact if_congr (by omega) rfl rfl

theorem getElem?_overlay {bytes : Bytes} {w : UInt64 × Bytes} {i : ℕ} :
    (overlay bytes w)[i]?
      = if i < max bytes.length (writeEnd w) then
          some (if w.1.toNat ≤ i ∧ i < writeEnd w then w.2.getD (i - w.1.toNat) 0 else bytes.getD i 0)
        else none := by
  rw [overlay, List.getElem?_ofFn]
  split <;> rfl

/-- A write that succeeds is an overlay. -/
theorem writeAt_eq_overlay {bytes out : Bytes} {w : UInt64 × Bytes}
    (h : writeAt bytes w.1 w.2 = .ok out) : out = overlay bytes w := by
  rw [writeAt_eq] at h
  split at h
  · cases h
  · split at h
    · cases h
    · cases h
      refine List.ext_getElem? fun i => ?_
      have hend : writeEnd w = w.1.toNat + w.2.length := rfl
      have hlen : w.1.toNat + w.2.length
          ≤ (bytes ++ List.replicate (writeEnd w - bytes.length) 0).length := by
        rw [List.length_append, List.length_replicate]
        omega
      rw [hend] at hlen ⊢
      rw [getElem?_splice hlen, getElem?_padded, getElem?_overlay, hend]
      by_cases hmem : w.1.toNat ≤ i ∧ i < w.1.toNat + w.2.length
      · rw [if_pos hmem, if_pos hmem, if_pos (by omega), List.getD_eq_getElem _ _ (by omega),
          List.getElem?_eq_getElem (by omega)]
      · rw [if_neg hmem, if_neg hmem]

/-- The writes that succeed are the fold of the overlays. -/
theorem foldlM_writeAt {ws : List (UInt64 × Bytes)} {bytes out : Bytes}
    (h : ws.foldlM (fun bytes w => writeAt bytes w.1 w.2) bytes = .ok out) :
    out = ws.foldl overlay bytes := by
  induction ws generalizing bytes with
  | nil => exact (Except.ok.inj h).symm
  | cons w ws ih =>
      rw [List.foldlM_cons] at h
      cases hwrite : writeAt bytes w.1 w.2 with
      | error e => rw [hwrite] at h; cases h
      | ok next =>
          rw [hwrite] at h
          rw [List.foldl_cons, ← writeAt_eq_overlay hwrite]
          exact ih h

/-! ## The call -/

theorem insertEncoded_error {encoded : Except RustError Value} {e : StorageError}
    (h : (s.insertEncoded key encoded).2 = .error e) : (s.insertEncoded key encoded).1 = s := by
  cases encoded with
  | ok value => cases h
  | error e' => rfl

/-- What a partial write that succeeds inserts. -/
theorem setPartialMany_ok {ws : List (UInt64 × Bytes)} (h : (s.setPartialMany C key ws).2 = .ok ()) :
    ∃ old value, s.getBytes C key = .ok old ∧
      encodeValue C key (ws.foldl overlay (old.getD [])) = .ok value ∧
      (s.setPartialMany C key ws).1 = (s.insertEncoded key (.ok value)).1 := by
  rw [Store.setPartialMany] at h ⊢
  cases hkey : Store.checkWriteKey key with
  | error e => rw [hkey] at h; cases h
  | ok u =>
      rw [hkey] at h
      cases hget : s.getBytes C key with
      | error e => rw [hget] at h; cases h
      | ok old =>
          rw [hget] at h
          simp only [bind, Except.bind] at h ⊢
          cases hfold : ws.foldlM (fun (bytes : Bytes) (w : UInt64 × Bytes) => writeAt bytes w.1 w.2)
              (old.getD []) with
          | error e => rw [hfold] at h; cases h
          | ok bytes =>
              rw [hfold] at h
              cases hencode : encodeValue C key bytes with
              | error e => simp only [hencode] at h; cases h
              | ok value =>
                  exact ⟨old, value, rfl, foldlM_writeAt hfold ▸ hencode, by simp only [hencode]⟩

/-- A partial write does not panic and, if it succeeds, leaves at a byte key the fold of the
writes over the bytes that were there.  At a metadata key it succeeds only if they are the text
of an object.  If it fails, it leaves the store. -/
structure Store.OverlaysExactly (C : Crates) (s : Store) (key : RustString)
    (ws : List (UInt64 × Bytes)) : Prop where
  not_panicked : ¬ Panicked (s.setPartialMany C key ws).2
  byteKey : (s.setPartialMany C key ws).2 = .ok () → isMetadataKey key = false →
    ∃ old, s.getBytes C key = .ok old ∧
      (s.setPartialMany C key ws).1.getBytes C key = .ok (some (ws.foldl overlay (old.getD [])))
  metadata : (s.setPartialMany C key ws).2 = .ok () → isMetadataKey key = true →
    ∃ old parsed, s.getBytes C key = .ok old ∧
      strictFromSlice C (ws.foldl overlay (old.getD [])) = .ok parsed ∧ isObject parsed = true
  unchanged : ∀ e, (s.setPartialMany C key ws).2 = .error e → (s.setPartialMany C key ws).1 = s

theorem overlaysExactly_of_not_panicked {ws : List (UInt64 × Bytes)}
    (h : ¬ Panicked (s.setPartialMany C key ws).2) : s.OverlaysExactly C key ws where
  not_panicked := h
  byteKey := by
    intro hok hkey
    obtain ⟨old, value, hold, hencode, hstore⟩ := setPartialMany_ok hok
    refine ⟨old, hold, ?_⟩
    rw [hstore, getBytes_insertEncoded, decodeValue_of_encodeValue hkey hencode]
  metadata := by
    intro hok hkey
    obtain ⟨old, value, hold, hencode, -⟩ := setPartialMany_ok hok
    rw [encodeValue, if_pos hkey] at hencode
    split at hencode
    · cases hencode
    · next parsed hparsed =>
        split at hencode
        · next hobject => exact ⟨old, parsed, hold, hparsed, hobject⟩
        · cases hencode
  unchanged := by
    intro e herror
    rw [Store.setPartialMany] at herror ⊢
    split
    · rfl
    · next bytes hbytes =>
        rw [hbytes] at herror
        exact insertEncoded_error herror

/-- At a key that R1 allows, a partial write overlays exactly if and only if what is there can
be read and no write makes it longer than a `Vec` may be. -/
theorem setPartialMany_overlays_iff (C : Crates) (s : Store) (key : RustString)
    (ws : List (UInt64 × Bytes)) (hkey : checkKey key = none) :
    s.OverlaysExactly C key ws ↔
      s.Readable key ∧
        ∀ old, s.getBytes C key = .ok old → GrowsWithin (old.getD []).length ws := by
  have hpanic : Panicked (s.setPartialMany C key ws).2 ↔ ¬ s.Readable key ∨
      ∃ old, s.getBytes C key = .ok old ∧ ¬ GrowsWithin (old.getD []).length ws :=
    setPartialMany_panicked_iff hkey
  constructor
  · intro h
    have hnot := mt hpanic.2 h.not_panicked
    rw [not_or, not_not, not_exists] at hnot
    refine ⟨hnot.1, fun old hold => ?_⟩
    by_contra hgrow
    exact hnot.2 old ⟨hold, hgrow⟩
  · rintro ⟨hread, hgrow⟩
    refine overlaysExactly_of_not_panicked fun h => ?_
    rcases hpanic.1 h with h | ⟨old, hold, h⟩
    · exact h hread
    · exact h (hgrow old hold)

theorem setPartialMany_overlays_iff_new :
    Store.new.OverlaysExactly crates "a/c/0".toList [(4, [1, 2]), (1, [3])] ↔
      Store.new.Readable "a/c/0".toList ∧
        ∀ old, Store.new.getBytes crates "a/c/0".toList = .ok old →
          GrowsWithin (old.getD []).length [(4, [1, 2]), (1, [3])] :=
  setPartialMany_overlays_iff crates Store.new "a/c/0".toList [(4, [1, 2]), (1, [3])] (by decide)

/-- An empty write at `2 ^ 63` panics. -/
theorem not_overlaysExactly_large :
    ¬ Store.new.OverlaysExactly crates "a/c/0".toList [(0x8000000000000000, [])] := by
  have hkey : checkKey "a/c/0".toList = none := by decide
  have hget : Store.new.getBytes crates "a/c/0".toList = .ok none := rfl
  have hgrow : ¬ GrowsWithin 0 [(0x8000000000000000, [])] := by decide
  exact fun h => h.not_panicked ((setPartialMany_panicked_iff hkey).2 (.inr ⟨none, hget, hgrow⟩))

end Rust
