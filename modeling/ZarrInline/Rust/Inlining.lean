import ZarrInline.Rust.Persistence

/-!
# What lands inline in Rust

`set_json` writes a value as canonical text and sets the bytes.  The bytes are parsed
again on the way in, and the parser stops at a nesting of 127.  A value that nests at
most 127 lands as an array or an object; a deeper one becomes base64 text at a byte key,
and is refused at a metadata key.
-/

namespace Rust

variable {C : Crates} {key : RustString} {value : Value}

/-! ## Values with a canonical text -/

/-- A value with a number out of range has no canonical text. -/
theorem canonicalToString_eq_panic (h : ¬ Json.HasNumbers value) :
    canonicalToString C value = .error .panic := by
  have hwrite : ¬ Json.IsOk (value.write (canonicalFormatter C)) := by
    intro hok
    refine h ((Json.isOk_write.1 hok).imp (fun _ _ => trivial) (fun n hn => ?_) fun _ => id)
    have hn' : Json.IsOk (writeCanonicalNumber C n) := hn
    rw [writeCanonicalNumber_eq] at hn'
    by_contra hrange
    rw [if_neg hrange] at hn'
    exact hn'
  rw [canonicalToString]
  cases hout : value.write (canonicalFormatter C) with
  | ok out => exact absurd (hout ▸ Json.isOk_ok out) hwrite
  | error e => rfl

/-! ## Kinds -/

/-- The kinds of value that `set_json` takes at a key. -/
def TakesJson (key : RustString) (value : Value) : Prop :=
  if isMetadataKey key then isObject value = true else isArray value = true ∨ isObject value = true

instance : Decidable (TakesJson key value) := by
  unfold TakesJson
  infer_instance

theorem TakesJson.isContainer (h : TakesJson key value) :
    (isArray value || isObject value) = true := by
  rw [TakesJson] at h
  rw [Bool.or_eq_true]
  split at h
  · exact Or.inr h
  · exact h

theorem TakesJson.of_metadata (hkey : isMetadataKey key = true) :
    TakesJson key value ↔ isObject value = true := by
  rw [TakesJson, if_pos hkey]

theorem TakesJson.of_byteKey (hkey : isMetadataKey key = false) :
    TakesJson key value ↔ (isArray value || isObject value) = true := by
  rw [TakesJson, if_neg (by simp [hkey]), Bool.or_eq_true]

/-- A value of a kind that `set_json` takes is read as its canonical text. -/
theorem TakesJson.decodeValue_eq (h : TakesJson key value) :
    decodeValue C key value = (canonicalToString C value).map Unicode.encodeUtf8 := by
  unfold decodeValue
  split
  · next hkey => rw [if_neg (not_not_intro ((TakesJson.of_metadata hkey).1 h))]
  · have hcont := h.isContainer
    cases value with
    | arr xs => rfl
    | obj ms => rfl
    | _ => cases hcont

/-- `set_json` sets the canonical text of a value of a kind it takes. -/
theorem setJson_eq (s : Store) (h : TakesJson key value) :
    s.setJson C key value =
      match canonicalToString C value with
      | .error e => (s, .error (.codec e))
      | .ok text => s.set C key (Unicode.encodeUtf8 text) := by
  rw [TakesJson] at h
  rw [Store.setJson]
  split at h
  · next hkey =>
      exact (if_neg fun hne => hne.2 h).trans (if_neg fun hne => hne.1 hkey)
  · next hkey =>
      exact (if_neg fun hne => hkey hne.1).trans (if_neg fun hne => h.elim hne.2.1 hne.2.2)

/-- A value of another kind is refused. -/
theorem setJson_of_not_takesJson (s : Store) (h : ¬ TakesJson key value) :
    s.setJson C key value
      = (s, .error (if isMetadataKey key then .setJsonMetadata key else .setJsonByte key)) := by
  rw [TakesJson] at h
  rw [Store.setJson]
  split at h
  · next hkey => rw [if_pos ⟨hkey, h⟩, if_pos hkey]
  · next hkey =>
      rw [if_neg fun hne => hkey hne.1, if_pos ⟨hkey, fun hs => h (.inl hs), fun hs => h (.inr hs)⟩,
        if_neg hkey]

/-! ## Bytes of a byte key -/

theorem exists_tryInlineJson (data : Bytes) : ∃ r, tryInlineJson C data = .ok r := by
  rw [tryInlineJson]
  split
  · exact ⟨_, rfl⟩
  · next parsed hparsed =>
      rw [canonicalToString_eq (strictFromSlice_eq_ok_iff.1 hparsed).2]
      split
      · exact ⟨_, rfl⟩
      · exact ⟨_, rfl⟩

/-- Any bytes are encoded at a byte key. -/
theorem exists_encodeValue (hkey : isMetadataKey key = false) (data : Bytes) :
    ∃ revalue, encodeValue C key data = .ok revalue := by
  obtain ⟨r, hr⟩ := exists_tryInlineJson (C := C) data
  rw [encodeValue, if_neg (by simp [hkey]), hr]
  cases r with
  | none => exact ⟨_, rfl⟩
  | some inlined => exact ⟨_, rfl⟩

/-- What the bytes of a byte key are stored as reads back as the bytes. -/
theorem decodeValue_of_encodeValue (hkey : isMetadataKey key = false) {data : Bytes}
    (h : encodeValue C key data = .ok value) : decodeValue C key value = .ok data := by
  have hnotMeta : ¬ isMetadataKey key = true := by simp [hkey]
  rw [encodeValue, if_neg hnotMeta] at h
  cases htry : tryInlineJson C data with
  | error e => rw [htry] at h; cases h
  | ok inlined? =>
      rw [htry] at h
      cases inlined? with
      | none =>
          cases h
          rw [decodeValue, if_neg hnotMeta]
          simp only [C.base64Decode_encode]
      | some inlined =>
          cases h
          rw [tryInlineJson] at htry
          split at htry
          · cases htry
          · next parsed hparsed =>
              split at htry
              · next hcont =>
                  obtain ⟨-, hnumbers⟩ := strictFromSlice_eq_ok_iff.1 hparsed
                  rw [canonicalToString_eq hnumbers] at htry
                  have hsame : (if Unicode.encodeUtf8 (canonicalTree parsed).text = data then
                      some parsed else none) = some value := Except.ok.inj htry
                  split at hsame
                  · next hdata =>
                      cases hsame
                      rw [((TakesJson.of_byteKey hkey).2 hcont).decodeValue_eq,
                        canonicalToString_eq hnumbers, ← hdata]
                      rfl
                  · cases hsame
              · cases htry

/-! ## Canonical bytes -/

section Canonical

variable (hvalue : IsValue value)
include hvalue

/-- Canonical bytes are parsed if and only if they nest at most 127. -/
theorem strictFromSlice_canonicalTree :
    strictFromSlice C (Unicode.encodeUtf8 (canonicalTree value).text)
      = if value.depth ≤ 127 then .ok (canonicalValue value) else .error .json := by
  rw [strictFromSlice, C.fromSlice_eq, serdeRead_canonicalTree hvalue]
  by_cases hdepth : value.depth ≤ 127
  · have hcheck : checkNumbers (canonicalValue value) = .ok () :=
      checkNumbers_eq_ok_iff.2 (hasNumbers_canonicalValue hvalue.hasNumbers)
    rw [if_pos hdepth, if_pos hdepth]
    simp only [hcheck]
    rfl
  · rw [if_neg hdepth, if_neg hdepth]

theorem tryInlineJson_canonicalTree (hcont : (isArray value || isObject value) = true) :
    tryInlineJson C (Unicode.encodeUtf8 (canonicalTree value).text)
      = .ok (if value.depth ≤ 127 then some (canonicalValue value) else none) := by
  have hkind : (isArray (canonicalValue value) || isObject (canonicalValue value)) = true := by
    cases value with
    | arr xs => rw [canonicalValue, Json.map_arr]; rfl
    | obj ms => rw [canonicalValue, Json.map_obj]; rfl
    | _ => cases hcont
  rw [tryInlineJson, strictFromSlice_canonicalTree hvalue]
  split
  · next parsed hparsed =>
      split at hparsed
      · cases hparsed
      · next hdepth => rw [if_neg hdepth]
  · next parsed hparsed =>
      split at hparsed
      · next hdepth =>
          cases hparsed
          rw [if_pos hkind, canonicalToString_canonicalValue hvalue.hasNumbers,
            canonicalToString_eq hvalue.hasNumbers, if_pos hdepth]
          show Except.ok (if _ then _ else _) = _
          rw [if_pos rfl]
      · cases hparsed

/-- What canonical bytes are stored as. -/
theorem encodeValue_canonicalTree (hkind : TakesJson key value) :
    encodeValue C key (Unicode.encodeUtf8 (canonicalTree value).text)
      = if value.depth ≤ 127 then .ok (canonicalValue value)
        else if isMetadataKey key then .error (.metadataNotJson key .json)
        else .ok (.str (C.base64Encode (Unicode.encodeUtf8 (canonicalTree value).text))) := by
  rw [encodeValue]
  by_cases hkey : isMetadataKey key = true
  · rw [if_pos hkey, if_pos hkey, strictFromSlice_canonicalTree hvalue]
    by_cases hdepth : value.depth ≤ 127
    · have hobj : isObject (canonicalValue value) = true := by
        have hobj := (TakesJson.of_metadata hkey).1 hkind
        cases value with
        | obj ms => rw [canonicalValue, Json.map_obj]; rfl
        | _ => cases hobj
      simp only [if_pos hdepth, hobj, if_true]
    · simp only [if_neg hdepth]
  · rw [if_neg hkey, if_neg hkey, tryInlineJson_canonicalTree hvalue hkind.isContainer]
    by_cases hdepth : value.depth ≤ 127
    · rw [if_pos hdepth, if_pos hdepth]
      rfl
    · rw [if_neg hdepth, if_neg hdepth]
      rfl

end Canonical

/-! ## `set_json` -/

/-- `set_json` succeeds, the document then holds an array or an object at the key, and `get`
returns the canonical text of the value. -/
structure Store.LandsInline (C : Crates) (s : Store) (key : RustString) (value : Value) : Prop where
  done : (s.setJson C key value).2 = .ok ()
  inline : ∃ stored, (s.setJson C key value).1.document.get key = some stored ∧
    (isArray stored || isObject stored) = true
  get : ∃ text, canonicalToString C value = .ok text ∧
    (s.setJson C key value).1.getBytes C key = .ok (some (Unicode.encodeUtf8 text))

theorem getBytes_insertEncoded (s : Store) :
    (s.insertEncoded key (.ok value)).1.getBytes C key
      = match decodeValue C key value with
        | .ok data => .ok (some data)
        | .error e => .error (.codec e) := by
  have hget : (s.insertEncoded key (.ok value)).1.document.get key = some value :=
    Json.Members.get_set_self
  refine (if_neg (Finset.notMem_erase key _)).trans ?_
  cases hdecode : decodeValue C key value with
  | ok data => simp only [hget, hdecode]
  | error e => simp only [hget, hdecode]

theorem landsInline_iff_depth (s : Store) (hkey : checkKey key = none) (hvalue : IsValue value)
    (hkind : TakesJson key value) : s.LandsInline C key value ↔ value.depth ≤ 127 := by
  have hwrite : Store.checkWriteKey key = .ok () := by rw [Store.checkWriteKey, hkey]
  have hset : s.setJson C key value =
      s.insertEncoded key (encodeValue C key (Unicode.encodeUtf8 (canonicalTree value).text)) := by
    rw [setJson_eq s hkind, canonicalToString_eq hvalue.hasNumbers]
    show s.set C key _ = _
    rw [Store.set, hwrite]
  rw [encodeValue_canonicalTree hvalue hkind] at hset
  constructor
  · rintro ⟨hdone, ⟨stored, hstored, hinline⟩, -⟩
    by_contra hdepth
    rw [hset, if_neg hdepth] at hdone hstored
    split at hdone
    · cases hdone
    · next hmeta =>
        rw [if_neg hmeta] at hstored
        have hstored' : (s.document.set key (.str _)).get key = some stored := hstored
        rw [Json.Members.get_set_self] at hstored'
        cases hstored'
        cases hinline
  · intro hdepth
    rw [if_pos hdepth] at hset
    have hkind' : TakesJson key (canonicalValue value) := by
      cases value with
      | arr xs => rw [canonicalValue, Json.map_arr]; exact hkind
      | obj ms => rw [canonicalValue, Json.map_obj]; exact hkind
      | _ => cases hkind.isContainer
    refine ⟨by rw [hset]; rfl, ⟨canonicalValue value, ?_, hkind'.isContainer⟩,
      ⟨_, canonicalToString_eq hvalue.hasNumbers, ?_⟩⟩
    · rw [hset]
      exact Json.Members.get_set_self ..
    · rw [hset, getBytes_insertEncoded, hkind'.decodeValue_eq,
        canonicalToString_canonicalValue hvalue.hasNumbers, canonicalToString_eq hvalue.hasNumbers]
      rfl

/-- `set_json` lands inline if and only if the value nests at most 127. -/
theorem setJson_lands_inline_iff (C : Crates) (s : Store) (key : RustString) (value : Value)
    (hkey : checkKey key = none) (hvalue : IsValue value) (hkind : TakesJson key value) :
    s.LandsInline C key value ↔ value.depth ≤ 127 :=
  landsInline_iff_depth s hkey hvalue hkind

theorem setJson_lands_inline_iff_nested :
    Store.new.LandsInline crates "a/c/0".toList (nested 3) ↔ (nested 3).depth ≤ 127 :=
  setJson_lands_inline_iff crates Store.new "a/c/0".toList (nested 3) (by decide)
    (isValue_nested 3) (by decide)

/-- 128 nested arrays become base64 text. -/
theorem not_landsInline_nested : ¬ Store.new.LandsInline crates "a/c/0".toList (nested 127) := by
  have hkind : TakesJson "a/c/0".toList (nested 127) :=
    (TakesJson.of_byteKey (by decide)).2 rfl
  intro h
  have hdepth := (landsInline_iff_depth Store.new (by decide) (isValue_nested 127) hkind).1 h
  rw [depth_nested] at hdepth
  omega

end Rust
