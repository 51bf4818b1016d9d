import ZarrInline.Rust.Store

/-!
# Persisting and reloading in Rust

The text of a store is parsed again when a store is built over it.  Reading canonical text
back gives each number in its canonical form and changes nothing else, as long as the
text is read at all (`serdeRead_canonicalTree`): `serde_json` writes to any nesting, and
reads 127.  A value is parsed by itself when it is written to a store, and one level
further down when the document is.
-/

namespace Rust

variable {C : Crates}

/-! ## Values -/

/-- What a value of the crate is, with numbers in range: the names of an object are
distinct. -/
def IsValue (value : Value) : Prop :=
  value.Every (fun _ => True) Json.InRange (Json.Ordered Json.noRank)

instance : DecidablePred IsValue := fun value => inferInstanceAs (Decidable (value.Every _ _ _))

theorem IsValue.hasNumbers {value : Value} (h : IsValue value) : value.HasNumbers :=
  h.imp (fun _ => id) (fun _ => id) fun _ _ => trivial

/-- The value of a tree, read over characters. -/
theorem ofRaw_eq_load {raw : Json.Raw} (h : Json.HasScalars raw) :
    ofRaw raw = raw.load (fun s => ofCodes (Json.unescape s)) Json.noRank :=
  (Json.load_comp (g := codes) (h.imp (fun _ hs => codes_ofCodes hs) (fun _ => id) fun _ => id)).symm

/-- What is parsed strictly is a value. -/
theorem isValue_of_strictFromSlice {data : Bytes} {value : Value}
    (h : strictFromSlice C data = .ok value) : IsValue value := by
  obtain ⟨hread, hnumbers⟩ := strictFromSlice_eq_ok_iff.1 h
  obtain ⟨text, raw, -, -, hscalars, rfl⟩ := serdeRead_eq_some_iff.1 hread
  have hordered : (ofRaw raw).Every (fun _ => True) (fun _ => True) (Json.Ordered Json.noRank) := by
    rw [ofRaw_eq_load hscalars]
    exact Json.every_load (hscalars.imp (fun _ _ => trivial) (fun _ => id) fun _ => id)
  exact (hnumbers.and hordered).imp (fun _ _ => trivial) (fun _ h => h.1) fun _ h => h.2

/-- A value whose numbers are written in canonical form. -/
def canonicalValue (value : Value) : Value := value.map id Json.canonicalToken

theorem hasScalars_canonicalTree (value : Value) : Json.HasScalars (canonicalTree value) := by
  rw [Json.HasScalars, canonicalTree, Json.every_map]
  refine Json.every_of_forall (fun s => ?_) (fun _ => trivial) (fun _ => trivial) value
  rw [Json.unescape_canonicalItems]
  exact isScalar_codes s

/-- Reading canonical text back puts its numbers in canonical form. -/
theorem ofRaw_canonicalTree {value : Value} (h : IsValue value) :
    ofRaw (canonicalTree value) = canonicalValue value := by
  rw [ofRaw_eq_load (hasScalars_canonicalTree value)]
  refine Json.load_map (h.imp (fun s _ => ?_) (fun _ _ => trivial) fun _ => id)
  rw [Json.unescape_canonicalItems, ofCodes_codes]

theorem isScalar_canonicalTree (value : Value) :
    ∀ c ∈ (canonicalTree value).text, Unicode.IsScalar c :=
  Json.forall_mem_text_canonical (fun _ _ hc => Unicode.isScalar_of_lt (hc.trans (by norm_num)))
    (Json.every_of_forall (fun s c hc _ => isScalar_codes s c hc) (fun _ => trivial)
      (fun _ => trivial) value)

/-- Canonical text is read if and only if it nests at most 127. -/
theorem serdeRead_canonicalTree {value : Value} (h : IsValue value) :
    serdeRead (Unicode.encodeUtf8 (canonicalTree value).text)
      = if value.depth ≤ 127 then some (canonicalValue value) else none := by
  have hwritable : (canonicalTree value).Writable := Json.writable_map value
  have hdecode : Unicode.decodeUtf8 false (Unicode.encodeUtf8 (canonicalTree value).text)
      = some (canonicalTree value).text :=
    Unicode.decodeUtf8_encodeUtf8 fun c hc =>
      ⟨(isScalar_canonicalTree value c hc).1, Or.inr (isScalar_canonicalTree value c hc).2⟩
  have hfits : serdeLimits.Fits (canonicalTree value).depth ↔ value.depth ≤ 127 := by
    rw [canonicalTree, Json.depth_map]
    simp [Json.Limits.Fits, serdeLimits]
  by_cases hdepth : value.depth ≤ 127
  · rw [if_pos hdepth]
    refine serdeRead_eq_some_iff.2 ⟨_, _, hdecode, Json.parse_text hwritable ⟨?_, hfits.2 hdepth⟩,
      hasScalars_canonicalTree value, ofRaw_canonicalTree h⟩
    exact Json.every_of_forall (fun _ => trivial) (fun _ => rfl) (fun _ => trivial) _
  · rw [if_neg hdepth, Option.eq_none_iff_forall_ne_some]
    intro w hw
    obtain ⟨text, raw, htext, hraw, -, -⟩ := serdeRead_eq_some_iff.1 hw
    obtain rfl := Option.some.inj (hdecode.symm.trans htext)
    have hnone := Json.parse_none_of_parse hraw
    rw [Json.parse_none_text hwritable] at hnone
    obtain rfl := Except.ok.inj hnone
    exact hdepth (hfits.1 (Json.parse_eq_ok_iff.1 hraw).2.2)

theorem inRange_canonicalToken {n : Numeric.NumberToken} (h : Json.InRange n) :
    Json.InRange (Json.canonicalToken n) := by
  unfold Json.canonicalToken
  by_cases hn : n.IsInteger
  · rw [if_pos hn]
    exact Or.inl (Numeric.NumberToken.isInteger_ofInt _)
  · have hfin := h.resolve_left hn
    rw [if_neg hn, Json.InRange, Numeric.Double.ofToken_toToken hfin]
    exact Or.inr (Numeric.Double.isFinite_dropNegZero.2 hfin)

theorem hasNumbers_canonicalValue {value : Value} (h : value.HasNumbers) :
    (canonicalValue value).HasNumbers := by
  rw [canonicalValue, Json.HasNumbers, Json.every_map]
  exact h.imp (fun _ => id) (fun _ => inRange_canonicalToken) fun _ => id

/-- A value and its canonical form have the same canonical text. -/
theorem canonicalToString_canonicalValue {value : Value} (h : value.HasNumbers) :
    canonicalToString C (canonicalValue value) = canonicalToString C value := by
  rw [canonicalToString_eq h, canonicalToString_eq (hasNumbers_canonicalValue h), canonicalTree,
    canonicalTree, canonicalValue, Json.map_map]
  exact congrArg (fun t => Except.ok (Json.text t))
    (Json.map_congr h (fun _ _ => rfl) fun _ => Json.canonicalToken_canonicalToken)

/-- They decode to the same bytes. -/
theorem decodeValue_canonicalValue {value : Value} (h : value.HasNumbers) (key : RustString) :
    decodeValue C key (canonicalValue value) = decodeValue C key value := by
  have htext := canonicalToString_canonicalValue (C := C) h
  unfold decodeValue
  cases value with
  | null => rfl
  | bool b => rfl
  | str s => rfl
  | num n => rfl
  | arr xs =>
      rw [htext]
      simp only [canonicalValue, Json.map_arr, isObject]
      rfl
  | obj ms =>
      rw [htext]
      simp only [canonicalValue, Json.map_obj, isObject]

theorem memberIssue_canonicalValue {key : RustString} {value : Value} :
    Rules.memberIssue id kinds key (canonicalValue value) = Rules.memberIssue id kinds key value := by
  unfold Rules.memberIssue Rules.checkValueType Rules.valueMessage?
  cases value <;> simp [kinds, canonicalValue, isObject, isArray, isString]

/-! ## What a store holds -/

/-- What a key may hold: a value that R1 and R2 allow there. -/
structure IsEntry (key : RustString) (value : Value) : Prop where
  issue : Rules.memberIssue id kinds key value = none
  value : IsValue value

/-- What a store that was built empty holds. -/
structure Store.Inv (s : Store) : Prop where
  skipped : s.skipped = ∅
  entry : ∀ key value, s.document.get key = some value → IsEntry key value

/-- What `encode_value` gives is of the type that R2 asks for. -/
theorem encodeValue_spec {key : RustString} {data : Bytes} {value : Value}
    (h : encodeValue C key data = .ok value) : checkValueType key value = none ∧ IsValue value := by
  unfold checkValueType Rules.checkValueType Rules.valueMessage?
  have hmeta : Rules.isMetadataKey id key = isMetadataKey key := rfl
  rw [hmeta]
  unfold encodeValue at h
  split_ifs at h with hkey
  · split at h
    · cases h
    · next parsed hparsed =>
        split_ifs at h with hobj
        cases h
        simp [hkey, kinds, hobj, isValue_of_strictFromSlice hparsed]
  · have hinline : ∀ w, tryInlineJson C data = .ok (some w) →
        (isArray w || isObject w) = true ∧ IsValue w := by
      intro w hw
      unfold tryInlineJson at hw
      split at hw
      · cases hw
      · next parsed hparsed =>
          split_ifs at hw with hcont
          · cases htext : canonicalToString C parsed with
            | error e => rw [htext] at hw; cases hw
            | ok text =>
                simp only [htext, bind, Except.bind, pure, Except.pure, Except.ok.injEq] at hw
                split_ifs at hw with heq
                cases hw
                exact ⟨hcont, isValue_of_strictFromSlice hparsed⟩
          · cases hw
    cases htry : tryInlineJson C data with
    | error e => rw [htry] at h; cases h
    | ok r =>
        rw [htry] at h
        cases r with
        | none =>
            cases h
            simp [hkey, kinds, isString, IsValue]
        | some w =>
            cases h
            obtain ⟨hcont, hvalue⟩ := hinline _ htry
            refine ⟨?_, hvalue⟩
            cases value <;> simp_all [kinds, isArray, isObject, isString]

/-! ### Steps -/

section Steps

variable {s : Store}

theorem Store.Inv.insertEncoded (hs : s.Inv) {key : RustString} (hkey : checkKey key = none)
    (data : Bytes) : (s.insertEncoded key (encodeValue C key data)).1.Inv := by
  cases henc : encodeValue C key data with
  | error e => exact hs
  | ok value =>
      obtain ⟨htype, hvalue⟩ := encodeValue_spec henc
      refine ⟨by simp [Store.insertEncoded, hs.skipped], fun k v hv => ?_⟩
      have hv' : (s.document.set key value).get k = some v := hv
      rw [Json.Members.get_set] at hv'
      split_ifs at hv' with heq
      · cases hv'
        subst heq
        refine ⟨?_, hvalue⟩
        have hkey' : Rules.checkKey id key = none := hkey
        rw [Rules.memberIssue, hkey']
        exact htype
      · exact hs.entry k v hv'

theorem checkKey_of_checkWriteKey {key : RustString} (h : Store.checkWriteKey key = .ok ()) :
    checkKey key = none := by
  unfold Store.checkWriteKey at h
  split at h
  · assumption
  · cases h

theorem Store.Inv.set (hs : s.Inv) (key : RustString) (value : Bytes) : (s.set C key value).1.Inv := by
  unfold Store.set
  split
  · exact hs
  · next hkey => exact hs.insertEncoded (checkKey_of_checkWriteKey hkey) value

theorem Store.Inv.setJson (hs : s.Inv) (key : RustString) (value : Value) :
    (s.setJson C key value).1.Inv := by
  unfold Store.setJson
  split_ifs
  · exact hs
  · exact hs
  · split
    · exact hs
    · exact hs.set key _

theorem Store.Inv.setPartialMany (hs : s.Inv) (key : RustString)
    (offsetValues : List (UInt64 × Bytes)) : (s.setPartialMany C key offsetValues).1.Inv := by
  unfold Store.setPartialMany
  split
  · exact hs
  · next bytes hbytes =>
      cases hkey : Store.checkWriteKey key with
      | error e => rw [hkey] at hbytes; cases hbytes
      | ok u => exact hs.insertEncoded (checkKey_of_checkWriteKey hkey) bytes

theorem Store.Inv.erase (hs : s.Inv) (key : RustString) : (s.erase key).Inv where
  skipped := by simp [Store.erase, hs.skipped]
  entry := by
    intro k v hv
    have hv' : (removeKey s.document key).get k = some v := hv
    rw [get_removeKey, Json.Members.get_erase] at hv'
    split_ifs at hv'
    exact hs.entry k v hv'

theorem Store.Inv.erasePrefix (hs : s.Inv) (dir : RustString) : (s.erasePrefix dir).Inv where
  skipped := by simp [Store.erasePrefix, hs.skipped]
  entry := fun k v hv => hs.entry k v (Json.Members.get_of_get_retain hv)

theorem Store.Inv.step (hs : s.Inv) (op : Op) : ((storeMachine C).step s op).1.Inv := by
  cases op with
  | get key =>
      simp only [storeMachine]
      split <;> exact hs
  | set key value => exact hs.set key value
  | setJson key value => exact hs.setJson key value
  | setPartialMany key offsetValues => exact hs.setPartialMany key offsetValues
  | erase key => exact hs.erase key
  | erasePrefix dir => exact hs.erasePrefix dir

theorem Store.Inv.new : Store.new.Inv := ⟨rfl, fun _ _ h => by cases h⟩

/-- What a run from the empty store reaches. -/
theorem Store.Inv.exec (ops : List Op) : ((storeMachine C).exec Store.new ops).Inv :=
  Transition.Machine.exec_induct (A := fun _ => True) (fun _ op _ hs => hs.step op) (by simp) .new

end Steps

/-! ## Reloading -/

/-- The keys that are there and not skipped, before they are sorted. -/
def Store.keys (s : Store) : List RustString := s.document.keys.filter (· ∉ s.skipped)

/-- The text of the store parses to an object that a store can be built over, and the two
stores have the same keys and the same bytes at every key. -/
def Store.Reloads (C : Crates) (s : Store) : Prop :=
  ∃ text document s', s.toJsonString C = .ok text ∧
    strictFromStr C text = .ok (.obj document.entries) ∧ Store.fromDocument document = .ok s' ∧
      s'.keys = s.keys ∧ ∀ key, s'.getBytes C key = s.getBytes C key

section Reload

variable {s : Store}

theorem Store.Inv.isValue (hs : s.Inv) : IsValue (.obj s.document.entries) :=
  (Json.every_obj _).2 ⟨s.document.ordered, fun m hm =>
    ⟨trivial, (hs.entry m.1 m.2 (Json.Members.get_of_mem hm)).value⟩⟩

theorem Store.Inv.toJsonString (hs : s.Inv) :
    s.toJsonString C = .ok (ofCodes (canonicalTree (.obj s.document.entries)).text) := by
  rw [Store.toJsonString, canonicalToString_eq hs.isValue.hasNumbers]
  rfl

/-- Reading the text of a store back. -/
theorem Store.Inv.strictFromStr (hs : s.Inv) {text : RustString} (h : s.toJsonString C = .ok text)
    {value : Value} : strictFromStr C text = .ok value ↔
      (Json.obj s.document.entries : Value).depth ≤ 127 ∧
        value = canonicalValue (.obj s.document.entries) := by
  rw [hs.toJsonString] at h
  cases h
  rw [Rust.strictFromStr, asBytes, codes_ofCodes (isScalar_canonicalTree _),
    strictFromSlice_eq_ok_iff, serdeRead_canonicalTree hs.isValue]
  by_cases hdepth : (Json.obj s.document.entries : Value).depth ≤ 127
  · rw [if_pos hdepth, Option.some.injEq]
    simp only [hdepth, true_and]
    constructor
    · exact fun h => h.1.symm
    · rintro rfl
      exact ⟨rfl, hasNumbers_canonicalValue hs.isValue.hasNumbers⟩
  · simp [hdepth]

/-- A store reloads if and only if no value nests deeper than 126. -/
theorem Store.Inv.reloads_iff_depth (hs : s.Inv) :
    s.Reloads C ↔ ∀ key value, s.document.get key = some value → value.depth ≤ 126 := by
  have hdepth : (Json.obj s.document.entries : Value).depth ≤ 127 ↔
      ∀ key value, s.document.get key = some value → value.depth ≤ 126 := by
    rw [Json.depth_obj_le_iff]
    constructor
    · exact fun h key value hvalue => h (key, value) (Json.Members.get_eq_some_iff.1 hvalue)
    · exact fun h m hm => h m.1 m.2 (Json.Members.get_of_mem hm)
  rw [← hdepth]
  constructor
  · rintro ⟨text, document, s', htext, hparse, -⟩
    exact ((hs.strictFromStr htext).1 hparse).1
  · intro hle
    let canonical : Document :=
      ⟨s.document.entries.map fun m => (m.1, canonicalValue m.2), by
        rw [List.map_map]
        exact s.document.ordered⟩
    have hget : ∀ key, canonical.get key = (s.document.get key).map canonicalValue := fun key =>
      Json.lookup_map canonicalValue
    have hvalid : validate canonical = [] := by
      refine Rules.validate_eq_nil_iff.2 fun key value hvalue => ?_
      rw [hget] at hvalue
      obtain ⟨w, hw, rfl⟩ := Option.map_eq_some_iff.1 hvalue
      exact memberIssue_canonicalValue.trans (hs.entry key w hw).issue
    have hbuild : Store.fromDocument canonical = .ok ⟨canonical, ∅⟩ := by
      rw [Store.fromDocument, validateStrict, if_pos hvalid]
      rfl
    have hobj : canonicalValue (.obj s.document.entries) = .obj canonical.entries :=
      Json.map_obj _ _ _
    refine ⟨_, canonical, ⟨canonical, ∅⟩, hs.toJsonString,
      (hs.strictFromStr hs.toJsonString).2 ⟨hle, hobj.symm⟩, hbuild, ?_, fun key => ?_⟩
    · simp [Store.keys, hs.skipped, Json.Members.keys, canonical, Function.comp_def]
    · unfold Store.getBytes
      rw [hs.skipped, hget]
      cases hv : s.document.get key with
      | none => rfl
      | some value =>
          have hnumbers := (hs.entry key value hv).value.hasNumbers
          simp only [Option.map_some, decodeValue_canonicalValue hnumbers]

end Reload

/-- Arrays inside an array, `n` of them. -/
def nested : ℕ → Value
  | 0 => .arr []
  | n + 1 => .arr [nested n]

theorem depth_nested (n : ℕ) : (nested n).depth = n + 1 := by
  induction n with
  | zero => rfl
  | succ n ih => simp [nested, Json.depth_arr, ih]

theorem isValue_nested (n : ℕ) : IsValue (nested n) := by
  induction n with
  | zero => decide
  | succ n ih =>
      refine (Json.every_arr _).2 fun x hx => ?_
      obtain rfl := List.mem_singleton.1 hx
      exact ih

theorem canonicalValue_nested (n : ℕ) : canonicalValue (nested n) = nested n := by
  induction n with
  | zero => rfl
  | succ n ih =>
      rw [nested, canonicalValue, Json.map_arr, List.map_singleton, ← canonicalValue, ih]

/-- The bytes of nested arrays. -/
theorem encodeUtf8_nested (n : ℕ) :
    Unicode.encodeUtf8 (canonicalTree (nested n)).text
      = List.replicate (n + 1) 91 ++ List.replicate (n + 1) 93 := by
  have htext : ∀ n, (canonicalTree (nested n)).text
      = List.replicate (n + 1) '['.toNat ++ List.replicate (n + 1) ']'.toNat := by
    intro n
    induction n with
    | zero => rfl
    | succ n ih =>
        rw [nested, canonicalTree, Json.map_arr, Json.text, Json.fold_arr, List.map_map,
          List.map_singleton, Function.comp_apply, ← canonicalTree, ← Json.text, ih,
          List.replicate_succ (n := n + 1), List.replicate_succ' (n := n + 1)]
        simp [Json.sepBy]
  rw [htext, Unicode.encodeUtf8_append, Unicode.encodeUtf8_replicate (b := 91) (by decide),
    Unicode.encodeUtf8_replicate (b := 93) (by decide)]

/-- Nested arrays that can be parsed are inlined. -/
theorem encodeValue_nested {key : RustString} (hkey : isMetadataKey key = false) {n : ℕ}
    (hn : n + 1 ≤ 127) :
    encodeValue C key (List.replicate (n + 1) 91 ++ List.replicate (n + 1) 93) = .ok (nested n) := by
  have hparse : strictFromSlice C (Unicode.encodeUtf8 (canonicalTree (nested n)).text)
      = .ok (nested n) := by
    refine strictFromSlice_eq_ok_iff.2 ⟨?_, (isValue_nested n).hasNumbers⟩
    rw [serdeRead_canonicalTree (isValue_nested n), if_pos (by rw [depth_nested]; exact hn),
      canonicalValue_nested]
  have harr : (isArray (nested n) || isObject (nested n)) = true := by cases n <;> rfl
  have hinline : tryInlineJson C (Unicode.encodeUtf8 (canonicalTree (nested n)).text)
      = .ok (some (nested n)) := by
    rw [tryInlineJson, hparse]
    simp only [harr, if_true, canonicalToString_eq (isValue_nested n).hasNumbers, bind,
      Except.bind, pure, Except.pure]
  rw [← encodeUtf8_nested, encodeValue, hkey, hinline]
  rfl

end Rust
