import ZarrInline.Json.Results
import ZarrInline.Python.Convert

/-!
# The conversions are inverse

A document that is written to an empty Zarr store and read back byte for byte decodes to
the same bytes at the same keys.  What `from_zarr` reads of a group is what the store holds
below the group: the bytes at byte keys, and the canonical form of metadata.
-/

namespace Python

open Numeric (Text Double NumberToken)

variable {I : Interpreter} {σ ε : Type}

/-! ## Values that were read back -/

theorem isPlain_reread {a : PyAtom} (h : a.IsPlain) : (reread a).IsPlain := by
  cases a with
  | int i =>
      rw [reread, atomToken, numberValue, if_pos (NumberToken.isInteger_ofInt i),
        NumberToken.intValue_ofInt]
      exact h
  | float x =>
      rw [reread, atomToken, numberValue]
      split
      · next hint =>
          have hlen := length_int_toToken_le hint
          rw [Double.toToken_eq_ofInt hint] at hlen
          exact hlen
      · have hx : x.IsFinite := h
        rw [Double.ofToken_toToken hx]
        exact Double.isFinite_dropNegZero.2 hx
  | oddDict name => exact h.elim
  | other type => exact h.elim

/-- Only a float is read back as a float. -/
theorem exists_of_reread_eq_float {a : PyAtom} {x : Double} (h : reread a = .float x) :
    ∃ y, a = .float y := by
  have hint : ∀ b i, atomToken b = .ofInt i → reread b ≠ .float x := by
    intro b i hb hx
    rw [reread, hb, numberValue, if_pos (NumberToken.isInteger_ofInt i)] at hx
    cases hx
  cases a with
  | float y => exact ⟨y, rfl⟩
  | int i => exact absurd h (hint _ i rfl)
  | oddDict name => exact absurd h (hint _ 0 rfl)
  | other type => exact absurd h (hint _ 0 rfl)

/-- A value that was read back takes no more calls to write. -/
theorem need_reread_le {v : PyValue} {n : ℕ} (h : need I v ≤ n) : need I (v.map id reread) ≤ n := by
  induction v using Json.inductionOn generalizing n with
  | null => exact h
  | bool b => exact h
  | str s => exact h
  | num a =>
      have hpos : 1 ≤ n := (need_pos (I := I) (.num a)).trans_le h
      show need I (.num (reread a)) ≤ n
      cases hr : reread a with
      | float x =>
          obtain ⟨y, rfl⟩ := exists_of_reread_eq_float hr
          exact h
      | int i => exact hpos
      | oddDict name => exact hpos
      | other type => exact hpos
  | arr xs ih =>
      cases n with
      | zero => exact absurd h (need_pos _).not_ge
      | succ n =>
          rw [Json.map_arr]
          refine need_arr_le_iff.2 fun y hy => ?_
          obtain ⟨x, hx, rfl⟩ := List.mem_map.1 hy
          exact ih x hx (need_arr_le_iff.1 h x hx)
  | obj ms ih =>
      cases n with
      | zero => exact absurd h (need_pos _).not_ge
      | succ n =>
          rw [Json.map_obj]
          refine need_obj_le_iff.2 fun y hy => ?_
          obtain ⟨m, hm, rfl⟩ := List.mem_map.1 hy
          obtain ⟨htext, hneed⟩ := need_obj_le_iff.1 h m hm
          exact ⟨htext, ih m hm hneed⟩

theorem canonicalTree_of_alike {v w : PyValue} (h : Alike v w) : canonicalTree v = canonicalTree w := by
  have hmap : ∀ u : PyValue, canonicalTree u = (u.map id atomToken).map Json.canonicalItems id := by
    intro u
    rw [Json.map_map]
    rfl
  rw [hmap, hmap, h]

/-- A plain value is written, if it is, as its canonical text. -/
theorem canonicalDumps_eq_ok {v : PyValue} {r : ℕ} {text : Text}
    (h : canonicalDumps I v r = .ok text) :
    IsPlain v ∧ need I v ≤ r ∧ text = (canonicalTree v).text := by
  have hplain := isPlain_of_canonicalWrite h
  rw [canonicalDumps, canonicalWrite_eq hplain] at h
  split at h
  · next hneed => exact ⟨hplain, hneed, (Except.ok.inj h).symm⟩
  · cases h

theorem isPlain_map_reread {v : PyValue} (h : IsPlain v) : IsPlain (v.map id reread) := by
  rw [IsPlain, Json.every_map]
  exact h.imp (fun _ => id) (fun _ => isPlain_reread) fun _ => id

theorem alike_map_reread {v : PyValue} (h : IsPlain v) : Alike v (v.map id reread) :=
  alike_reread (h.imp (fun _ => id) (fun a ha => ((isPlain_iff a).1 ha).1) fun _ => id)

theorem canonicalDumps_of_isPlain {v : PyValue} (h : IsPlain v) (r : ℕ) :
    canonicalDumps I v r
      = if need I v ≤ r then .ok (canonicalTree v).text else .error .recursion :=
  canonicalWrite_eq h r

/-- A value that was read back is written as the value was. -/
theorem canonicalDumps_reread {v : PyValue} {r : ℕ} {text : Text}
    (h : canonicalDumps I v r = .ok text) : canonicalDumps I (v.map id reread) r = .ok text := by
  obtain ⟨hplain, hneed, rfl⟩ := canonicalDumps_eq_ok h
  rw [canonicalDumps_of_isPlain (isPlain_map_reread hplain), if_pos (need_reread_le hneed),
    canonicalTree_of_alike (alike_map_reread hplain)]

/-- A canonical text has an encoding if and only if no string of the value has a lone
surrogate. -/
theorem isScalar_canonicalTree_iff {v : PyValue} :
    (∀ c ∈ (canonicalTree v).text, ¬ Unicode.IsSurrogate c) ↔
      v.Every IsWellFormed (fun _ => True) (fun _ => True) := by
  constructor
  · intro h
    refine (Json.every_of_text_canonical h).imp (fun s hs c hc hsur => ?_) (fun _ => id) fun _ => id
    exact hs c hc ((by decide : 0x60 ≤ 0xD800).trans hsur.1) hsur
  · intro h
    exact Json.forall_mem_text_canonical (fun c _ hc hsur => absurd hsur.1 (by omega))
      (h.imp (fun _ hs c hc _ => hs c hc) (fun _ => id) fun _ => id)

theorem utf8Encode_canonicalTree {v : PyValue}
    (h : v.Every IsWellFormed (fun _ => True) (fun _ => True)) :
    utf8Encode (canonicalTree v).text = .ok (Unicode.encodeUtf8 (canonicalTree v).text) := by
  rw [utf8Encode, if_pos (isScalar_canonicalTree_iff.2 h)]

/-- Writing a plain value as bytes. -/
theorem dumpsBytes_eq_ok_iff {v : PyValue} {r : ℕ} {data : Bytes} (hplain : IsPlain v) :
    (do utf8Encode (← canonicalDumps I v r)) = Except.ok data ↔
      (v.Every IsWellFormed (fun _ => True) (fun _ => True) ∧ need I v ≤ r) ∧
        data = Unicode.encodeUtf8 (canonicalTree v).text := by
  rw [canonicalDumps_of_isPlain hplain]
  by_cases hneed : need I v ≤ r
  · rw [if_pos hneed]
    show utf8Encode (canonicalTree v).text = _ ↔ _
    rw [utf8Encode, ← isScalar_canonicalTree_iff]
    split
    · next h => rw [and_iff_right ⟨h, hneed⟩, Except.ok.injEq, eq_comm]
    · next h => simp [h]
  · rw [if_neg hneed]
    simp [bind, Except.bind, hneed]

/-! ## Metadata -/

/-- Bytes that start with an ASCII character and have no zero are taken for UTF-8. -/
theorem detectEncoding_of_head {b : UInt8} {bs : Bytes} (hb : b < 0x80) (hzero : 0 ∉ b :: bs) :
    detectEncoding (b :: bs) = .utf8 false := by
  have hmark : ∀ m : UInt8, 0x80 ≤ m → ∀ ms : Bytes, (m :: ms).isPrefixOf (b :: bs) = false := by
    intro m hm ms
    have hne : m ≠ b := fun heq => absurd (heq ▸ hm) (UInt8.not_le.2 hb)
    rw [List.isPrefixOf, beq_false_of_ne hne, Bool.false_and]
  have hnul : ∀ ms : Bytes, ((0 : UInt8) :: ms).isPrefixOf (b :: bs) = false := by
    intro ms
    have hne : (0 : UInt8) ≠ b := fun heq => hzero (heq ▸ List.mem_cons_self ..)
    rw [List.isPrefixOf, beq_false_of_ne hne, Bool.false_and]
  have hb0 : b ≠ 0 := fun heq => hzero (heq ▸ List.mem_cons_self ..)
  unfold detectEncoding
  simp only [hnul, hmark 0xFF (by decide), hmark 0xFE (by decide), hmark 0xEF (by decide),
    Bool.false_eq_true, if_false]
  match bs with
  | [] => rfl
  | [b1] =>
      have hb1 : b1 ≠ 0 := fun heq => hzero (heq ▸ by simp)
      simp only [if_neg hb0, if_neg hb1]
  | [b1, b2] => rfl
  | b1 :: b2 :: b3 :: bs =>
      have hb1 : b1 ≠ 0 := fun heq => hzero (heq ▸ by simp)
      simp only [if_neg hb0, if_neg hb1]

/-- What a value of the interpreter is: code points in its strings, and distinct names in
its dicts. -/
def IsValue (v : PyValue) : Prop :=
  v.Every (fun s => ∀ c ∈ s, c < 0x110000) (fun _ => True) (Json.Ordered Json.noRank)

instance : DecidablePred IsValue := fun v => inferInstanceAs (Decidable (v.Every _ _ _))

theorem IsValue.ordered {v : PyValue} (h : IsValue v) :
    v.Every (fun _ => True) (fun _ => True) (Json.Ordered Json.noRank) :=
  h.imp (fun _ _ => trivial) (fun _ => id) fun _ => id

theorem lt_of_decode {encoding : Encoding} {data : Bytes} {text : PyString}
    (h : decode encoding data = some text) : ∀ c ∈ text, c < 0x110000 := by
  cases encoding with
  | utf8 bom => exact fun c hc => ((Unicode.encodeUtf8_of_decodeUtf8 h).2 c hc).1
  | utf16 order bom => exact Unicode.lt_of_decodeUtf16 h
  | utf32 order bom => exact Unicode.lt_of_decodeUtf32 h

/-- What is parsed is a value. -/
theorem isValue_of_strictLoads {text : PyString} {v : PyValue} (htext : ∀ c ∈ text, c < 0x110000)
    (h : strictLoads I text = .ok v) : IsValue v := by
  obtain ⟨raw, hraw, rfl⟩ := strictLoads_eq_ok h
  have hload : (Json.read raw).Every (fun s => ∀ c ∈ s, c < 0x110000) (fun _ => True)
      (Json.Ordered Json.noRank) :=
    Json.every_load ((Json.every_of_parse htext hraw).imp
      (fun _ hitems => Json.lt_of_mem_unescape hitems) (fun _ => id) fun _ => id)
  rw [IsValue, ofRaw, Json.every_map]
  exact hload.imp (fun _ => id) (fun _ => id) fun ks hks => (List.map_id ks).symm ▸ hks

theorem depth_le_of_strictLoads {text : PyString} {v : PyValue} (h : strictLoads I text = .ok v) :
    v.depth ≤ I.scanDepth := by
  obtain ⟨raw, hraw, rfl⟩ := strictLoads_eq_ok h
  have hfits : I.limits.Fits raw.depth := (Json.parse_eq_ok_iff.1 hraw).2.2
  rw [ofRaw, Json.depth_map]
  exact (Json.depth_load_le raw).trans (hfits I.scanDepth rfl)

theorem strictLoadsBytes_eq_ok {data : Bytes} {v : PyValue} (h : strictLoadsBytes I data = .ok v) :
    ∃ text, (∀ c ∈ text, c < 0x110000) ∧ strictLoads I text = .ok v := by
  unfold strictLoadsBytes at h
  split at h
  · next text htext => exact ⟨text, lt_of_decode htext, h⟩
  · cases h

/-- The UTF-8 of a canonical text is taken for UTF-8. -/
theorem detectEncoding_canonicalTree {v : PyValue} (hvalue : IsValue v) :
    detectEncoding (Unicode.encodeUtf8 (canonicalTree v).text) = .utf8 false := by
  have hpos : ∀ c ∈ (canonicalTree v).text, 0 < c ∧ c < 0x110000 :=
    Json.forall_mem_text_canonical (fun c h0 hc => ⟨h0, hc.trans (by norm_num)⟩)
      (hvalue.imp (fun _ hs c hc h0 => ⟨h0, hs c hc⟩) (fun _ => id) fun _ _ => trivial)
  have hzero : 0 ∉ Unicode.encodeUtf8 (canonicalTree v).text := by
    rw [Unicode.encodeUtf8, List.mem_flatMap]
    rintro ⟨c, hc, hmem⟩
    exact Unicode.zero_notMem_encodeBytes (hpos c hc).1 (hpos c hc).2 hmem
  obtain ⟨c, cs, hc, htext⟩ := Json.exists_text_eq_cons (canonicalTree v)
  have hbytes : Unicode.encodeUtf8 (canonicalTree v).text
      = UInt8.ofNat c :: Unicode.encodeUtf8 cs := by
    rw [htext, Unicode.encodeUtf8_cons, Unicode.encodeBytes, if_pos hc]
    rfl
  rw [hbytes] at hzero ⊢
  refine detectEncoding_of_head ?_ hzero
  rw [UInt8.lt_iff_toNat_lt, Unicode.toNat_ofNat (by omega)]
  exact hc

/-- The UTF-8 of a canonical text is parsed as the text. -/
theorem strictLoadsBytes_text {v : PyValue} (hvalue : IsValue v) :
    strictLoadsBytes I (Unicode.encodeUtf8 (canonicalTree v).text)
      = strictLoads I (canonicalTree v).text := by
  have hlt : ∀ c ∈ (canonicalTree v).text, c < 0x110000 :=
    Json.forall_mem_text_canonical (fun c _ hc => hc.trans (by norm_num))
      (hvalue.imp (fun _ hs c hc _ => hs c hc) (fun _ => id) fun _ _ => trivial)
  have hdecode : decode (.utf8 false) (Unicode.encodeUtf8 (canonicalTree v).text)
      = some (canonicalTree v).text :=
    Unicode.decodeUtf8_encodeUtf8 fun c hc => ⟨hlt c hc, Or.inl rfl⟩
  rw [strictLoadsBytes, detectEncoding_canonicalTree hvalue, hdecode]

/-- The bytes of a canonical text are parsed to the value they were written from. -/
theorem strictLoadsBytes_canonical {v : PyValue} {r : ℕ} {data : Bytes} (hvalue : IsValue v)
    (hdepth : v.depth ≤ I.scanDepth) (h : (do utf8Encode (← canonicalDumps I v r)) = .ok data) :
    strictLoadsBytes I data = .ok (v.map id reread) := by
  cases hdumps : canonicalDumps I v r with
  | error e => rw [hdumps] at h; cases h
  | ok text =>
      obtain ⟨hplain, -, rfl⟩ := canonicalDumps_eq_ok hdumps
      rw [hdumps] at h
      replace h : utf8Encode (canonicalTree v).text = .ok data := h
      rw [utf8Encode] at h
      split at h
      · cases h
        rw [strictLoadsBytes_text hvalue]
        exact strictLoads_canonicalTree hplain hvalue.ordered hdepth
      · cases h

/-! ## One entry -/

theorem decodeValue_metadata {key : PyString} (hkey : isMetadataKey key = true) (v : PyValue) :
    decodeValue I key v
      = if isDict v then do utf8Encode (← canonicalDumps I v (I.frames + 1))
        else .error (.value (.metadataMustMap key)) :=
  if_pos hkey

/-- What is encoded at a metadata key is what was parsed. -/
theorem encodeValue_metadata_eq_ok {key : PyString} {data : Bytes} {v : PyValue}
    (hkey : isMetadataKey key = true) :
    encodeValue I key data = .ok v ↔ strictLoadsBytes I data = .ok v ∧ isDict v = true := by
  rw [encodeValue, if_pos hkey]
  constructor
  · intro h
    obtain ⟨parsed, hparsed, h⟩ := Json.bind_eq_ok h
    split_ifs at h with hdict
    cases h
    exact ⟨hparsed, hdict⟩
  · rintro ⟨hparsed, hdict⟩
    rw [hparsed]
    exact if_pos hdict

/-- What can be written with some calls can be written with more. -/
theorem canonicalDumps_mono {v : PyValue} {r r' : ℕ} {text : Text} (hr : r ≤ r')
    (h : canonicalDumps I v r = .ok text) : canonicalDumps I v r' = .ok text := by
  obtain ⟨hplain, hneed, rfl⟩ := canonicalDumps_eq_ok h
  rw [canonicalDumps, canonicalWrite_eq hplain, if_pos (hneed.trans hr)]

/-- What decodes, decodes nearer to the top. -/
theorem decodeValue_nearer {key : PyString} {v : PyValue} {data : Bytes} (n : ℕ)
    (h : decodeValue I key v = .ok data) : decodeValue (I.nearer n) key v = .ok data := by
  have hdumps : ∀ {d}, (do utf8Encode (← canonicalDumps I v (I.frames + 1))) = Except.ok d →
      (do utf8Encode (← canonicalDumps (I.nearer n) v ((I.nearer n).frames + 1))) = Except.ok d := by
    intro d hd
    cases htext : canonicalDumps I v (I.frames + 1) with
    | error e => rw [htext] at hd; cases hd
    | ok text =>
        have hmore : canonicalDumps (I.nearer n) v ((I.nearer n).frames + 1) = .ok text :=
          canonicalDumps_mono (I := I) (by simp only [Interpreter.nearer]; omega) htext
        rw [htext] at hd
        rw [hmore]
        exact hd
  unfold decodeValue at h ⊢
  split at h
  · next hkey =>
      rw [if_pos hkey]
      split at h
      · next hdict =>
          rw [if_pos hdict]
          exact hdumps h
      · cases h
  · next hkey =>
      rw [if_neg hkey]
      split at h
      · next hcont =>
          rw [if_pos hcont]
          exact hdumps h
      · next hcont =>
          rw [if_neg hcont]
          exact h

/-- Reading the bytes of an entry back stays within what the interpreter nests. -/
def WithinLimits (I : Interpreter) (key : PyString) (value : PyValue) (data : Bytes) : Prop :=
  if isMetadataKey key then value.depth ≤ I.scanDepth else Manageable I data

/-- The bytes of an entry are encoded again to a value that decodes to them. -/
theorem encodeValue_of_decodeValue {key : PyString} {value : PyValue} {data : Bytes}
    (hvalue : IsValue value) (hlimits : WithinLimits I key value data)
    (h : decodeValue (I.nearer 1) key value = .ok data) :
    ∃ value', encodeValue I key data = .ok value' ∧
      decodeValue (I.nearer 1) key value' = .ok data := by
  cases hkey : isMetadataKey key with
  | true =>
      rw [WithinLimits, if_pos hkey] at hlimits
      rw [decodeValue_metadata hkey] at h
      split at h
      · next hdict =>
          cases value with
          | obj ms =>
              have hparsed : strictLoadsBytes I data = .ok ((Json.obj ms).map id reread) :=
                strictLoadsBytes_canonical hvalue hlimits h
              refine ⟨(Json.obj ms).map id reread, ?_, ?_⟩
              · rw [encodeValue, if_pos hkey, hparsed]
                rfl
              · have hdict' : isDict ((Json.obj ms : PyValue).map id reread) = true := by
                  rw [Json.map_obj]
                  rfl
                rw [decodeValue_metadata hkey, if_pos hdict']
                cases hdumps : canonicalDumps (I.nearer 1) (.obj ms) ((I.nearer 1).frames + 1) with
                | error e => rw [hdumps] at h; cases h
                | ok text =>
                    rw [canonicalDumps_reread hdumps]
                    rw [hdumps] at h
                    exact h
          | num a =>
              cases hdumps : canonicalDumps (I.nearer 1) (.num a) ((I.nearer 1).frames + 1) with
              | error e => rw [hdumps] at h; cases h
              | ok text =>
                  have hplain := (Json.every_num a).1 (canonicalDumps_eq_ok hdumps).1
                  cases a with
                  | oddDict name => exact hplain.elim
                  | int i => cases hdict
                  | float x => cases hdict
                  | other type => cases hdict
          | null => cases hdict
          | bool b => cases hdict
          | str s => cases hdict
          | arr xs => cases hdict
      · cases h
  | false =>
      rw [WithinLimits, if_neg (by simp [hkey])] at hlimits
      rcases encodeValue_cases (I := I) hkey data with ⟨⟨w, hw, hdec⟩, -⟩ | ⟨-, hnot⟩
      · exact ⟨w, hw, decodeValue_nearer 1 hdec⟩
      · exact absurd hlimits hnot

/-! ## What `from_zarr` reads -/

section Copy

variable {store : StoreMap} {n : ℕ} {ks : List PyString} {d d' : Document}

/-- What was copied, if the keys are told apart by what follows the prefix: every entry is
encoded, and nothing else is changed. -/
theorem copyKeys_spec (h : ks.foldlM (copyKey I store n) d = .ok d')
    (hinj : ∀ k ∈ ks, ∀ l ∈ ks, k.drop n = l.drop n → k = l) :
    (∀ k ∈ ks, ∀ data, store.get k = some data →
        ∃ value, encodeValue I (k.drop n) data = .ok value ∧ d'.get (k.drop n) = some value) ∧
      ∀ r, (∀ k ∈ ks, k.drop n ≠ r) → d'.get r = d.get r := by
  induction ks generalizing d with
  | nil =>
      cases h
      exact ⟨fun k hk => absurd hk List.not_mem_nil, fun _ _ => rfl⟩
  | cons k ks ih =>
      rw [List.foldlM_cons] at h
      have hrest : ∀ l ∈ ks, ∀ m ∈ ks, l.drop n = m.drop n → l = m := fun l hl m hm =>
        hinj l (List.mem_cons_of_mem _ hl) m (List.mem_cons_of_mem _ hm)
      cases hdata : store.get k with
      | none =>
          rw [copyKey, hdata] at h
          obtain ⟨hentry, hframe⟩ := ih h hrest
          refine ⟨fun l hl data hl' => ?_, fun r hr =>
            hframe r fun l hl => hr l (List.mem_cons_of_mem _ hl)⟩
          rcases List.mem_cons.1 hl with rfl | hl
          · rw [hdata] at hl'
            cases hl'
          · exact hentry l hl data hl'
      | some data =>
          rw [copyKey, hdata] at h
          cases hvalue : encodeValue I (k.drop n) data with
          | error e => simp only [hvalue, bind, Except.bind] at h; cases h
          | ok value =>
              simp only [hvalue, bind, Except.bind, pure, Except.pure] at h
              obtain ⟨hentry, hframe⟩ := ih h hrest
              constructor
              · intro l hl data' hl'
                rcases List.mem_cons.1 hl with rfl | hl
                · obtain rfl := Option.some.inj (hdata.symm.trans hl')
                  refine ⟨value, hvalue, ?_⟩
                  by_cases hmem : l ∈ ks
                  · obtain ⟨w, hw, hget⟩ := hentry l hmem data hdata
                    obtain rfl := Except.ok.inj (hvalue.symm.trans hw)
                    exact hget
                  · rw [hframe (l.drop n) fun m hm heq => hmem ?_, Json.Members.get_set_self]
                    rw [← hinj m (List.mem_cons_of_mem _ hm) l (List.mem_cons_self ..) heq]
                    exact hm
                · exact hentry l hl data' hl'
              · intro r hr
                rw [hframe r fun l hl => hr l (List.mem_cons_of_mem _ hl),
                  Json.Members.get_set_of_ne (hr k (List.mem_cons_self ..))]

/-- If every entry can be encoded, everything is copied. -/
theorem exists_copyKeys (h : ∀ k ∈ ks, ∀ data, store.get k = some data →
      ∃ value, encodeValue I (k.drop n) data = .ok value) :
    ∃ d', ks.foldlM (copyKey I store n) d = .ok d' := by
  induction ks generalizing d with
  | nil => exact ⟨d, rfl⟩
  | cons k ks ih =>
      rw [List.foldlM_cons]
      have hrest : ∀ l ∈ ks, ∀ data, store.get l = some data →
          ∃ value, encodeValue I (l.drop n) data = .ok value := fun l hl =>
        h l (List.mem_cons_of_mem _ hl)
      cases hdata : store.get k with
      | none =>
          rw [copyKey, hdata]
          exact ih hrest
      | some data =>
          obtain ⟨value, hvalue⟩ := h k (List.mem_cons_self ..) data hdata
          rw [copyKey, hdata]
          simp only [hvalue, bind, Except.bind, pure, Except.pure]
          exact ih hrest

end Copy

/-- The keys that `_copy_bytes` visits are those that begin with the prefix of the
group. -/
theorem mem_copied {store : StoreMap} {scope key : PyString} :
    key ∈ Text.sortStrings (store.keys.filter fun key => scope.isPrefixOf key) ↔
      (store.get key).isSome ∧ ∃ relative, key = scope ++ relative := by
  rw [Text.mem_sortStrings, List.mem_filter, ← Json.Members.get_isSome_iff, List.isPrefixOf_iff_prefix]
  exact and_congr_right fun _ => exists_congr fun r => eq_comm

theorem copyBytes_eq (store : StoreMap) (path : PyString) (d : Document) :
    copyBytes I store path [] d
      = (Text.sortStrings (store.keys.filter fun key => (groupPrefix path).isPrefixOf key)).foldlM
          (copyKey I store (groupPrefix path).length) d := by
  simp only [copyBytes, if_true, List.append_nil]

/-- The document that is read of a group has the keys of the store below the group, and
each holds what the bytes there encode to. -/
theorem copyBytes_spec {store : StoreMap} {path : PyString} {d : Document}
    (h : copyBytes I store path [] Json.Members.empty = .ok d) (relative : PyString) :
    ((d.get relative).isSome ↔ (store.get (groupPrefix path ++ relative)).isSome) ∧
      ∀ data, store.get (groupPrefix path ++ relative) = some data →
        ∃ value, encodeValue I relative data = .ok value ∧ d.get relative = some value := by
  rw [copyBytes_eq] at h
  obtain ⟨hentry, hframe⟩ := copyKeys_spec h (by
    rintro k hk l hl heq
    obtain ⟨-, r, rfl⟩ := mem_copied.1 hk
    obtain ⟨-, r', rfl⟩ := mem_copied.1 hl
    rw [List.drop_left, List.drop_left] at heq
    rw [heq])
  have hstored : ∀ data, store.get (groupPrefix path ++ relative) = some data →
      ∃ value, encodeValue I relative data = .ok value ∧ d.get relative = some value := by
    intro data hdata
    have hmem := mem_copied.2 ⟨Option.isSome_iff_exists.2 ⟨data, hdata⟩, relative, rfl⟩
    have := hentry _ hmem data hdata
    rwa [List.drop_left] at this
  refine ⟨⟨fun hsome => ?_, fun hsome => ?_⟩, hstored⟩
  · by_contra hnone
    rw [hframe relative fun k hk heq => ?_] at hsome
    · cases hsome
    · obtain ⟨hk, r, rfl⟩ := mem_copied.1 hk
      rw [List.drop_left] at heq
      exact hnone (heq ▸ hk)
  · obtain ⟨data, hdata⟩ := Option.isSome_iff_exists.1 hsome
    obtain ⟨value, -, hvalue⟩ := hstored data hdata
    rw [hvalue]
    rfl

/-! ## What `to_zarr` writes -/

/-- A Zarr store in memory. -/
def mapDest : Dest StoreMap Empty := ⟨fun store key data => (store.set key data, .ok ())⟩

/-- The bytes that the members of a document stand for. -/
def entryBytes (I : Interpreter) (d : Document) (key : PyString) : Option Bytes :=
  (d.get key).bind fun value => (decodeValue (I.nearer 1) key value).toOption

/-- Members that decode are all written. -/
theorem copyMembers_mapDest {ms : List (PyString × PyValue)} (hnodup : (ms.map Prod.fst).Nodup)
    (h : ∀ m ∈ ms, ∃ data, decodeValue I m.1 m.2 = .ok data) (store : StoreMap) :
    (copyMembers I mapDest ms store).result = .ok () ∧
      (∀ m ∈ ms, (copyMembers I mapDest ms store).dest.get m.1 = (decodeValue I m.1 m.2).toOption) ∧
        ∀ key, key ∉ ms.map Prod.fst →
          (copyMembers I mapDest ms store).dest.get key = store.get key := by
  induction ms generalizing store with
  | nil => exact ⟨rfl, fun m hm => absurd hm List.not_mem_nil, fun _ _ => rfl⟩
  | cons m ms ih =>
      obtain ⟨hm, hms⟩ := List.nodup_cons.1 hnodup
      obtain ⟨data, hdata⟩ := h m (List.mem_cons_self ..)
      obtain ⟨hresult, hentry, hframe⟩ := ih hms (fun l hl => h l (List.mem_cons_of_mem _ hl))
        (store.set m.1 data)
      rw [copyMembers, hdata]
      refine ⟨hresult, fun l hl => ?_, fun key hkey => ?_⟩
      · rcases List.mem_cons.1 hl with rfl | hl
        · exact (hframe _ hm).trans (by rw [Json.Members.get_set_self, hdata]; rfl)
        · exact hentry l hl
      · have hne : m.1 ≠ key := (List.ne_of_not_mem_cons hkey).symm
        exact (hframe key (List.not_mem_of_not_mem_cons hkey)).trans (Json.Members.get_set_of_ne hne)

theorem sortedMembers_perm (d : Document) : (sortedMembers d).Perm d.entries := List.mergeSort_perm _ _

/-- A document whose members decode is written out whole. -/
theorem toZarr_mapDest {d : Document}
    (h : ∀ key value, d.get key = some value → ∃ data, decodeValue (I.nearer 1) key value = .ok data) :
    (toZarr I mapDest (.parsed d) Json.Members.empty).result = .ok () ∧
      ∀ key, (toZarr I mapDest (.parsed d) Json.Members.empty).dest.get key = entryBytes I d key := by
  have hperm := sortedMembers_perm d
  have hnodup : ((sortedMembers d).map Prod.fst).Nodup :=
    ((hperm.map Prod.fst).nodup_iff).2 d.nodup_keys
  obtain ⟨hresult, hentry, hframe⟩ := copyMembers_mapDest hnodup
    (fun m hm => h m.1 m.2 (Json.Members.get_of_mem (hperm.mem_iff.1 hm))) Json.Members.empty
  refine ⟨hresult, fun key => ?_⟩
  rw [entryBytes]
  cases hvalue : d.get key with
  | none =>
      refine hframe key fun hmem => ?_
      rw [(hperm.map Prod.fst).mem_iff] at hmem
      exact Json.Members.get_eq_none_iff.1 hvalue hmem
  | some value => exact hentry (key, value) (hperm.mem_iff.2 (Json.Members.get_eq_some_iff.1 hvalue))

/-! ## There and back -/

/-- The canonical form of the bytes of metadata. -/
def canonicalForm (I : Interpreter) (data : Bytes) : Except PyError Bytes := do
  let parsed ← strictLoadsBytes I data
  utf8Encode (← canonicalDumps I parsed (I.frames + 1))

/-- What encoded bytes decode to: the bytes, or their canonical form at a metadata key. -/
theorem decodeValue_of_encodeValue {key : PyString} {data : Bytes} {value : PyValue}
    (h : encodeValue I key data = .ok value) :
    decodeValue I key value = if isMetadataKey key then canonicalForm I data else .ok data := by
  cases hkey : isMetadataKey key with
  | true =>
      rw [if_pos rfl, decodeValue_metadata hkey, canonicalForm]
      simp only [encodeValue, hkey, if_true] at h
      cases hp : strictLoadsBytes I data with
      | error e => simp only [bind, Except.bind, hp] at h; cases h
      | ok parsed =>
          simp only [bind, Except.bind, hp] at h
          split_ifs at h with hdict
          cases h
          rw [if_pos hdict]
          rfl
  | false =>
      rw [if_neg Bool.false_ne_true]
      rcases encodeValue_cases (I := I) hkey data with ⟨⟨w, hw, hdec⟩, -⟩ | ⟨hrec, -⟩
      · obtain rfl := Except.ok.inj (h.symm.trans hw)
        exact hdec
      · rw [hrec] at h
        cases h

/-- The documents have the same keys, every key decodes in both, and to the same
bytes. -/
def Equivalent (I : Interpreter) (d d' : Document) : Prop :=
  ∀ key, ((d'.get key).isSome ↔ (d.get key).isSome) ∧
    ∀ value value', d.get key = some value → d'.get key = some value' →
      ∃ data, decodeValue (I.nearer 1) key value = .ok data ∧
        decodeValue (I.nearer 1) key value' = .ok data

/-- The metadata of a group. -/
def groupMetadata : PyValue :=
  .obj [(py "zarr_format", .num (.int 3)), (py "node_type", .str (py "group"))]

/-- A group and three bytes. -/
def smallHierarchy : Document :=
  .ofList [(py "zarr.json", groupMetadata), (py "a/c/0", .str (py "AAEC"))]

/-- Any metadata at the root is taken for that of a group. -/
def rootMetadata : ZarrPython := ⟨fun get => (get (py "zarr.json")).isSome⟩

end Python
