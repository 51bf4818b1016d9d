import ZarrInline.Python.Conversion
import ZarrInline.TypeScript.Inlining
import ZarrInline.TypeScript.Store

/-!
# Metadata that was written can be read

Whether bytes are taken at a metadata key is decided by the parser, and whether they are
given back by the writer.  The parsers take escaped surrogates that stand alone, and the
writers do not; and in Python the parser nests deeper than the writer.  The two agree on the
bytes of every other object (`readsBack_iff`).
-/

/-! ## TypeScript -/

namespace TypeScript

variable {key : JsString} {s s' : Store Document} {b : Bytes} {v : JsValue}

/-- If bytes are written at a metadata key, then their canonical form is read back, and the
same is read back after the bytes, or what was read, are written again. -/
def ReadsBack (key : JsString) (b : Bytes) : Prop :=
  ∀ s s' : Store Document, s.setBytes memoryBacking key b = (s', .ok ()) →
    ∃ data, canonicalBytes b = some data ∧
      (s'.get key : Except (StoreError Empty) _) = .ok (some data) ∧
      ∀ again ∈ [b, data], ∃ s'', s'.setBytes memoryBacking key again = (s'', .ok ()) ∧
        (s''.get key : Except (StoreError Empty) _) = .ok (some data)

/-- If the bytes are those of an object, then no name and no string in it has a lone
surrogate. -/
def IsReadable (b : Bytes) : Prop :=
  ∀ text v, utf8Decode b = .ok text → strictParse text = .ok v → isPlainObject v = true →
    v.Every Unicode.IsWellFormed (fun _ => True) (fun _ => True)

/-- A store in memory takes what can be encoded. -/
theorem exists_setBytes (hro : s.readOnly = false) (hkey : checkKey (docKey key) = none)
    (h : encodeValue (docKey key) b = .ok v) : ∃ s', s.setBytes memoryBacking key b = (s', .ok ()) := by
  unfold Store.setBytes
  rw [hro, hkey]
  simp only [Bool.false_eq_true, if_false, h]
  exact ⟨_, rfl⟩

/-- What is read after a write is the value that was encoded. -/
theorem get_of_setBytes (h : s.setBytes memoryBacking key b = (s', .ok ())) :
    s'.readOnly = false ∧ checkKey (docKey key) = none ∧ ∃ v, encodeValue (docKey key) b = .ok v ∧
      ∀ data, (s'.get key : Except (StoreError Empty) _) = .ok (some data) ↔
        decodeValue (docKey key) v = .ok data := by
  obtain ⟨hro, hkey, v, hv, hdoc, hskip⟩ := setBytes_ok h
  have hro' : s'.readOnly = false := by
    have hkeep : (s.setBytes memoryBacking key b).1.readOnly = s.readOnly := setBytes_readOnly
    rw [h] at hkeep
    exact hkeep.trans hro
  refine ⟨hro', hkey, v, hv, fun data => ?_⟩
  have hget : s'.document.get (docKey key) = some v := by rw [hdoc, Json.Members.get_set_self]
  have hpresent : s'.present (docKey key) = true := by
    rw [Backed.Store.present, hget, hskip]
    simp
  unfold Store.get
  rw [if_pos hpresent, hget]
  cases hdecode : decodeValue (docKey key) v with
  | ok bytes => simp only [hdecode, Except.ok.injEq, Option.some.injEq]
  | error e => simp only [hdecode, reduceCtorEq]

/-- The canonical bytes of an object are encoded to an object of the same bytes. -/
theorem encodeValue_canonical (hmeta : isMetadataKey key = true) (h : encodeValue key b = .ok v)
    {text : JsString} (htext : canonicalStringify v = .ok text) :
    canonicalBytes b = some (utf8Encode text) ∧ decodeValue key v = .ok (utf8Encode text) ∧
      ∃ w, encodeValue key (utf8Encode text) = .ok w ∧ decodeValue key w = .ok (utf8Encode text) := by
  obtain ⟨source, hsource, hparsed, hplain⟩ := (encodeValue_metadata_eq_ok hmeta).1 h
  have hcontainer := isContainer_of_isPlainObject (Or.inr hplain) htext
  have hbytes : canonicalBytes b = some (utf8Encode text) := by
    simp only [canonicalBytes, hsource, hparsed, bind, Except.bind, htext]
  refine ⟨hbytes, ?_, v.map id reparse, ?_, ?_⟩
  · rw [decodeValue_metadata hmeta hplain, htext]
    rfl
  all_goals
    have hplain' : isPlainObject (v.map id reparse) = true := by
      cases v with
      | obj ms => rw [Json.map_obj]; rfl
      | num a => cases hcontainer
      | _ => cases hplain
  · rw [encodeValue_metadata_eq_ok hmeta]
    exact ⟨text, utf8Decode_utf8Encode (isWellFormed_canonicalStringify htext),
      strictParse_canonicalStringify (isJson_of_strictParse hparsed htext) htext, hplain'⟩
  · rw [decodeValue_metadata hmeta hplain', canonicalStringify_map_reparse hcontainer, htext]
    rfl

/-- Metadata is read back if and only if the object has no lone surrogate. -/
theorem readsBack_iff (hkey : checkKey (docKey key) = none) (hmeta : isMetadataKey (docKey key) = true) :
    ReadsBack key b ↔ IsReadable b := by
  constructor
  · intro h text v htext hparsed hplain
    have hencode := (encodeValue_metadata_eq_ok hmeta).2 ⟨text, htext, hparsed, hplain⟩
    obtain ⟨s', hs'⟩ := exists_setBytes (s := emptyStore) rfl hkey hencode
    obtain ⟨data, hdata, -⟩ := h emptyStore s' hs'
    simp only [canonicalBytes, htext, hparsed, bind, Except.bind] at hdata
    cases hcanonical : canonicalStringify v with
    | error e => rw [hcanonical] at hdata; cases hdata
    | ok canonical =>
        exact (canonicalStringify_eq_ok_iff.1 hcanonical).1.imp (fun _ => id) (fun _ _ => trivial)
          fun _ => id
  · intro h s s' hset
    obtain ⟨hro, -, v, hv, hget⟩ := get_of_setBytes hset
    obtain ⟨source, hsource, hparsed, hplain⟩ := (encodeValue_metadata_eq_ok hmeta).1 hv
    have hwrite : v.Every Unicode.IsWellFormed JsAtom.IsCanonical (fun _ => True) :=
      ((h source v hsource hparsed hplain).and (every_strictParse hparsed)).imp (fun _ h => h.1)
        (fun _ h => h.2) fun _ _ => trivial
    obtain ⟨hbytes, hdecode, w, hw, hagain⟩ :=
      encodeValue_canonical hmeta hv (canonicalStringify_eq_ok_iff.2 ⟨hwrite, rfl⟩)
    refine ⟨_, hbytes, (hget _).2 hdecode, ?_⟩
    have hrewrite : ∀ again u data, encodeValue (docKey key) again = .ok u →
        decodeValue (docKey key) u = .ok data →
        ∃ s'', s'.setBytes memoryBacking key again = (s'', .ok ()) ∧
          (s''.get key : Except (StoreError Empty) _) = .ok (some data) := by
      intro again u data hu hdec
      obtain ⟨s'', hs''⟩ := exists_setBytes hro hkey hu
      obtain ⟨-, -, u', hu', hget''⟩ := get_of_setBytes hs''
      obtain rfl := Except.ok.inj (hu.symm.trans hu')
      exact ⟨s'', hs'', (hget'' _).2 hdec⟩
    exact List.forall_mem_cons.2 ⟨hrewrite b v _ hv hdecode,
      List.forall_mem_singleton.2 (hrewrite _ w _ hw hagain)⟩

end TypeScript

/-! ## Python -/

namespace Python

variable {I : Interpreter} {key : PyString} {s s' : Store Document} {b : Bytes} {v : PyValue}

/-- If bytes are written at a metadata key, then their canonical form is read back, and the
same is read back after the bytes, or what was read, are written again. -/
def ReadsBack (I : Interpreter) (key : PyString) (b : Bytes) : Prop :=
  ∀ s s' : Store Document, s.setBytes I memoryBacking key b = (s', .ok ()) →
    ∃ data, canonicalForm (I.nearer 1) b = .ok data ∧
      (s'.get I key : Except (StoreError Empty) _) = .ok (some data) ∧
      ∀ again ∈ [b, data], ∃ s'', s'.setBytes I memoryBacking key again = (s'', .ok ()) ∧
        (s''.get I key : Except (StoreError Empty) _) = .ok (some data)

/-- If the bytes are those of an object, then no name and no string in it has a lone
surrogate, and `get` can nest the calls that write it. -/
def IsReadable (I : Interpreter) (b : Bytes) : Prop :=
  ∀ v, strictLoadsBytes I b = .ok v → isDict v = true →
    v.Every IsWellFormed (fun _ => True) (fun _ => True) ∧ need I v ≤ I.frames + 2

/-- A store in memory takes what can be encoded. -/
theorem exists_setBytes (hro : s.readOnly = false) (hkey : checkKey key = none)
    (h : encodeValue I key b = .ok v) :
    ∃ s', s.setBytes I memoryBacking key b = (s', .ok ()) := by
  unfold Store.setBytes
  rw [hro, hkey]
  simp only [Bool.false_eq_true, if_false, h]
  exact ⟨_, rfl⟩

/-- What is read after a write is the value that was encoded. -/
theorem get_of_setBytes (h : s.setBytes I memoryBacking key b = (s', .ok ())) :
    s'.readOnly = false ∧ checkKey key = none ∧ ∃ v, encodeValue I key b = .ok v ∧
      ∀ data, (s'.get I key : Except (StoreError Empty) _) = .ok (some data) ↔
        decodeValue (I.nearer 1) key v = .ok data := by
  unfold Store.setBytes at h
  split_ifs at h with hro
  · cases h
  split at h
  · cases h
  next hkey =>
  split at h
  · cases h
  next v hv =>
  have hcommit : s.commitSet memoryBacking key v = (s', .ok ()) := by
    split at h
    · cases h
      assumption
    · cases h
  obtain ⟨hdoc, hskip⟩ := Backed.Store.commitSet_ok hcommit
  have hro' : s'.readOnly = false := by
    have hkeep : (s.commitSet memoryBacking key v).1.readOnly = s.readOnly :=
      Backed.Store.commitSet_readOnly
    rw [hcommit] at hkeep
    simpa using hkeep.trans (Bool.eq_false_of_not_eq_true hro)
  refine ⟨hro', hkey, v, hv, fun data => ?_⟩
  have hget : s'.document.get key = some v := by rw [hdoc, Json.Members.get_set_self]
  have hpresent : s'.present key = true := by
    rw [Backed.Store.present, hget, hskip]
    simp
  unfold Store.get
  rw [if_pos hpresent, hget]
  cases hdecode : decodeValue (I.nearer 1) key v with
  | ok bytes => simp only [hdecode, Except.ok.injEq, Option.some.injEq]
  | error e => simp only [hdecode, reduceCtorEq]

/-- A dict that was parsed is an object. -/
theorem isDict_map_reread {text : PyString} (h : strictLoads I text = .ok v) (hdict : isDict v = true) :
    isDict (v.map id reread) = true := by
  have hplain := isPlain_of_strictLoads h
  cases v with
  | obj ms => rw [Json.map_obj]; rfl
  | num a =>
      cases a with
      | oddDict name => exact ((Json.every_num _).1 hplain).elim
      | _ => cases hdict
  | _ => cases hdict

/-- The canonical bytes of an object are encoded to an object of the same bytes. -/
theorem encodeValue_canonical (hmeta : isMetadataKey key = true) (h : encodeValue I key b = .ok v)
    {data : Bytes} (hdata : decodeValue (I.nearer 1) key v = .ok data) :
    canonicalForm (I.nearer 1) b = .ok data ∧
      ∃ w, encodeValue I key data = .ok w ∧ decodeValue (I.nearer 1) key w = .ok data := by
  obtain ⟨hload, hdict⟩ := (encodeValue_metadata_eq_ok hmeta).1 h
  obtain ⟨text, htext, hparsed⟩ := strictLoadsBytes_eq_ok hload
  rw [Python.decodeValue_metadata hmeta, if_pos hdict] at hdata
  constructor
  · have hload' : strictLoadsBytes (I.nearer 1) b = .ok v := hload
    rw [canonicalForm, hload']
    exact hdata
  · have hread : strictLoadsBytes I data = .ok (v.map id reread) :=
      strictLoadsBytes_canonical (isValue_of_strictLoads htext hparsed)
        (depth_le_of_strictLoads hparsed) hdata
    have hdict' := isDict_map_reread hparsed hdict
    refine ⟨v.map id reread, (encodeValue_metadata_eq_ok hmeta).2 ⟨hread, hdict'⟩, ?_⟩
    rw [Python.decodeValue_metadata hmeta, if_pos hdict']
    cases hdumps : canonicalDumps (I.nearer 1) v ((I.nearer 1).frames + 1) with
    | error e => rw [hdumps] at hdata; cases hdata
    | ok canonical =>
        rw [hdumps] at hdata
        rw [canonicalDumps_reread hdumps]
        exact hdata

/-- Metadata is read back if and only if the object has no lone surrogate and nests no deeper
than it can be written. -/
theorem readsBack_iff (hkey : checkKey key = none) (hmeta : isMetadataKey key = true) :
    ReadsBack I key b ↔ IsReadable I b := by
  have hdecode : ∀ {v data}, strictLoadsBytes I b = .ok v → isDict v = true →
      (decodeValue (I.nearer 1) key v = .ok data ↔
        (v.Every IsWellFormed (fun _ => True) (fun _ => True) ∧ need I v ≤ I.frames + 2) ∧
          data = Unicode.encodeUtf8 (canonicalTree v).text) := by
    intro v data hload hdict
    obtain ⟨text, -, hparsed⟩ := strictLoadsBytes_eq_ok hload
    rw [Python.decodeValue_metadata hmeta, if_pos hdict]
    exact dumpsBytes_eq_ok_iff (I := I.nearer 1) (isPlain_of_strictLoads hparsed)
  constructor
  · intro h v hload hdict
    have hencode := (encodeValue_metadata_eq_ok hmeta).2 ⟨hload, hdict⟩
    obtain ⟨s', hs'⟩ := exists_setBytes (s := ⟨.empty, .empty, false, ∅⟩) rfl hkey hencode
    obtain ⟨-, -, v', hv', hget⟩ := get_of_setBytes hs'
    obtain rfl := Except.ok.inj (hencode.symm.trans hv')
    obtain ⟨data, -, hdata, -⟩ := h _ s' hs'
    exact ((hdecode hload hdict).1 ((hget data).1 hdata)).1
  · intro h s s' hset
    obtain ⟨hro, -, v, hv, hget⟩ := get_of_setBytes hset
    obtain ⟨hload, hdict⟩ := (encodeValue_metadata_eq_ok hmeta).1 hv
    have hdata := (hdecode hload hdict).2 ⟨h v hload hdict, rfl⟩
    obtain ⟨hform, w, hw, hagain⟩ := encodeValue_canonical hmeta hv hdata
    refine ⟨_, hform, (hget _).2 hdata, ?_⟩
    have hrewrite : ∀ again u data, encodeValue I key again = .ok u →
        decodeValue (I.nearer 1) key u = .ok data →
        ∃ s'', s'.setBytes I memoryBacking key again = (s'', .ok ()) ∧
          (s''.get I key : Except (StoreError Empty) _) = .ok (some data) := by
      intro again u data hu hdec
      obtain ⟨s'', hs''⟩ := exists_setBytes hro hkey hu
      obtain ⟨-, -, u', hu', hget''⟩ := get_of_setBytes hs''
      obtain rfl := Except.ok.inj (hu.symm.trans hu')
      exact ⟨s'', hs'', (hget'' _).2 hdec⟩
    exact List.forall_mem_cons.2 ⟨hrewrite b v _ hv hdata,
      List.forall_mem_singleton.2 (hrewrite _ w _ hw hagain)⟩

end Python

/-! ## Both -/

namespace Conformance

/-- In TypeScript and in Python, metadata that was written to a store in memory is read back
in canonical form, and can be written again, if and only if the object that was parsed can be
written: it has no lone surrogate, and in Python nests no deeper than the writer can. -/
theorem readable_iff (data : List UInt8) :
    (∀ key : TypeScript.JsString, TypeScript.checkKey (TypeScript.docKey key) = none →
        TypeScript.isMetadataKey (TypeScript.docKey key) = true →
        (TypeScript.ReadsBack key data ↔ TypeScript.IsReadable data)) ∧
      ∀ (I : Python.Interpreter) (key : Python.PyString), Python.checkKey key = none →
        Python.isMetadataKey key = true →
        (Python.ReadsBack I key data ↔ Python.IsReadable I data) :=
  ⟨fun _ hkey hmeta => TypeScript.readsBack_iff hkey hmeta,
    fun _ _ hkey hmeta => Python.readsBack_iff hkey hmeta⟩

/-- The metadata `{"a":1}`. -/
def oneMember : List UInt8 := [0x7B, 0x22, 0x61, 0x22, 0x3A, 0x31, 0x7D]

theorem readable_iff_oneMember :
    (TypeScript.ReadsBack (TypeScript.js "/zarr.json") oneMember ↔ TypeScript.IsReadable oneMember) ∧
      (Python.ReadsBack Python.cpython (Python.py "zarr.json") oneMember ↔
        Python.IsReadable Python.cpython oneMember) :=
  ⟨(readable_iff oneMember).1 (TypeScript.js "/zarr.json") (by decide) (by decide),
    (readable_iff oneMember).2 Python.cpython (Python.py "zarr.json") (by decide) (by decide)⟩

/-- The metadata `{"a":"\ud800"}`. -/
def loneSurrogate : List UInt8 :=
  [0x7B, 0x22, 0x61, 0x22, 0x3A, 0x22, 0x5C, 0x75, 0x64, 0x38, 0x30, 0x30, 0x22, 0x7D]

/-- Metadata with an escaped lone surrogate is written, and reading it fails. -/
theorem not_readable_loneSurrogate :
    (∃ s', TypeScript.emptyStore.setBytes TypeScript.memoryBacking (TypeScript.js "/zarr.json")
          loneSurrogate = (s', .ok ()) ∧
        (TypeScript.Store.get s' (TypeScript.js "/zarr.json") : Except (TypeScript.StoreError Empty) _)
          = .error (.codec .loneSurrogate)) ∧
      ∃ s', Python.Store.setBytes Python.cpython Python.memoryBacking ⟨.empty, .empty, false, ∅⟩
          (Python.py "zarr.json") loneSurrogate = (s', .ok ()) ∧
        (Python.Store.get Python.cpython s' (Python.py "zarr.json") :
          Except (Python.StoreError Empty) _) = .error (.codec (.value .unicodeEncode)) :=
  ⟨⟨_, rfl, rfl⟩, ⟨_, rfl, rfl⟩⟩

end Conformance
