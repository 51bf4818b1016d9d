import ZarrInline.Json.Results
import ZarrInline.Numeric.Sorts
import ZarrInline.Python.Conversion
import ZarrInline.Rust.Conformance

/-!
# Normal form

A value of a document is in normal form if encoding the bytes it decodes to gives the value
back.  What is encoded at a byte key is in normal form, since it is stored inline only if it
is written as the bytes were.

At a metadata key the bytes are parsed and stored as they are.  A float such as `1.0` is
written as an integer when the value is read, so a cycle of `get` and `set` turns it into
one.  The cycle gives the value back if and only if no float in it prints as an integer, and
the next cycle changes nothing.
-/

/-! ## Python -/

namespace Python

open Numeric (Number Double)

variable {I : Interpreter} {key : PyString} {data : Bytes} {v : PyValue}

/-- An integer, or a float that does not print as one. -/
def PyAtom.IsNormal : PyAtom → Prop
  | .float x => ¬ x.toToken.IsInteger
  | _ => True

instance : DecidablePred PyAtom.IsNormal
  | .float _ => inferInstanceAs (Decidable (¬ _))
  | .int _ => inferInstanceAs (Decidable True)
  | .oddDict _ => inferInstanceAs (Decidable True)
  | .other _ => inferInstanceAs (Decidable True)

/-- No float in a value prints as an integer. -/
def IsNormal (v : PyValue) : Prop := v.Every (fun _ => True) PyAtom.IsNormal (fun _ => True)

instance : DecidablePred IsNormal := fun v => inferInstanceAs (Decidable (v.Every _ _ _))

/-- A value with integers in the place of the floats that print as one. -/
def canonicalValue (v : PyValue) : PyValue := v.map id reread

/-- A number of the data model. -/
def PyAtom.ofNumber : Number → PyAtom
  | .int i => .int i
  | .float x => .float x

theorem reread_ofNumber (a : Number) : reread (.ofNumber a) = .ofNumber a.canonical := by
  have hread : ∀ n : Numeric.NumberToken, numberValue n = .ofNumber n.toNumber := by
    intro n
    rw [numberValue, Numeric.NumberToken.toNumber]
    split <;> rfl
  cases a with
  | int i => exact hread _
  | float x => exact hread _

theorem reread_eq_self_iff {a : PyAtom} (h : a.IsPlain) : reread a = a ↔ a.IsNormal := by
  have hnumber : ∀ b : Number, b.IsFinite →
      (reread (.ofNumber b) = .ofNumber b ↔ b.IsNormal) := by
    intro b hb
    rw [reread_ofNumber, ← Number.canonical_eq_self_iff hb]
    constructor
    · intro heq
      cases hb' : b.canonical <;> cases b <;> rw [hb'] at heq <;> cases heq <;> rfl
    · exact congrArg _
  cases a with
  | int i => exact hnumber (.int i) trivial
  | float x => exact hnumber (.float x) h
  | oddDict name => exact h.elim
  | other type => exact h.elim

theorem canonicalValue_eq_self_iff (h : IsPlain v) : canonicalValue v = v ↔ IsNormal v :=
  Json.map_eq_self_iff h fun _ => reread_eq_self_iff

theorem isDict_canonicalValue (h : IsPlain v) (hdict : isDict v = true) :
    isDict (canonicalValue v) = true := by
  cases v with
  | obj ms => rfl
  | num a =>
      have ha : a.IsPlain := (Json.every_num a).1 h
      cases a with
      | oddDict name => exact ha.elim
      | _ => cases hdict
  | _ => cases hdict

/-- What metadata is read as is encoded as the canonical form of the value. -/
theorem encodeValue_canonicalValue (hkey : isMetadataKey key = true) {bytes : Bytes}
    (h : encodeValue I key data = .ok v) (hbytes : decodeValue I key v = .ok bytes) :
    IsPlain v ∧ encodeValue I key bytes = .ok (canonicalValue v) ∧
      decodeValue I key (canonicalValue v) = .ok bytes := by
  obtain ⟨hparsed, hdict⟩ := (encodeValue_metadata_eq_ok hkey).1 h
  obtain ⟨text, htext, hloads⟩ := strictLoadsBytes_eq_ok hparsed
  rw [decodeValue_metadata hkey, if_pos hdict] at hbytes
  obtain ⟨out, hout, hencode⟩ := Json.bind_eq_ok hbytes
  have hplain : IsPlain v := (canonicalDumps_eq_ok hout).1
  have hdict' : isDict (canonicalValue v) = true := isDict_canonicalValue hplain hdict
  have hread : strictLoadsBytes I bytes = .ok (canonicalValue v) :=
    strictLoadsBytes_canonical (isValue_of_strictLoads htext hloads)
      (depth_le_of_strictLoads hloads) hbytes
  refine ⟨hplain, (encodeValue_metadata_eq_ok hkey).2 ⟨hread, hdict'⟩, ?_⟩
  rw [decodeValue_metadata hkey, if_pos hdict', canonicalValue, canonicalDumps_reread hout]
  exact hencode

end Python

/-! ## Rust -/

namespace Rust

open Numeric (Number NumberToken)

variable {C : Crates} {key : RustString} {data : Bytes} {value : Value}

/-- A value with its numbers in the place of their tokens. -/
def dataModel (value : Value) : Json RustString Number := value.map id NumberToken.toNumber

/-- No float in a value prints as an integer. -/
def IsNormal (value : Value) : Prop :=
  (dataModel value).Every (fun _ => True) Number.IsNormal (fun _ => True)

instance : DecidablePred IsNormal := fun value =>
  inferInstanceAs (Decidable ((dataModel value).Every _ _ _))

theorem toNumber_canonicalToken (n : NumberToken) :
    (Json.canonicalToken n).toNumber = n.toNumber.canonical :=
  congrArg NumberToken.toNumber (Number.toToken_toNumber n).symm

theorem isFinite_toNumber {n : NumberToken} (h : Json.InRange n) : n.toNumber.IsFinite := by
  rw [NumberToken.toNumber]
  split
  · trivial
  · next hint => exact h.resolve_left hint

theorem dataModel_canonicalValue_eq_iff (h : value.HasNumbers) :
    dataModel (canonicalValue value) = dataModel value ↔ IsNormal value := by
  have hmap : dataModel (canonicalValue value) = (dataModel value).map id Number.canonical := by
    rw [dataModel, dataModel, canonicalValue, Json.map_map, Json.map_map]
    exact Json.map_congr h (fun _ _ => rfl) fun n _ => toNumber_canonicalToken n
  have hfinite : (dataModel value).Every (fun _ => True) Number.IsFinite (fun _ => True) := by
    rw [dataModel, Json.every_map]
    exact h.imp (fun _ => id) (fun _ => isFinite_toNumber) fun _ => id
  rw [hmap]
  exact Json.map_eq_self_iff hfinite fun _ => Number.canonical_eq_self_iff

/-- What metadata is read as is encoded as the canonical form of the value. -/
theorem encodeValue_canonicalValue (hkey : isMetadataKey key = true) {bytes : Bytes}
    (h : encodeValue C key data = .ok value) (hbytes : decodeValue C key value = .ok bytes) :
    value.HasNumbers ∧ encodeValue C key bytes = .ok (canonicalValue value) ∧
      decodeValue C key (canonicalValue value) = .ok bytes := by
  obtain ⟨hparsed, hobj⟩ := (encodeValue_metadata_eq_ok hkey).1 h
  have hvalue : IsValue value := isValue_of_strictFromSlice hparsed
  have hkind : TakesJson key value := (TakesJson.of_metadata hkey).2 hobj
  have htext : bytes = Unicode.encodeUtf8 (canonicalTree value).text := by
    rw [hkind.decodeValue_eq, canonicalToString_eq hvalue.hasNumbers] at hbytes
    exact (Except.ok.inj hbytes).symm
  refine ⟨hvalue.hasNumbers, ?_, (decodeValue_canonicalValue hvalue.hasNumbers key).trans hbytes⟩
  rw [htext, encodeValue_canonicalTree hvalue hkind, if_pos (depth_le_of_strictFromSlice hparsed)]

end Rust

/-! ## A cycle of `get` and `set` -/

namespace Conformance

/-- What a value is read as is encoded as `w`, which is read as the same. -/
def Cycles {υ β ε : Type} (encode : β → Except ε υ) (decode : υ → Except ε β) (v w : υ) :
    Prop :=
  ∃ data, decode v = .ok data ∧ encode data = .ok w ∧ decode w = .ok data

/-- A value after a cycle of `get` and `set` in Python. -/
def pythonCycle (key : Python.PyString) (v : Python.PyValue) : Python.PyValue :=
  if Python.isMetadataKey key then Python.canonicalValue v else v

/-- A value after a cycle of `get` and `set` in Rust. -/
def rustCycle (key : Rust.RustString) (v : Rust.Value) : Rust.Value :=
  if Rust.isMetadataKey key then Rust.canonicalValue v else v

theorem python_cycles {I : Python.Interpreter} {key : Python.PyString}
    {data : Python.Bytes} {v : Python.PyValue} (h : Python.encodeValue I key data = .ok v)
    (hread : ∃ bytes, Python.decodeValue I key v = .ok bytes) :
    Cycles (Python.encodeValue I key) (Python.decodeValue I key) v (pythonCycle key v) ∧
      (pythonCycle key v = v ↔ (Python.isMetadataKey key = true → Python.IsNormal v)) := by
  obtain ⟨bytes, hbytes⟩ := hread
  cases hkey : Python.isMetadataKey key with
  | true =>
      obtain ⟨hplain, hencode, hdecode⟩ := Python.encodeValue_canonicalValue hkey h hbytes
      rw [pythonCycle, if_pos hkey, Python.canonicalValue_eq_self_iff hplain]
      exact ⟨⟨bytes, hbytes, hencode, hdecode⟩, fun hnormal _ => hnormal, fun hnormal => hnormal rfl⟩
  | false =>
      have hsame : Python.decodeValue I key v = .ok data := by
        rw [Python.decodeValue_of_encodeValue h, if_neg (by rw [hkey]; exact Bool.false_ne_true)]
      rw [pythonCycle, if_neg (by rw [hkey]; exact Bool.false_ne_true)]
      exact ⟨⟨data, hsame, h, hsame⟩, iff_of_true rfl fun h => by cases h⟩

theorem rust_cycles {C : Rust.Crates} {key : Rust.RustString}
    {data : Rust.Bytes} {v : Rust.Value} (h : Rust.encodeValue C key data = .ok v)
    (hread : ∃ bytes, Rust.decodeValue C key v = .ok bytes) :
    Cycles (Rust.encodeValue C key) (Rust.decodeValue C key) v (rustCycle key v) ∧
      (Rust.dataModel (rustCycle key v) = Rust.dataModel v ↔
        (Rust.isMetadataKey key = true → Rust.IsNormal v)) := by
  obtain ⟨bytes, hbytes⟩ := hread
  cases hkey : Rust.isMetadataKey key with
  | true =>
      obtain ⟨hnumbers, hencode, hdecode⟩ := Rust.encodeValue_canonicalValue hkey h hbytes
      rw [rustCycle, if_pos hkey, Rust.dataModel_canonicalValue_eq_iff hnumbers]
      exact ⟨⟨bytes, hbytes, hencode, hdecode⟩, fun hnormal _ => hnormal, fun hnormal => hnormal rfl⟩
  | false =>
      have hsame := Rust.decodeValue_of_encodeValue hkey h
      rw [rustCycle, if_neg (by rw [hkey]; exact Bool.false_ne_true)]
      exact ⟨⟨data, hsame, h, hsame⟩, iff_of_true rfl fun h => by cases h⟩

/-- The next cycle changes nothing. -/
theorem Cycles.again {υ β ε : Type} {encode : β → Except ε υ} {decode : υ → Except ε β}
    {v w : υ} (h : Cycles encode decode v w) : Cycles encode decode w w := by
  obtain ⟨data, -, hencode, hdecode⟩ := h
  exact ⟨data, hdecode, hencode, hdecode⟩

/-- A cycle of `get` and `set` gives a value that was encoded back, at a byte key, and at a
metadata key if and only if no float in it prints as an integer.  At a metadata key the cycle
puts an integer in the place of such a float and leaves the rest as it is, and the next cycle
changes nothing. -/
theorem encoded_cycles (I : Python.Interpreter) (C : Rust.Crates) :
    (∀ key data v, Python.encodeValue I key data = .ok v →
        (∃ bytes, Python.decodeValue I key v = .ok bytes) →
        Cycles (Python.encodeValue I key) (Python.decodeValue I key) v (pythonCycle key v) ∧
          Cycles (Python.encodeValue I key) (Python.decodeValue I key) (pythonCycle key v)
            (pythonCycle key v) ∧
          (pythonCycle key v = v ↔ (Python.isMetadataKey key = true → Python.IsNormal v))) ∧
      ∀ key data v, Rust.encodeValue C key data = .ok v →
        (∃ bytes, Rust.decodeValue C key v = .ok bytes) →
        Cycles (Rust.encodeValue C key) (Rust.decodeValue C key) v (rustCycle key v) ∧
          Cycles (Rust.encodeValue C key) (Rust.decodeValue C key) (rustCycle key v)
            (rustCycle key v) ∧
          (Rust.dataModel (rustCycle key v) = Rust.dataModel v ↔
            (Rust.isMetadataKey key = true → Rust.IsNormal v)) := by
  constructor
  · intro key data v h hread
    obtain ⟨hcycle, hsame⟩ := python_cycles h hread
    exact ⟨hcycle, hcycle.again, hsame⟩
  · intro key data v h hread
    obtain ⟨hcycle, hsame⟩ := rust_cycles h hread
    exact ⟨hcycle, hcycle.again, hsame⟩

/-- `{"x":1.0}`. -/
def floatMetadata : List UInt8 := [123, 34, 120, 34, 58, 49, 46, 48, 125]

theorem encoded_cycles_floatMetadata :
    ∃ v, Python.encodeValue Python.cpython (Python.py "zarr.json") floatMetadata = .ok v ∧
      Cycles (Python.encodeValue Python.cpython (Python.py "zarr.json"))
        (Python.decodeValue Python.cpython (Python.py "zarr.json")) v
        (pythonCycle (Python.py "zarr.json") v) := by
  have hread : (Python.encodeValue Python.cpython (Python.py "zarr.json") floatMetadata).toOption.any
      (fun v => (Python.decodeValue Python.cpython (Python.py "zarr.json") v).toBool) = true := by
    decide +kernel
  obtain ⟨v, hv, hdecode⟩ := Json.exists_of_any_toOption hread
  exact ⟨v, hv, ((encoded_cycles Python.cpython Rust.crates).1 _ _ v hv (Json.exists_of_toBool hdecode)).1⟩

/-- After a cycle an integer stands where a float was stored. -/
theorem floatMetadata_not_normal :
    (∃ v w, Python.encodeValue Python.cpython (Python.py "zarr.json") floatMetadata = .ok v ∧
        Cycles (Python.encodeValue Python.cpython (Python.py "zarr.json"))
          (Python.decodeValue Python.cpython (Python.py "zarr.json")) v w ∧ w ≠ v) ∧
      ∃ v w, Rust.encodeValue Rust.crates "zarr.json".toList floatMetadata = .ok v ∧
        Cycles (Rust.encodeValue Rust.crates "zarr.json".toList)
          (Rust.decodeValue Rust.crates "zarr.json".toList) v w ∧
          Rust.dataModel w ≠ Rust.dataModel v := by
  constructor
  · have hread : (Python.encodeValue Python.cpython (Python.py "zarr.json") floatMetadata).toOption.any
        (fun v => (Python.decodeValue Python.cpython (Python.py "zarr.json") v).toBool &&
          !decide (Python.IsNormal v)) = true := by decide +kernel
    obtain ⟨v, hv, hp⟩ := Json.exists_of_any_toOption hread
    rw [Bool.and_eq_true, Bool.not_eq_true', decide_eq_false_iff_not] at hp
    obtain ⟨hdecode, hnormal⟩ := hp
    obtain ⟨hcycle, hsame⟩ := python_cycles hv (Json.exists_of_toBool hdecode)
    refine ⟨v, _, hv, hcycle, fun heq => hnormal (hsame.1 heq ?_)⟩
    decide
  · have hread : (Rust.encodeValue Rust.crates "zarr.json".toList floatMetadata).toOption.any
        (fun v => (Rust.decodeValue Rust.crates "zarr.json".toList v).toBool &&
          !decide (Rust.IsNormal v)) = true := by decide +kernel
    obtain ⟨v, hv, hp⟩ := Json.exists_of_any_toOption hread
    rw [Bool.and_eq_true, Bool.not_eq_true', decide_eq_false_iff_not] at hp
    obtain ⟨hdecode, hnormal⟩ := hp
    obtain ⟨hcycle, hsame⟩ := rust_cycles hv (Json.exists_of_toBool hdecode)
    refine ⟨v, _, hv, hcycle, fun heq => hnormal (hsame.1 heq ?_)⟩
    decide

end Conformance
