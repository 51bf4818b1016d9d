import ZarrInline.Json.Results
import ZarrInline.Numeric.Sorts
import ZarrInline.TypeScript.Document

/-!
# Payloads of the crosscheck harness

`payloadStringify` of `crosscheck.ts`: the text of a payload, in which an integer token is a
big integer and every other number token a number.  `String` prints an integral number below
`1e21` as an integer, so a `.0` is appended there and nowhere else.

Reading the text back gives the payload, with each number of the sort it had
(`strictParse_payloadStringify`).
-/

namespace TypeScript

open Numeric (Text Double NumberToken)
open Json (StrItem)

/-! ## The source -/

/-- What `payloadStringify` throws. -/
inductive PayloadError where
  | nonFinite
  /-- No payload: an atom, or an object of members. -/
  | unsupported (atom : Option JsAtom)

/-- The message of an error, with a value as `String` shows it. -/
def PayloadError.message (shown : Option JsAtom → JsString) : PayloadError → JsString
  | .nonFinite => js "payload numbers must be finite (use the string forms)"
  | .unsupported atom => js "unsupported payload value: " ++ shown atom

/-- `/^-?\d+$/.test(text)`. -/
def isIntegerText (text : JsString) : Bool :=
  let digits := (NumberToken.readSign (text.map UInt16.toNat)).2
  !digits.isEmpty && digits.all fun c => (Numeric.digit? c).isSome

/-- The branch of `payloadStringify` for a number. -/
def payloadNumber (value : Double) : Except PayloadError JsString :=
  if ¬ value.IsFinite then .error .nonFinite
  else
    let text := ofAscii value.toText
    .ok (if isIntegerText text then text ++ js ".0" else text)

/-- The branches of `payloadStringify` for atoms. -/
def payloadAtom : JsAtom → Except PayloadError JsString
  | .bigint i => .ok (ofAscii (NumberToken.ofInt i).render)
  | .number x => payloadNumber x
  | a => .error (.unsupported (some a))

/-- `payloadStringify`. -/
def payloadStringify : JsValue → Except PayloadError JsString :=
  Json.fold {
    null := .ok (js "null")
    bool := fun b => .ok (if b then js "true" else js "false")
    str := fun s => .ok (jsonStringifyKey s)
    num := payloadAtom
    arr := fun xs => (Json.sequence xs).map fun xs =>
      unit '[' :: (Json.sepBy (unit ',') xs ++ [unit ']'])
    obj := fun _ => .error (.unsupported none) }

/-! ## Payloads -/

/-- There is no object in a value. -/
def IsObjectFree (v : JsValue) : Prop := v.Every (fun _ => True) (fun _ => True) (fun _ => False)

instance : DecidablePred IsObjectFree := fun v => inferInstanceAs (Decidable (v.Every _ _ _))

/-- An atom, with a zero in the place of a negative zero. -/
def JsAtom.dropNegZero : JsAtom → JsAtom
  | .number x => .number x.dropNegZero
  | a => a

/-- The token that is written for an atom of a payload. -/
def payloadToken : JsAtom → NumberToken
  | .number x => x.floatToken
  | a => atomToken a

/-- A character as `JSON.stringify` writes it. -/
def stringifyItem (c : ℕ) : StrItem :=
  if Unicode.IsSurrogate c then .unit (UInt16.ofNat c) else Json.canonicalItem c

/-- A string as `JSON.stringify` writes it. -/
def stringifyItems (s : JsString) : List StrItem := (Unicode.codePoints s).map stringifyItem

/-- The tree whose compact text the text of a payload is. -/
def payloadTree (v : JsValue) : Json.Raw := v.map stringifyItems payloadToken

/-! ## Strings -/

theorem lt_of_mem_itemText_unit {u : UInt16} {c : ℕ} (h : c ∈ Json.itemText (.unit u)) :
    0 < c ∧ c < 128 := by
  have hhex : ∀ d : Fin 16, 0 < Json.hexChar d ∧ Json.hexChar d < 128 := by decide
  rcases List.mem_cons.1 h with rfl | h
  · decide
  · rcases List.mem_cons.1 h with rfl | h
    · decide
    · obtain ⟨d, -, rfl⟩ := List.mem_map.1 h
      exact hhex d

theorem jsonStringifyKey_eq (s : JsString) :
    jsonStringifyKey s = Unicode.encodeUtf16 (Json.strText (stringifyItems s)) := by
  have hitem : ∀ c, (if Unicode.IsSurrogate c then ofAscii (Json.itemText (.unit (UInt16.ofNat c)))
      else (Json.itemText (Json.canonicalItem c)).flatMap Unicode.encodeUnits)
        = Unicode.encodeUtf16 (Json.itemText (stringifyItem c)) := by
    intro c
    rw [stringifyItem]
    split
    · exact (encodeUtf16_of_lt fun d hd => (lt_of_mem_itemText_unit hd).2.trans (by norm_num)).symm
    · rfl
  rw [jsonStringifyKey, Json.strText, Unicode.encodeUtf16_cons, Unicode.encodeUtf16_append,
    stringifyItems, List.flatMap_map, Unicode.encodeUtf16, List.flatMap_assoc]
  simp only [hitem]
  rfl

theorem stringValue_stringifyItems (s : JsString) : stringValue (stringifyItems s) = s := by
  have hitem : ∀ c, itemUnits (stringifyItem c) = Unicode.encodeUnits c := by
    intro c
    rw [stringifyItem]
    split
    · next hc => rw [encodeUnits_of_lt (by have := hc.2; omega)]; rfl
    · exact itemUnits_canonicalItem
  rw [stringValue, stringifyItems, List.flatMap_map]
  simp only [hitem]
  exact Unicode.encodeUtf16_codePoints s

theorem valid_stringifyItem (c : ℕ) : (stringifyItem c).Valid := by
  rw [stringifyItem]
  split
  · trivial
  · exact Json.valid_canonicalItem c

/-! ## Numbers -/

theorem isIntegerText_render (n : NumberToken) :
    isIntegerText (ofAscii n.render) = decide n.IsInteger := by
  have hmap : (ofAscii n.render).map UInt16.toNat = n.render := by
    rw [ofAscii, List.map_map]
    refine (List.map_congr_left fun c hc => ?_).trans (List.map_id _)
    exact UInt16.toNat_ofNat_of_lt' ((n.lt_of_mem_render c hc).trans (by norm_num))
  rw [isIntegerText, hmap]
  exact n.all_digits_render

theorem payloadNumber_eq {x : Double} (h : x.IsFinite) :
    payloadNumber x = .ok (ofAscii x.floatToken.render) := by
  rw [payloadNumber, if_neg (not_not.2 h), Double.toText_eq_render h, Double.floatToken]
  simp only [isIntegerText_render, decide_eq_true_eq]
  split
  · next hint =>
      rw [NumberToken.render_withPoint hint, ofAscii, ofAscii, List.map_append]
      rfl
  · rfl

theorem revive_payloadToken {a : JsAtom} (h : a.IsCanonical) :
    revive ⟨true⟩ (payloadToken a) = .ok a.dropNegZero := by
  cases a with
  | number x =>
      have hx : x.IsFinite := h
      rw [revive, payloadToken, Double.ofToken_floatToken hx]
      simp only [Double.not_isInteger_floatToken, and_false, if_false]
      rw [if_neg (not_not.2 (Double.isFinite_dropNegZero.2 hx))]
      rfl
  | bigint i =>
      show revive ⟨true⟩ (.ofInt i) = _
      rw [revive]
      simp only [NumberToken.isInteger_ofInt, true_or, and_true, if_true, NumberToken.intValue_ofInt]
      rfl
  | _ => cases h

/-! ## Text -/

/-- How `payloadStringify` writes what is no object. -/
def payloadScript : Json.Script JsString JsAtom UInt16 PayloadError where
  ascii := UInt16.ofNat
  str := fun s => .ok (jsonStringifyKey s)
  num := payloadAtom

/-- The same over code points. -/
def payloadTextScript : Json.Script JsString JsAtom ℕ PayloadError where
  ascii := id
  str := fun s => .ok (Json.strText (stringifyItems s))
  num := fun a => (payloadAtom a).map fun _ => (payloadToken a).render

theorem payloadStringify_eq_write {v : JsValue} (h : IsObjectFree v) :
    payloadStringify v = v.write payloadScript := by
  induction v using Json.inductionOn with
  | null => rfl
  | bool b => cases b <;> rfl
  | str s => rfl
  | num a => rfl
  | arr xs ih =>
      have hxs : xs.map payloadStringify = xs.map (Json.write payloadScript) :=
        List.map_congr_left fun x hx => ih x hx ((Json.every_arr xs).1 h x hx)
      rw [payloadStringify, Json.fold_arr, ← payloadStringify, hxs, Json.write_arr]
      rfl
  | obj ms ih => exact ((Json.every_obj ms).1 h).1.elim

theorem payloadAtom_eq (a : JsAtom) :
    payloadAtom a = (payloadTextScript.num a).map Unicode.encodeUtf16 := by
  have hrender : ∀ n : NumberToken, ofAscii n.render = Unicode.encodeUtf16 n.render := fun n =>
    (encodeUtf16_of_lt fun c hc => (n.lt_of_mem_render c hc).trans (by norm_num)).symm
  show payloadAtom a = ((payloadAtom a).map fun _ => (payloadToken a).render).map Unicode.encodeUtf16
  cases a with
  | number x =>
      by_cases hx : x.IsFinite
      · rw [payloadAtom, payloadNumber_eq hx, hrender]
        rfl
      · rw [payloadAtom, payloadNumber, if_pos hx]
        rfl
  | bigint i =>
      rw [payloadAtom, hrender]
      rfl
  | _ => rfl

theorem write_payloadScript (v : JsValue) :
    v.write payloadScript = (v.write payloadTextScript).map Unicode.encodeUtf16 := by
  have hascii : ∀ c, c < 0x10000 →
      Unicode.encodeUnits (payloadTextScript.ascii c) = [payloadScript.ascii c] := by
    intro c hc
    exact encodeUnits_of_lt hc
  have hstr : ∀ s, payloadScript.str s = (payloadTextScript.str s).map Unicode.encodeUtf16 := by
    intro s
    exact congrArg Except.ok (jsonStringifyKey_eq s)
  exact Json.write_flatMap (by decide) hascii hstr payloadAtom_eq v

theorem isOk_payloadAtom {a : JsAtom} (h : a.IsCanonical) : Json.IsOk (payloadAtom a) := by
  cases a with
  | number x =>
      rw [payloadAtom, payloadNumber_eq h]
      trivial
  | bigint i => trivial
  | _ => cases h

/-- What a payload of finite numbers and big integers is written as. -/
theorem payloadStringify_eq {v : JsValue} (hfree : IsObjectFree v)
    (h : v.Every (fun _ => True) JsAtom.IsCanonical (fun _ => True)) :
    payloadStringify v = .ok (Unicode.encodeUtf16 (payloadTree v).text) := by
  have hok : Json.IsOk (v.write payloadTextScript) := by
    refine Json.isOk_write.2 (h.imp (fun _ _ => trivial) (fun a ha => ?_) fun _ => id)
    exact Json.isOk_map.2 (isOk_payloadAtom ha)
  obtain ⟨t, ht⟩ := Json.isOk_iff.1 hok
  have htext : t = (payloadTree v).text := by
    refine Json.write_eq_text (w := payloadTextScript) rfl (fun s t hs => ?_) (fun a t ha => ?_) ht
    · exact (Except.ok.inj hs).symm
    · obtain ⟨u, -, rfl⟩ := Json.exists_of_map_eq_ok ha
      rfl
  rw [payloadStringify_eq_write hfree, write_payloadScript, ht, htext]
  rfl

/-! ## Reading a payload back -/

theorem isScalar_payloadTree (v : JsValue) : ∀ c ∈ (payloadTree v).text, Unicode.IsScalar c := by
  have hascii : ∀ c, 0 < c → c < 128 → Unicode.IsScalar c := fun c _ hc =>
    Unicode.isScalar_of_lt (hc.trans (by norm_num))
  refine Json.forall_mem_text hascii ?_
  rw [payloadTree, Json.every_map]
  refine Json.every_of_forall (fun s i hi c hc => ?_) (fun _ => trivial) (fun _ => trivial) v
  obtain ⟨d, hd, rfl⟩ := List.mem_map.1 hi
  rw [stringifyItem] at hc
  split at hc
  · exact hascii c (lt_of_mem_itemText_unit hc).1 (lt_of_mem_itemText_unit hc).2
  · next hsur =>
      rcases Json.itemText_canonicalItem d with hitem | ⟨-, hraw⟩
      · exact hascii c (hitem c hc).1 (hitem c hc).2
      · rw [hraw] at hc
        obtain rfl := List.mem_singleton.1 hc
        exact ⟨Unicode.codePoints_lt s c hd, hsur⟩

theorem writable_payloadTree (v : JsValue) : (payloadTree v).Writable := by
  rw [payloadTree, Json.Writable, Json.every_map]
  refine Json.every_of_forall (fun s i hi => ?_) (fun _ => trivial) (fun _ => trivial) v
  obtain ⟨c, -, rfl⟩ := List.mem_map.1 hi
  exact valid_stringifyItem c

/-- The text of a payload is read as the payload. -/
theorem strictParse_payloadTree {v : JsValue} (hfree : IsObjectFree v)
    (h : v.Every (fun _ => True) JsAtom.IsCanonical (fun _ => True)) :
    strictParse (Unicode.encodeUtf16 (payloadTree v).text) ⟨true⟩
      = .ok (v.map id JsAtom.dropNegZero) := by
  have hload : (payloadTree v).load stringValue arrayIndex? = v.map id payloadToken :=
    Json.load_map (hfree.imp (fun s _ => stringValue_stringifyItems s) (fun _ => id)
      fun _ hfalse => hfalse.elim)
  have hjson : jsonParse (Unicode.encodeUtf16 (payloadTree v).text) = .ok (v.map id payloadToken) := by
    rw [jsonParse, Unicode.codePoints_encodeUtf16 (isScalar_payloadTree v),
      Json.parse_none_text (writable_payloadTree v)]
    exact congrArg _ hload
  rw [strictParse, hjson]
  exact Json.traverse_map h fun a => revive_payloadToken

/-- What is parsed has finite numbers and big integers. -/
theorem isCanonical_of_strictParse {text : JsString} {options : StrictParseOptions} {v : JsValue}
    (h : strictParse text options = .ok v) :
    v.Every (fun _ => True) JsAtom.IsCanonical (fun _ => True) := by
  have hrevive : ∀ n a, revive options n = .ok a → a.IsCanonical := by
    intro n a hn
    rw [revive] at hn
    split at hn
    · cases hn
      trivial
    · split at hn
      · cases hn
      · next hfinite =>
          cases hn
          exact not_not.1 hfinite
  obtain ⟨parsed, -, htraverse⟩ := Json.bind_eq_ok h
  have hall : parsed.Every (fun _ => True) (fun _ => True) (fun _ => True) :=
    Json.every_of_forall (fun _ => trivial) (fun _ => trivial) (fun _ => trivial) parsed
  exact (Json.every_traverse (fun n a hn => iff_of_true (hrevive n a hn) trivial) htraverse).2 hall

/-- A payload without objects that was read with integers as big integers is read back, from
the text `payloadStringify` writes, with every integer a big integer of the same value and
every other number a number of the same value, up to the sign of zero. -/
theorem payloadStringify_preserves_sorts (text : JsString) (v : JsValue)
    (h : strictParse text ⟨true⟩ = .ok v) (hfree : IsObjectFree v) :
    ∃ written, payloadStringify v = .ok written ∧
      strictParse written ⟨true⟩ = .ok (v.map id JsAtom.dropNegZero) :=
  ⟨_, payloadStringify_eq hfree (isCanonical_of_strictParse h),
    strictParse_payloadTree hfree (isCanonical_of_strictParse h)⟩

theorem payloadStringify_preserves_sorts_mixed :
    ∃ v, strictParse (js "[1,1.0,[1e21]]") ⟨true⟩ = .ok v ∧
      ∃ written, payloadStringify v = .ok written ∧
        strictParse written ⟨true⟩ = .ok (v.map id JsAtom.dropNegZero) := by
  have hfree : (strictParse (js "[1,1.0,[1e21]]") ⟨true⟩).toOption.any
      (fun v => decide (IsObjectFree v)) = true := by decide +kernel
  obtain ⟨v, hv, hp⟩ := Json.exists_of_any_toOption hfree
  exact ⟨v, hv, payloadStringify_preserves_sorts _ v hv (of_decide_eq_true hp)⟩

end TypeScript
