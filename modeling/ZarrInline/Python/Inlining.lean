import ZarrInline.Python.Document

/-!
# Byte keys and the recursion limit in Python

`_try_inline_json` parses every payload of a byte key and writes it back, and catches
what these raise if it is a `ValueError`.  A `RecursionError` is not caught.  It is
raised by the parser, when a text opens more brackets than can be read before the
text breaks off or goes wrong, and by the writer, when an array or object takes more
calls than can be nested.  `Manageable` says that neither happens, and a payload is
stored and decodes to itself if and only if it is manageable (`encodeValue_cases`).
-/

namespace Python

open Numeric (Text Double NumberToken)

variable {I : Interpreter}

/-! ## Strict parsing -/

theorem limits_depth : I.limits.depth = some I.scanDepth := rfl

theorem strictLoads_eq_recursion_iff {text : PyString} :
    strictLoads I text = .error .recursion ↔ Json.Opens I.limits text I.scanDepth := by
  rw [← Json.parse_eq_tooDeep_iff limits_depth]
  unfold strictLoads
  cases Json.parse I.limits text with
  | ok raw => simp
  | error e => cases e <;> simp [parseError]

theorem strictLoads_eq_ok {text : PyString} {v : PyValue} (h : strictLoads I text = .ok v) :
    ∃ raw, Json.parse I.limits text = .ok raw ∧ ofRaw raw = v := by
  unfold strictLoads at h
  split at h
  · next raw hraw => exact ⟨raw, hraw, Except.ok.inj h⟩
  · cases h

theorem isPlain_numberValue {n : NumberToken} (h : acceptsNumber n = true) :
    (numberValue n).IsPlain := by
  unfold acceptsNumber numberValue at *
  by_cases hn : n.IsInteger
  · rw [if_pos hn] at h ⊢
    rw [decide_eq_true_eq] at h
    show (Numeric.natDigits n.intValue.natAbs).length ≤ maxStrDigits
    rwa [NumberToken.natAbs_intValue, Numeric.natDigits_ofDigits n.int_ne n.int_lead]
  · rw [if_neg hn] at h ⊢
    exact of_decide_eq_true h

theorem isPlain_ofRaw {raw : Json.Raw} (h : Json.Accepted I.limits raw) : IsPlain (ofRaw raw) := by
  have hload : (Json.read raw).Every (fun _ => True) (fun n => acceptsNumber n = true)
      (Json.Ordered Json.noRank) :=
    Json.every_load h
  rw [IsPlain, ofRaw, Json.every_map]
  exact hload.imp (fun _ _ => trivial) (fun _ => isPlain_numberValue) fun _ _ => trivial

/-- What is parsed can be written, calls permitting. -/
theorem isPlain_of_strictLoads {text : PyString} {v : PyValue} (h : strictLoads I text = .ok v) :
    IsPlain v := by
  obtain ⟨raw, hraw, rfl⟩ := strictLoads_eq_ok h
  exact isPlain_ofRaw (Json.parse_eq_ok_iff.1 hraw).2.1

/-! ## What a byte key stores -/

/-- The payload can be parsed and written back within the recursion limit: before its
first fault it opens no more brackets than can be read, and if it is an array or an
object, then the calls that its canonical text takes can be nested. -/
def Manageable (I : Interpreter) (data : Bytes) : Prop :=
  ∀ text, decode (detectEncoding data) data = some text →
    ¬ Json.Opens I.limits text I.scanDepth ∧
      ∀ raw, Json.parse I.limits.deep text = .ok raw →
        isList (ofRaw raw) = true ∨ isDict (ofRaw raw) = true → need I (ofRaw raw) ≤ I.frames

/-- Writing and encoding a value that was parsed. -/
theorem canonicalDumps_eq {text : PyString} {v : PyValue} (h : strictLoads I text = .ok v) (r : ℕ) :
    canonicalDumps I v r
      = if need I v ≤ r then .ok (canonicalTree v).text else .error .recursion :=
  canonicalWrite_eq (isPlain_of_strictLoads h) r

theorem utf8Encode_ne_recursion (t : Text) : utf8Encode t ≠ .error .recursion := by
  unfold utf8Encode
  split_ifs
  · intro h; cases h
  · intro h; cases h

/-- Inlining stops at the recursion limit if and only if the payload is not
manageable. -/
theorem inlineBody_eq_recursion_iff {data : Bytes} :
    inlineBody I data = .error .recursion ↔ ¬ Manageable I data := by
  unfold inlineBody strictLoadsBytes Manageable
  cases htext : decode (detectEncoding data) data with
  | none => simp [bind, Except.bind]
  | some text =>
      simp only [Option.some.injEq, forall_eq']
      by_cases hopens : Json.Opens I.limits text I.scanDepth
      · rw [strictLoads_eq_recursion_iff.2 hopens]
        simp [bind, Except.bind, hopens]
      · have hdeep := Json.parse_of_not_opens limits_depth hopens
        rw [← hdeep]
        cases hloads : strictLoads I text with
        | error e =>
            have hparse : ∀ raw, Json.parse I.limits text ≠ .ok raw := by
              intro raw hraw
              rw [strictLoads, hraw] at hloads
              cases hloads
            have he : e ≠ .recursion := by
              rintro rfl
              exact hopens (strictLoads_eq_recursion_iff.1 hloads)
            simp [bind, Except.bind, hopens, hparse, he]
        | ok v =>
            obtain ⟨raw, hraw, rfl⟩ := strictLoads_eq_ok hloads
            simp only [hraw, bind, Except.bind, hopens, not_false_eq_true, true_and,
              Except.ok.injEq, forall_eq', canonicalDumps_eq hloads]
            by_cases hcont : isList (ofRaw raw) = true ∨ isDict (ofRaw raw) = true
            · by_cases hneed : need I (ofRaw raw) ≤ I.frames
              · simp only [if_pos hcont, hneed, if_true, implies_true, not_true_eq_false, iff_false]
                cases hbytes : utf8Encode (canonicalTree (ofRaw raw)).text with
                | ok bytes => simp only [pure, Except.pure, reduceCtorEq, not_false_eq_true]
                | error e =>
                    simp only [Except.error.injEq]
                    rintro rfl
                    exact utf8Encode_ne_recursion _ hbytes
              · simp [hcont, hneed]
            · simp [hcont, pure, Except.pure]

/-- An inlined value is an array or object with the payload for canonical text, which is
written within the recursion limit. -/
theorem inlineBody_eq_some {data : Bytes} {v : PyValue} (h : inlineBody I data = .ok (some v)) :
    (isList v = true ∨ isDict v = true) ∧
      canonicalDumps I v I.frames = .ok (canonicalTree v).text ∧ need I v ≤ I.frames ∧ IsPlain v ∧
        utf8Encode (canonicalTree v).text = .ok data := by
  unfold inlineBody strictLoadsBytes at h
  cases htext : decode (detectEncoding data) data with
  | none => rw [htext] at h; cases h
  | some text =>
      rw [htext] at h
      cases hloads : strictLoads I text with
      | error e => simp only [hloads, bind, Except.bind] at h; cases h
      | ok parsed =>
          have hdumps := canonicalDumps_eq hloads I.frames
          simp only [hloads, bind, Except.bind, hdumps] at h
          split at h
          · next hcont =>
              split_ifs at h with hneed
              · simp only at h
                cases hbytes : utf8Encode (canonicalTree parsed).text with
                | error e => rw [hbytes] at h; cases h
                | ok bytes =>
                    simp only [hbytes, pure, Except.pure, Except.ok.injEq] at h
                    split_ifs at h with heq
                    cases h
                    rw [if_pos hneed] at hdumps
                    exact ⟨hcont, hdumps, hneed, isPlain_of_strictLoads hloads, by rw [hbytes, heq]⟩
          · cases h

/-- A byte key stores a payload that decodes to itself if and only if the payload is
manageable; else the call is given up at the recursion limit. -/
theorem encodeValue_cases {key : PyString} (hkey : isMetadataKey key = false) (data : Bytes) :
    (∃ w, encodeValue I key data = .ok w ∧ decodeValue I key w = .ok data) ∧ Manageable I data ∨
      encodeValue I key data = .error .recursion ∧ ¬ Manageable I data := by
  by_cases hman : Manageable I data
  · refine Or.inl ⟨?_, hman⟩
    have hstr : decodeValue I key (.str (Base64.encode data)) = .ok data := by
      simp [decodeValue, hkey, isList, isDict, b64decode]
    have hne := inlineBody_eq_recursion_iff.not.2 (not_not.2 hman)
    simp only [encodeValue, hkey, Bool.false_eq_true, if_false, tryInlineJson]
    cases hbody : inlineBody I data with
    | error e =>
        cases e with
        | value e => exact ⟨_, rfl, hstr⟩
        | recursion => exact absurd hbody hne
    | ok r =>
        cases r with
        | none => exact ⟨_, rfl, hstr⟩
        | some v =>
            obtain ⟨hcont, -, hneed, hplain, hbytes⟩ := inlineBody_eq_some hbody
            refine ⟨v, rfl, ?_⟩
            have hdumps := canonicalWrite_eq (I := I) hplain (I.frames + 1)
            rw [if_pos (hneed.trans (Nat.le_succ _))] at hdumps
            simp only [decodeValue, hkey, Bool.false_eq_true, if_false, if_pos hcont, canonicalDumps,
              hdumps, bind, Except.bind, hbytes]
  · refine Or.inr ⟨?_, hman⟩
    simp only [encodeValue, hkey, Bool.false_eq_true, if_false, tryInlineJson,
      inlineBody_eq_recursion_iff.2 hman, bind, Except.bind]

/-! ## Payloads that are not manageable -/

theorem detectEncoding_brackets (n : ℕ) :
    detectEncoding (List.replicate (n + 1) 91) = .utf8 false := by
  match n with
  | 0 => decide
  | 1 => decide
  | 2 => decide
  | n + 3 =>
      simp only [List.replicate_succ]
      rfl

theorem decodeUtf8_brackets (n : ℕ) :
    Unicode.decodeUtf8 true (List.replicate n 91) = some (List.replicate n '['.toNat) := by
  rw [← Unicode.encodeUtf8_replicate (c := '['.toNat) (by decide)]
  refine Unicode.decodeUtf8_encodeUtf8 fun c hc => ?_
  rw [List.eq_of_mem_replicate hc]
  decide

/-- Opening brackets alone, one more than can be read. -/
theorem not_manageable_brackets (I : Interpreter) :
    ¬ Manageable I (List.replicate (I.scanDepth + 1) 91) := by
  intro hman
  have hdecode : decode (detectEncoding (List.replicate (I.scanDepth + 1) 91))
      (List.replicate (I.scanDepth + 1) 91) = some (List.replicate (I.scanDepth + 1) '['.toNat) := by
    rw [detectEncoding_brackets]
    exact decodeUtf8_brackets _
  exact (hman _ hdecode).1 (Json.opens_replicate I.limits I.scanDepth)

end Python
