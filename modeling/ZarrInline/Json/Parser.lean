import ZarrInline.Json.Lexer

/-!
# The grammar of JSON as a pushdown machine

The parser reads the tokens of a text from left to right over a stack of open
arrays and objects.  `Limits` are the two ways in which hosts refuse a text of the
grammar while they read it: a bound on the nesting of arrays and objects, and a
condition on number tokens.  Since the machine stops at the first fault, it
tells which of several faults of a text a host meets.

* `parse_eq_ok_iff`: a text parses to a tree if and only if its tokens are the tokens
  of the tree and the tree is within the limits.
* `parse_text`: the compact text of a tree within the limits parses to it.
* `parse_eq_tooDeep_iff`: the bound on the nesting is what stops the machine if and
  only if the tokens up to that point open too many brackets.
-/

namespace Json

open Numeric (Text NumberToken)

/-- What a host refuses while it reads. -/
structure Limits where
  /-- The greatest nesting of arrays and objects that is read. -/
  depth : Option ℕ
  /-- The number tokens that are read. -/
  accepts : NumberToken → Bool

/-- Nothing is refused. -/
def Limits.none : Limits := ⟨.none, fun _ => true⟩

/-- The same condition on numbers, and no bound on the nesting. -/
def Limits.deep (l : Limits) : Limits := { l with depth := .none }

/-- A nesting of `n` is within the limits. -/
def Limits.Fits (l : Limits) (n : ℕ) : Prop := ∀ d ∈ l.depth, n ≤ d

instance (l : Limits) : DecidablePred l.Fits := fun n =>
  match h : l.depth with
  | .none => isTrue (by simp [Limits.Fits, h])
  | .some d => decidable_of_iff (n ≤ d) (by simp [Limits.Fits, h])

theorem Limits.Fits.mono {l : Limits} {m n : ℕ} (h : l.Fits n) (hmn : m ≤ n) : l.Fits m :=
  fun d hd => hmn.trans (h d hd)

@[simp] theorem Limits.fits_deep (l : Limits) (n : ℕ) : l.deep.Fits n := by
  simp [Limits.Fits, Limits.deep]

@[simp] theorem Limits.fits_none (n : ℕ) : Limits.none.Fits n := by
  simp [Limits.Fits, Limits.none]

/-- Why a text is refused. -/
inductive ParseError where
  | grammar
  | number (n : NumberToken)
  | tooDeep
deriving DecidableEq

/-- An array or object that is being read, up to the value to be read next. -/
inductive Frame where
  | element (xs : List Raw)
  | member (ms : List (List StrItem × Raw)) (name : List StrItem)

/-- What has been read. -/
inductive State where
  /-- A value is to follow. -/
  | value (stack : List Frame)
  /-- A `[` was read last. -/
  | arrStart (stack : List Frame)
  /-- A `{` was read last. -/
  | objStart (stack : List Frame)
  /-- A `,` was read last, in an object with these members. -/
  | name (stack : List Frame) (ms : List (List StrItem × Raw))
  /-- A member name was read last. -/
  | colon (stack : List Frame) (ms : List (List StrItem × Raw)) (name : List StrItem)
  /-- A value ended last. -/
  | after (stack : List Frame) (v : Raw)

/-- The value a word writes, if any. -/
def scalar? (w : Text) : Option Raw :=
  if w = lit "null" then some .null
  else if w = lit "true" then some (.bool true)
  else if w = lit "false" then some (.bool false)
  else (NumberToken.ofWord w).map .num

/-- Read the first token of a value. -/
def startValue (l : Limits) (stack : List Frame) : Token → Except ParseError State
  | .lbracket => if l.Fits (stack.length + 1) then .ok (.arrStart stack) else .error .tooDeep
  | .lbrace => if l.Fits (stack.length + 1) then .ok (.objStart stack) else .error .tooDeep
  | .str s => .ok (.after stack (.str s))
  | .word w =>
      match scalar? w with
      | some (.num n) => if l.accepts n then .ok (.after stack (.num n)) else .error (.number n)
      | some v => .ok (.after stack v)
      | .none => .error .grammar
  | _ => .error .grammar

/-- Read a token. -/
def step (l : Limits) : State → Token → Except ParseError State
  | .value stack, t => startValue l stack t
  | .arrStart stack, .rbracket => .ok (.after stack (.arr []))
  | .arrStart stack, t => startValue l (.element [] :: stack) t
  | .objStart stack, .rbrace => .ok (.after stack (.obj []))
  | .objStart stack, .str k => .ok (.colon stack [] k)
  | .name stack ms, .str k => .ok (.colon stack ms k)
  | .colon stack ms k, .colon => .ok (.value (.member ms k :: stack))
  | .after (.element xs :: stack) v, .comma => .ok (.value (.element (xs ++ [v]) :: stack))
  | .after (.element xs :: stack) v, .rbracket => .ok (.after stack (.arr (xs ++ [v])))
  | .after (.member ms k :: stack) v, .comma => .ok (.name stack (ms ++ [(k, v)]))
  | .after (.member ms k :: stack) v, .rbrace => .ok (.after stack (.obj (ms ++ [(k, v)])))
  | _, _ => .error .grammar

/-- Read tokens, up to the first fault. -/
def run (l : Limits) : State → List Token → Except ParseError State
  | s, [] => .ok s
  | s, t :: ts =>
      match step l s t with
      | .ok s => run l s ts
      | .error e => .error e

/-- The value that was read, if the text may end here. -/
def finish : State → Except ParseError Raw
  | .after [] v => .ok v
  | _ => .error .grammar

/-- Parse a text. -/
def parse (l : Limits) (t : Text) : Except ParseError Raw :=
  match run l (.value []) (lex t) with
  | .ok s => finish s
  | .error e => .error e

/-- Every number token of a tree is read. -/
def Accepted (l : Limits) (v : Raw) : Prop :=
  v.Every (fun _ => True) (fun n => l.accepts n) (fun _ => True)

instance (l : Limits) : DecidablePred (Accepted l) := fun v =>
  inferInstanceAs (Decidable (v.Every _ _ _))

/-- A tree is within the limits. -/
def Within (l : Limits) (v : Raw) : Prop := Accepted l v ∧ l.Fits v.depth

/-! ## Reading the tokens of a tree -/

theorem scalar?_render (n : NumberToken) : scalar? n.render = some (.num n) := by
  have hne : ∀ w, NumberToken.ofWord w = .none → n.render ≠ w := by
    rintro w hw rfl
    rw [NumberToken.ofWord_render] at hw
    cases hw
  rw [scalar?, if_neg (hne _ (by decide)), if_neg (hne _ (by decide)), if_neg (hne _ (by decide)),
    NumberToken.ofWord_render]
  rfl

/-- The tokens of a tree start with one that starts a value. -/
theorem run_arrStart_tokens (l : Limits) (stack : List Frame) (v : Raw) (rest : List Token) :
    run l (.arrStart stack) (v.tokens ++ rest)
      = run l (.value (.element [] :: stack)) (v.tokens ++ rest) := by
  cases v <;> rfl

section Run

variable {l : Limits} {stack : List Frame} {rest : List Token}

/-- What reading a tree comes to, from a state in which a value is to follow. -/
def Reads (l : Limits) (v : Raw) : Prop :=
  ∀ (stack : List Frame) (rest : List Token), l.Fits stack.length →
    run l (.value stack) (v.tokens ++ rest)
      = if l.Fits (stack.length + v.depth) then run l (.after stack v) rest else .error .tooDeep

theorem run_elements {xs : List Raw} (hxs : ∀ x ∈ xs, Reads l x) (ys : List Raw) (y : Raw)
    (hfit : l.Fits (stack.length + 1)) :
    run l (.after (.element ys :: stack) y)
        (xs.flatMap (fun x => .comma :: x.tokens) ++ .rbracket :: rest)
      = if ∀ x ∈ xs, l.Fits (stack.length + 1 + x.depth) then
          run l (.after stack (.arr (ys ++ y :: xs))) rest
        else .error .tooDeep := by
  induction xs generalizing ys y with
  | nil => simp [run, step]
  | cons x xs ih =>
      have hx := hxs x (by simp) (.element (ys ++ [y]) :: stack)
        (xs.flatMap (fun x => .comma :: x.tokens) ++ .rbracket :: rest) hfit
      rw [List.flatMap_cons, List.cons_append, List.cons_append, run, List.append_assoc]
      simp only [step]
      rw [hx, ih fun z hz => hxs z (by simp [hz])]
      by_cases h1 : l.Fits (stack.length + 1 + x.depth)
      · simp [h1]
      · simp [h1]

theorem run_members {ms : List (List StrItem × Raw)} (hms : ∀ m ∈ ms, Reads l m.2)
    (ns : List (List StrItem × Raw)) (k : List StrItem) (y : Raw)
    (hfit : l.Fits (stack.length + 1)) :
    run l (.after (.member ns k :: stack) y)
        (ms.flatMap (fun m => .comma :: .str m.1 :: .colon :: m.2.tokens) ++ .rbrace :: rest)
      = if ∀ m ∈ ms, l.Fits (stack.length + 1 + m.2.depth) then
          run l (.after stack (.obj (ns ++ (k, y) :: ms))) rest
        else .error .tooDeep := by
  induction ms generalizing ns k y with
  | nil => simp [run, step]
  | cons m ms ih =>
      have hm := hms m (by simp) (.member (ns ++ [(k, y)]) m.1 :: stack)
        (ms.flatMap (fun m => .comma :: .str m.1 :: .colon :: m.2.tokens) ++ .rbrace :: rest) hfit
      simp only [List.flatMap_cons, List.cons_append, List.append_assoc, run, step]
      rw [hm, ih fun z hz => hms z (by simp [hz])]
      by_cases h1 : l.Fits (stack.length + 1 + m.2.depth)
      · simp only [List.length_cons, List.forall_mem_cons, h1, true_and, if_true,
          List.append_assoc, List.cons_append, List.nil_append]
      · simp only [List.length_cons, List.forall_mem_cons, h1, false_and, if_false]

/-- Nesting under a bracket, as a condition on the elements. -/
theorem fits_arr_iff {xs : List Raw} {n : ℕ} (h : l.Fits (n + 1)) :
    l.Fits (n + (Json.arr xs).depth) ↔ ∀ x ∈ xs, l.Fits (n + 1 + x.depth) := by
  unfold Limits.Fits at *
  constructor
  · intro hall x hx d hd
    have h1 := hall d hd
    rw [depth_arr] at h1
    have h2 : x.depth ≤ (xs.map depth).foldr max 0 :=
      foldr_max_le_iff.1 le_rfl _ (List.mem_map_of_mem hx)
    omega
  · intro hall d hd
    have h1 := h d hd
    have h2 : (xs.map depth).foldr max 0 ≤ d - (n + 1) := by
      rw [foldr_max_le_iff]
      rintro _ hmem
      obtain ⟨x, hx, rfl⟩ := List.mem_map.1 hmem
      have := hall x hx d hd
      omega
    rw [depth_arr]
    omega

theorem fits_obj_iff {ms : List (List StrItem × Raw)} {n : ℕ} (h : l.Fits (n + 1)) :
    l.Fits (n + (Json.obj ms).depth) ↔ ∀ m ∈ ms, l.Fits (n + 1 + m.2.depth) := by
  have hdepth : (Json.obj ms).depth = (Json.arr (ms.map Prod.snd)).depth := by
    rw [depth_obj, depth_arr, List.map_map]
    rfl
  rw [hdepth, fits_arr_iff h]
  simp only [List.mem_map, forall_exists_index, and_imp, forall_apply_eq_imp_iff₂]

theorem not_fits_of_open {v : Raw} {n : ℕ} (h : ¬ l.Fits (n + 1)) (hv : 0 < v.depth) :
    ¬ l.Fits (n + v.depth) := fun hfit => h (hfit.mono (by omega))

/-- Reading the tokens of a tree whose numbers are accepted: the machine goes past
the value, unless the value is nested too deep. -/
theorem reads_of_accepted {v : Raw} (hv : Accepted l v) : Reads l v := by
  induction v using Json.inductionOn with
  | null => intro stack rest hfit; simpa [tokens, run, step, startValue, scalar?] using fun h => absurd hfit h
  | bool b =>
      intro stack rest hfit
      cases b
      · have : scalar? (lit "false") = some (.bool false) := rfl
        simpa [tokens, run, step, startValue, this] using fun h => absurd hfit h
      · have : scalar? (lit "true") = some (.bool true) := rfl
        simpa [tokens, run, step, startValue, this] using fun h => absurd hfit h
  | str s => intro stack rest hfit; simpa [tokens, run, step, startValue] using fun h => absurd hfit h
  | num n =>
      intro stack rest hfit
      have hn : l.accepts n := by simpa [Accepted] using hv
      simpa [tokens, run, step, startValue, scalar?_render, hn] using fun h => absurd hfit h
  | arr xs ih =>
      intro stack rest hfit
      have hxs : ∀ x ∈ xs, Reads l x := fun x hx => ih x hx ((every_arr xs).1 hv x hx)
      rw [tokens, fold_arr, ← tokens]
      simp only [List.cons_append, run, step, startValue]
      by_cases hopen : l.Fits (stack.length + 1)
      · rw [if_pos hopen]
        simp only [fits_arr_iff hopen]
        cases xs with
        | nil => simp [sepBy, run, step]
        | cons x xs =>
            have hx := hxs x (by simp) (.element [] :: stack)
              (xs.flatMap (fun x => .comma :: x.tokens) ++ .rbracket :: rest) hopen
            simp only [List.map_cons, sepBy, List.flatMap_map, List.append_assoc, List.cons_append,
              List.nil_append]
            rw [run_arrStart_tokens, hx,
              run_elements (fun z hz => hxs z (by simp [hz])) [] x hopen]
            by_cases h1 : l.Fits (stack.length + 1 + x.depth)
            · simp [h1]
            · simp [h1]
      · rw [if_neg hopen, if_neg (not_fits_of_open hopen (by rw [depth_arr]; omega))]
  | obj ms ih =>
      intro stack rest hfit
      have hms : ∀ m ∈ ms, Reads l m.2 := fun m hm => ih m hm (((every_obj ms).1 hv).2 m hm).2
      rw [tokens, fold_obj, ← tokens]
      simp only [List.cons_append, run, step, startValue]
      by_cases hopen : l.Fits (stack.length + 1)
      · rw [if_pos hopen]
        simp only [fits_obj_iff hopen]
        cases ms with
        | nil => simp [sepBy, run, step]
        | cons m ms =>
            have hm := hms m (by simp) (.member [] m.1 :: stack)
              (ms.flatMap (fun m => .comma :: .str m.1 :: .colon :: m.2.tokens) ++ .rbrace :: rest)
              hopen
            simp only [List.map_cons, sepBy, List.flatMap_map, List.append_assoc, List.cons_append,
              List.nil_append, run, step]
            rw [hm, run_members (fun z hz => hms z (by simp [hz])) [] m.1 m.2 hopen]
            by_cases h1 : l.Fits (stack.length + 1 + m.2.depth)
            · simp only [List.length_cons, List.forall_mem_cons, h1, true_and, if_true,
                List.nil_append]
            · simp only [List.length_cons, List.forall_mem_cons, h1, false_and, if_false]
      · rw [if_neg hopen, if_neg (not_fits_of_open hopen (by rw [depth_obj]; omega))]

end Run

/-- The tokens of a tree whose numbers are accepted parse to the tree, unless it is
nested too deep. -/
theorem parse_of_lex {l : Limits} {t : Text} {v : Raw} (ht : lex t = v.tokens)
    (hv : Accepted l v) : parse l t = if l.Fits v.depth then .ok v else .error .tooDeep := by
  have hzero : l.Fits ([] : List Frame).length := by
    intro d _
    exact Nat.zero_le d
  have hread := reads_of_accepted hv [] [] hzero
  simp only [List.append_nil, List.length_nil, Nat.zero_add] at hread
  rw [parse, ht, hread]
  by_cases h : l.Fits v.depth
  · simp only [h, if_true, run, finish]
  · simp only [h, if_false]

/-! ## What has been read -/

/-- The tokens a frame has taken. -/
def Frame.tokens : Frame → List Token
  | .element xs => .lbracket :: xs.flatMap fun x => x.tokens ++ [.comma]
  | .member ms k =>
      .lbrace :: (ms.flatMap (fun m => .str m.1 :: .colon :: (m.2.tokens ++ [.comma]))
        ++ [.str k, .colon])

/-- The tokens a stack has taken, the bottom of the stack first. -/
def stackTokens : List Frame → List Token
  | [] => []
  | f :: stack => stackTokens stack ++ f.tokens

/-- The tokens a state has taken. -/
def State.consumed : State → List Token
  | .value stack => stackTokens stack
  | .arrStart stack => stackTokens stack ++ [.lbracket]
  | .objStart stack => stackTokens stack ++ [.lbrace]
  | .name stack ms =>
      stackTokens stack ++
        .lbrace :: ms.flatMap (fun m => .str m.1 :: .colon :: (m.2.tokens ++ [.comma]))
  | .colon stack ms k =>
      stackTokens stack ++
        .lbrace :: (ms.flatMap (fun m => .str m.1 :: .colon :: (m.2.tokens ++ [.comma]))
          ++ [.str k])
  | .after stack v => stackTokens stack ++ v.tokens

/-- The brackets a state has open. -/
def State.openings : State → ℕ
  | .value stack => stack.length
  | .arrStart stack => stack.length + 1
  | .objStart stack => stack.length + 1
  | .name stack _ => stack.length + 1
  | .colon stack _ _ => stack.length + 1
  | .after stack _ => stack.length

theorem sepBy_append_singleton {α : Type} (sep : α) (xs : List (List α)) (x : List α) :
    sepBy sep (xs ++ [x]) = xs.flatMap (· ++ [sep]) ++ x := by
  cases xs with
  | nil => simp [sepBy]
  | cons y ys =>
      simp only [List.cons_append, sepBy, List.flatMap_append, List.flatMap_cons]
      induction ys generalizing y with
      | nil => simp
      | cons z zs ih => simpa using ih z

theorem tokens_arr_append (xs : List Raw) (v : Raw) :
    tokens (.arr (xs ++ [v]))
      = .lbracket :: (xs.flatMap fun x => x.tokens ++ [.comma]) ++ v.tokens ++ [.rbracket] := by
  rw [tokens, fold_arr, ← tokens]
  simp [sepBy_append_singleton, List.flatMap_map]

theorem tokens_obj_append (ms : List (List StrItem × Raw)) (k : List StrItem) (v : Raw) :
    tokens (.obj (ms ++ [(k, v)]))
      = .lbrace :: (ms.flatMap fun m => .str m.1 :: .colon :: (m.2.tokens ++ [.comma]))
          ++ .str k :: .colon :: v.tokens ++ [.rbrace] := by
  rw [tokens, fold_obj, ← tokens]
  simp [sepBy_append_singleton, List.flatMap_map]

theorem tokens_of_scalar? {w : Text} {v : Raw} (h : scalar? w = some v) : v.tokens = [.word w] := by
  unfold scalar? at h
  split_ifs at h with h1 h2 h3
  · cases h; rw [h1]; rfl
  · cases h; rw [h2]; rfl
  · cases h; rw [h3]; rfl
  · obtain ⟨n, hn, rfl⟩ := Option.map_eq_some_iff.1 h
    rw [NumberToken.render_ofWord hn]
    rfl

theorem consumed_startValue {l : Limits} {stack : List Frame} {t : Token} {s : State}
    (h : startValue l stack t = .ok s) : s.consumed = stackTokens stack ++ [t] := by
  cases t with
  | lbracket => simp only [startValue] at h; split at h <;> cases h; rfl
  | lbrace => simp only [startValue] at h; split at h <;> cases h; rfl
  | str k => cases h; rfl
  | word w =>
      simp only [startValue] at h
      split at h
      · next n hn =>
          split at h <;> cases h
          exact congrArg _ (tokens_of_scalar? hn)
      · next v hv => cases h; exact congrArg _ (tokens_of_scalar? hv)
      · cases h
  | rbracket => cases h
  | rbrace => cases h
  | comma => cases h
  | colon => cases h
  | bad => cases h

/-- A step takes its token. -/
theorem consumed_step {l : Limits} {s s' : State} {t : Token} (h : step l s t = .ok s') :
    s'.consumed = s.consumed ++ [t] := by
  unfold step at h
  split at h
  · exact consumed_startValue h
  · cases h
    simp [State.consumed, tokens, sepBy]
  · rw [consumed_startValue h]
    simp [State.consumed, stackTokens, Frame.tokens]
  · cases h
    simp [State.consumed, tokens, sepBy]
  · cases h; simp [State.consumed]
  · cases h; simp [State.consumed]
  · cases h; simp [State.consumed, stackTokens, Frame.tokens]
  · cases h; simp [State.consumed, stackTokens, Frame.tokens]
  · cases h; simp [State.consumed, stackTokens, Frame.tokens, tokens_arr_append]
  · cases h; simp [State.consumed, stackTokens, Frame.tokens]
  · cases h; simp [State.consumed, stackTokens, Frame.tokens, tokens_obj_append]
  · cases h

theorem consumed_run {l : Limits} {s s' : State} {ts : List Token} (h : run l s ts = .ok s') :
    s'.consumed = s.consumed ++ ts := by
  induction ts generalizing s with
  | nil => cases h; simp
  | cons t ts ih =>
      rw [run] at h
      split at h
      · next s1 hs1 => rw [ih h, consumed_step hs1, List.append_assoc]; rfl
      · cases h

/-! ## What has been read is within the limits -/

/-- The values a frame holds. -/
def Frame.values : Frame → List Raw
  | .element xs => xs
  | .member ms _ => ms.map Prod.snd

/-- A value `n` brackets down is within the limits. -/
def WithinAt (l : Limits) (n : ℕ) (v : Raw) : Prop := Accepted l v ∧ l.Fits (n + v.depth)

/-- Everything on a stack is within the limits. -/
def StackWithin (l : Limits) : List Frame → Prop
  | [] => True
  | f :: stack =>
      l.Fits (stack.length + 1) ∧ (∀ x ∈ f.values, WithinAt l (stack.length + 1) x) ∧
        StackWithin l stack

/-- Everything in a state is within the limits. -/
def State.Within (l : Limits) : State → Prop
  | .value stack => StackWithin l stack
  | .arrStart stack => l.Fits (stack.length + 1) ∧ StackWithin l stack
  | .objStart stack => l.Fits (stack.length + 1) ∧ StackWithin l stack
  | .name stack ms =>
      l.Fits (stack.length + 1) ∧ (∀ m ∈ ms, WithinAt l (stack.length + 1) m.2) ∧
        StackWithin l stack
  | .colon stack ms _ =>
      l.Fits (stack.length + 1) ∧ (∀ m ∈ ms, WithinAt l (stack.length + 1) m.2) ∧
        StackWithin l stack
  | .after stack v => WithinAt l stack.length v ∧ StackWithin l stack

theorem StackWithin.fits {l : Limits} {stack : List Frame} (h : StackWithin l stack) :
    l.Fits stack.length := by
  cases stack with
  | nil => intro d _; exact Nat.zero_le d
  | cons f stack => exact h.1

theorem within_startValue {l : Limits} {stack : List Frame} {t : Token} {s : State}
    (hstack : StackWithin l stack) (h : startValue l stack t = .ok s) : s.Within l := by
  have hscalar : ∀ v : Raw, Accepted l v → v.depth = 0 → (State.after stack v).Within l := by
    intro v hv hdepth
    exact ⟨⟨hv, by rw [hdepth]; exact hstack.fits⟩, hstack⟩
  cases t with
  | lbracket =>
      simp only [startValue] at h
      split at h <;> cases h
      next hfit => exact ⟨hfit, hstack⟩
  | lbrace =>
      simp only [startValue] at h
      split at h <;> cases h
      next hfit => exact ⟨hfit, hstack⟩
  | str k => cases h; exact hscalar _ (by simp [Accepted]) rfl
  | word w =>
      simp only [startValue] at h
      split at h
      · next n hn =>
          split at h <;> cases h
          next hacc => exact hscalar _ (by simpa [Accepted] using hacc) rfl
      · next v hv hsc =>
          cases h
          unfold scalar? at hsc
          split_ifs at hsc with h1 h2 h3
          · cases hsc; exact hscalar _ (by simp [Accepted]) rfl
          · cases hsc; exact hscalar _ (by simp [Accepted]) rfl
          · cases hsc; exact hscalar _ (by simp [Accepted]) rfl
          · obtain ⟨n, -, rfl⟩ := Option.map_eq_some_iff.1 hsc
            exact absurd rfl (hv n)
      · cases h
  | rbracket => cases h
  | rbrace => cases h
  | comma => cases h
  | colon => cases h
  | bad => cases h

theorem withinAt_arr {l : Limits} {n : ℕ} {xs : List Raw} (hfit : l.Fits (n + 1))
    (h : ∀ x ∈ xs, WithinAt l (n + 1) x) : WithinAt l n (.arr xs) :=
  ⟨(every_arr xs).2 fun x hx => (h x hx).1, (fits_arr_iff hfit).2 fun x hx => (h x hx).2⟩

theorem withinAt_obj {l : Limits} {n : ℕ} {ms : List (List StrItem × Raw)}
    (hfit : l.Fits (n + 1)) (h : ∀ m ∈ ms, WithinAt l (n + 1) m.2) : WithinAt l n (.obj ms) :=
  ⟨(every_obj ms).2 ⟨trivial, fun m hm => ⟨trivial, (h m hm).1⟩⟩,
    (fits_obj_iff hfit).2 fun m hm => (h m hm).2⟩

/-- A step stays within the limits. -/
theorem within_step {l : Limits} {s s' : State} {t : Token} (hs : s.Within l)
    (h : step l s t = .ok s') : s'.Within l := by
  unfold step at h
  split at h
  · exact within_startValue hs h
  · cases h
    exact ⟨withinAt_arr hs.1 (by simp), hs.2⟩
  · exact @within_startValue l (.element [] :: _) _ _ ⟨hs.1, by simp [Frame.values], hs.2⟩ h
  · cases h
    exact ⟨withinAt_obj hs.1 (by simp), hs.2⟩
  · cases h; exact ⟨hs.1, by simp, hs.2⟩
  · cases h; exact hs
  · cases h
    obtain ⟨hfit, hms, hstack⟩ := hs
    refine ⟨hfit, fun x hx => ?_, hstack⟩
    obtain ⟨m, hm, rfl⟩ := List.mem_map.1 hx
    exact hms m hm
  · cases h
    obtain ⟨hv, hfit, hxs, hstack⟩ := hs
    refine ⟨hfit, ?_, hstack⟩
    intro x hx
    rcases List.mem_append.1 hx with hx | hx
    · exact hxs x hx
    · rw [List.mem_singleton.1 hx]; exact hv
  · cases h
    obtain ⟨hv, hfit, hxs, hstack⟩ := hs
    refine ⟨withinAt_arr hfit ?_, hstack⟩
    intro x hx
    rcases List.mem_append.1 hx with hx | hx
    · exact hxs x hx
    · rw [List.mem_singleton.1 hx]; exact hv
  · next stack ms k v =>
    cases h
    obtain ⟨hv, hfit, hms, hstack⟩ := hs
    refine ⟨hfit, ?_, hstack⟩
    intro m hm
    rcases List.mem_append.1 hm with hm | hm
    · exact hms m.2 (List.mem_map_of_mem hm)
    · rw [List.mem_singleton.1 hm]; exact hv
  · next stack ms k v =>
    cases h
    obtain ⟨hv, hfit, hms, hstack⟩ := hs
    refine ⟨withinAt_obj hfit ?_, hstack⟩
    intro m hm
    rcases List.mem_append.1 hm with hm | hm
    · exact hms m.2 (List.mem_map_of_mem hm)
    · rw [List.mem_singleton.1 hm]; exact hv
  · cases h

theorem within_run {l : Limits} {s s' : State} {ts : List Token} (hs : s.Within l)
    (h : run l s ts = .ok s') : s'.Within l := by
  induction ts generalizing s with
  | nil => cases h; exact hs
  | cons t ts ih =>
      rw [run] at h
      split at h
      · next s1 hs1 => exact ih (within_step hs hs1) h
      · cases h

/-- A text parses to a tree if and only if its tokens are those of the tree and the
tree is within the limits. -/
theorem parse_eq_ok_iff {l : Limits} {t : Text} {v : Raw} :
    parse l t = .ok v ↔ lex t = v.tokens ∧ Within l v := by
  constructor
  · intro h
    unfold parse at h
    split at h
    · next s hs =>
        have hcons := consumed_run hs
        have hwithin := within_run (s := .value []) trivial hs
        unfold finish at h
        split at h
        · cases h
          refine ⟨by simpa [State.consumed, stackTokens] using hcons.symm, hwithin.1.1, ?_⟩
          simpa using hwithin.1.2
        · cases h
    · cases h
  · rintro ⟨ht, hv, hfit⟩
    rw [parse_of_lex ht hv, if_pos hfit]

/-- The compact text of a tree within the limits parses to the tree. -/
theorem parse_text {l : Limits} {v : Raw} (hw : v.Writable) (hv : Within l v) :
    parse l v.text = .ok v :=
  parse_eq_ok_iff.2 ⟨lex_text hw, hv⟩

theorem within_none (v : Raw) : Within .none v := by
  refine ⟨?_, Limits.fits_none _⟩
  induction v using Json.inductionOn with
  | null => trivial
  | bool b => trivial
  | str s => simp [Accepted]
  | num n => simp [Accepted, Limits.none]
  | arr xs ih => exact (every_arr xs).2 ih
  | obj ms ih => exact (every_obj ms).2 ⟨trivial, fun m hm => ⟨trivial, ih m hm⟩⟩

/-- What parses under some limits parses to the same tree without them. -/
theorem parse_none_of_parse {l : Limits} {t : Text} {v : Raw} (h : parse l t = .ok v) :
    parse .none t = .ok v :=
  parse_eq_ok_iff.2 ⟨(parse_eq_ok_iff.1 h).1, within_none v⟩

theorem parse_none_text {v : Raw} (hw : v.Writable) : parse .none v.text = .ok v :=
  parse_text hw (within_none v)

/-- The strings of what is parsed are of the text. -/
theorem every_of_parse {P : ℕ → Prop} [DecidablePred P] {l : Limits} {t : Text} {v : Raw}
    (ht : ∀ c ∈ t, P c) (h : parse l t = .ok v) :
    v.Every (fun items => ∀ i ∈ items, i.OfText P) (fun _ => True) (fun _ => True) := by
  refine every_of_tokens ?_
  rw [← (parse_eq_ok_iff.1 h).1]
  exact ofText_lexFrom trivial ht

/-! ## Nesting too deep -/

/-- The tokens of a text, up to the first fault, have more than `n` brackets open
somewhere. -/
def Opens (l : Limits) (t : Text) (n : ℕ) : Prop :=
  ∃ ts s, ts <+: lex t ∧ run l.deep (.value []) ts = .ok s ∧ n < s.openings

theorem startValue_deep {l : Limits} {stack : List Frame} {t : Token} :
    startValue l stack t
      = match startValue l.deep stack t with
        | .ok s => if l.Fits s.openings ∨ s.openings ≤ stack.length then .ok s else .error .tooDeep
        | .error e => .error e := by
  cases t with
  | lbracket => simp [startValue, State.openings]
  | lbrace => simp [startValue, State.openings]
  | str k => simp [startValue, State.openings]
  | word w =>
      simp only [startValue]
      cases scalar? w with
      | none => rfl
      | some v =>
          cases v with
          | num n =>
              simp only [Limits.deep]
              by_cases h : l.accepts n <;> simp [h, State.openings]
          | _ => simp [State.openings]
  | rbracket => rfl
  | rbrace => rfl
  | comma => rfl
  | colon => rfl
  | bad => rfl

/-- The bound stops the machine at the first state that has too many brackets
open. -/
theorem step_deep {l : Limits} {s : State} {t : Token} (hs : l.Fits s.openings) :
    step l s t
      = match step l.deep s t with
        | .ok s => if l.Fits s.openings then .ok s else .error .tooDeep
        | .error e => .error e := by
  have hstart : ∀ stack : List Frame, l.Fits stack.length → startValue l stack t
      = match startValue l.deep stack t with
        | .ok s => if l.Fits s.openings then .ok s else .error .tooDeep
        | .error e => .error e := by
    intro stack hfit
    rw [startValue_deep]
    cases startValue l.deep stack t with
    | error e => rfl
    | ok s =>
        have hor : l.Fits s.openings ∨ s.openings ≤ stack.length ↔ l.Fits s.openings := by
          constructor
          · rintro (h | h)
            · exact h
            · exact hfit.mono h
          · exact Or.inl
        simp only [hor]
  have hdrop : ∀ n, l.Fits (n + 1) → l.Fits n := fun n h => h.mono (Nat.le_succ n)
  unfold step
  split <;> simp_all [State.openings]

theorem run_deep {l : Limits} {s : State} (hs : l.Fits s.openings) (ts : List Token) :
    (∃ us s', us <+: ts ∧ run l.deep s us = .ok s' ∧ ¬ l.Fits s'.openings) ∧
        run l s ts = .error .tooDeep ∨
      (¬ ∃ us s', us <+: ts ∧ run l.deep s us = .ok s' ∧ ¬ l.Fits s'.openings) ∧
        run l s ts = run l.deep s ts := by
  induction ts generalizing s with
  | nil =>
      refine Or.inr ⟨?_, rfl⟩
      rintro ⟨us, s', hus, hrun, hfit⟩
      rw [List.prefix_nil.1 hus] at hrun
      cases hrun
      exact hfit hs
  | cons t ts ih =>
      have hstep := step_deep (t := t) hs
      rw [run, run, hstep]
      -- a prefix is empty, where the brackets fit, or starts with `t`
      have hreach : (∃ us s', us <+: t :: ts ∧ run l.deep s us = .ok s' ∧ ¬ l.Fits s'.openings) ↔
          ∃ us s', us <+: ts ∧ run l.deep s (t :: us) = .ok s' ∧ ¬ l.Fits s'.openings := by
        constructor
        · rintro ⟨us, s', hus, hrun, hfit⟩
          cases us with
          | nil => cases hrun; exact absurd hs hfit
          | cons u us =>
              obtain ⟨rfl, hus'⟩ := List.cons_prefix_cons.1 hus
              exact ⟨us, s', hus', hrun, hfit⟩
        · rintro ⟨us, s', hus, hrun, hfit⟩
          exact ⟨t :: us, s', List.cons_prefix_cons.2 ⟨rfl, hus⟩, hrun, hfit⟩
      rw [hreach]
      simp only [run]
      cases hdeep : step l.deep s t with
      | error e => simp
      | ok s1 =>
          simp only
          by_cases hfit : l.Fits s1.openings
          · simpa only [if_pos hfit] using ih hfit
          · refine Or.inl ⟨⟨[], s1, List.nil_prefix, rfl, hfit⟩, ?_⟩
            simp only [if_neg hfit]

theorem run_deep_ne_tooDeep {l : Limits} {s : State} {ts : List Token} :
    run l.deep s ts ≠ .error .tooDeep := by
  have hstart : ∀ (stack : List Frame) (t : Token), startValue l.deep stack t ≠ .error .tooDeep := by
    intro stack t h
    cases t with
    | word w =>
        simp only [startValue] at h
        split at h
        · split at h <;> cases h
        · cases h
        · cases h
    | lbracket => simp [startValue] at h
    | lbrace => simp [startValue] at h
    | _ => cases h
  induction ts generalizing s with
  | nil => intro h; cases h
  | cons t ts ih =>
      rw [run]
      cases hstep : step l.deep s t with
      | ok s => exact ih
      | error e =>
          rintro h
          obtain rfl := Except.error.inj h
          unfold step at hstep
          split at hstep <;> first | exact hstart _ _ hstep | cases hstep

/-- The bound on the nesting is what stops the machine if and only if the text, up to
its first fault, opens more brackets than the bound. -/
theorem parse_eq_tooDeep_iff {l : Limits} {n : ℕ} (hn : l.depth = some n) {t : Text} :
    parse l t = .error .tooDeep ↔ Opens l t n := by
  have hfits : ∀ m, l.Fits m ↔ m ≤ n := fun m => by simp [Limits.Fits, hn]
  have hopens : Opens l t n ↔ ∃ us s', us <+: lex t ∧ run l.deep (.value []) us = .ok s' ∧
      ¬ l.Fits s'.openings := by
    simp only [Opens, hfits, Nat.not_le]
  have hfinish : ∀ s : State, finish s ≠ .error .tooDeep := by
    intro s h
    unfold finish at h
    split at h <;> cases h
  rw [hopens]
  rcases run_deep (s := .value []) (l := l) ((hfits 0).2 (Nat.zero_le n)) (lex t) with
    ⟨hex, hrun⟩ | ⟨hex, hrun⟩
  · simp only [hex, parse, hrun]
  · simp only [hex, iff_false, parse, hrun]
    intro h
    split at h
    · exact hfinish _ h
    · next e he =>
        obtain rfl := Except.error.inj h
        exact run_deep_ne_tooDeep he

/-- A text of opening brackets only. -/
theorem opens_replicate (l : Limits) (n : ℕ) :
    Opens l (List.replicate (n + 1) '['.toNat) n := by
  have hlex : ∀ m, lex (List.replicate m '['.toNat) = List.replicate m .lbracket := by
    intro m
    induction m with
    | zero => rfl
    | succ m ih =>
        rw [List.replicate_succ, List.replicate_succ, ← ih]
        rfl
  have hrun : ∀ m stack, run l.deep (.arrStart stack) (List.replicate m .lbracket)
      = .ok (.arrStart (List.replicate m (.element []) ++ stack)) := by
    intro m
    induction m with
    | zero => exact fun _ => rfl
    | succ m ih =>
        intro stack
        have hstep : step l.deep (.arrStart stack) .lbracket
            = .ok (.arrStart (.element [] :: stack)) := by
          simp [step, startValue]
        rw [List.replicate_succ, run, hstep]
        simp only [ih, List.replicate_succ', List.append_assoc, List.singleton_append]
  have hall : run l.deep (.value []) (List.replicate (n + 1) .lbracket)
      = .ok (.arrStart (List.replicate n (.element []))) := by
    have hstep : step l.deep (.value []) .lbracket = .ok (.arrStart []) := by
      simp [step, startValue]
    rw [List.replicate_succ, run, hstep]
    simp only [hrun, List.append_nil]
  refine ⟨_, _, List.prefix_refl _, (hlex (n + 1)).symm ▸ hall, ?_⟩
  simp [State.openings]

/-- A text that opens no more brackets than the bound is read as without it. -/
theorem parse_of_not_opens {l : Limits} {n : ℕ} (hn : l.depth = some n) {t : Text}
    (h : ¬ Opens l t n) : parse l t = parse l.deep t := by
  have hfits : ∀ m, l.Fits m ↔ m ≤ n := fun m => by simp [Limits.Fits, hn]
  rcases run_deep (s := .value []) (l := l) ((hfits 0).2 (Nat.zero_le n)) (lex t) with
    ⟨hex, -⟩ | ⟨-, hrun⟩
  · refine absurd ?_ h
    simpa only [Opens, hfits, Nat.not_le] using hex
  · simp only [parse, hrun]

end Json
