import Mathlib

/-!
# JSON trees

The trees of RFC 8259 over a type `σ` of strings and a type `ν` of number
atoms.  An object is the list of its members in the order they stand in, with
repeated names where the text repeats them; `Json.Members` says what a host
makes of such a list.

Every function on trees in this development is a `fold`, so that each is given by
what it does at the six kinds of node and unfolds by the six equations of
`Json.fold`.  Proofs by induction on a tree use `Json.inductionOn`.
-/

/-- A JSON tree. -/
inductive Json (σ ν : Type) where
  | null
  | bool (b : Bool)
  | str (s : σ)
  | num (n : ν)
  | arr (xs : List (Json σ ν))
  | obj (ms : List (σ × Json σ ν))

namespace Json

variable {σ τ ν μ β ε : Type}

/-- Induction on trees, with the hypothesis for every element and every member
value. -/
theorem inductionOn {P : Json σ ν → Prop} (null : P .null) (bool : ∀ b, P (.bool b))
    (str : ∀ s, P (.str s)) (num : ∀ n, P (.num n))
    (arr : ∀ xs, (∀ x ∈ xs, P x) → P (.arr xs))
    (obj : ∀ ms, (∀ m ∈ ms, P m.2) → P (.obj ms)) (v : Json σ ν) : P v := by
  refine Json.rec (motive_1 := P) (motive_2 := fun xs => ∀ x ∈ xs, P x)
    (motive_3 := fun ms => ∀ m ∈ ms, P m.2) (motive_4 := fun m => P m.2)
    null bool str num arr obj ?_ ?_ ?_ ?_ ?_ v
  · simp
  · intro x xs hx hxs
    simpa using ⟨hx, hxs⟩
  · simp
  · intro m ms hm hms
    simpa using ⟨hm, by simpa using hms⟩
  · intro k x hx
    exact hx

/-! ## Folds -/

/-- What a fold does at each kind of node. -/
structure Algebra (σ ν β : Type) where
  null : β
  bool : Bool → β
  str : σ → β
  num : ν → β
  arr : List β → β
  obj : List (σ × β) → β

mutual

/-- Replace every node of a tree by what the algebra says. -/
def fold (alg : Algebra σ ν β) : Json σ ν → β
  | .null => alg.null
  | .bool b => alg.bool b
  | .str s => alg.str s
  | .num n => alg.num n
  | .arr xs => alg.arr (foldElements alg xs)
  | .obj ms => alg.obj (foldMembers alg ms)

/-- `fold` over the elements of an array. -/
def foldElements (alg : Algebra σ ν β) : List (Json σ ν) → List β
  | [] => []
  | x :: xs => x.fold alg :: foldElements alg xs

/-- `fold` over the members of an object. -/
def foldMembers (alg : Algebra σ ν β) : List (σ × Json σ ν) → List (σ × β)
  | [] => []
  | (k, x) :: ms => (k, x.fold alg) :: foldMembers alg ms

end

section Fold

variable (alg : Algebra σ ν β)

theorem foldElements_eq_map (xs : List (Json σ ν)) :
    foldElements alg xs = xs.map (fold alg) := by
  induction xs with
  | nil => rfl
  | cons x xs ih => rw [foldElements, ih, List.map_cons]

theorem foldMembers_eq_map (ms : List (σ × Json σ ν)) :
    foldMembers alg ms = ms.map fun m => (m.1, m.2.fold alg) := by
  induction ms with
  | nil => rfl
  | cons m ms ih => rw [foldMembers, ih, List.map_cons]

@[simp] theorem fold_null : fold alg .null = alg.null := rfl

@[simp] theorem fold_bool (b : Bool) : fold alg (.bool b) = alg.bool b := rfl

@[simp] theorem fold_str (s : σ) : fold alg (.str s) = alg.str s := rfl

@[simp] theorem fold_num (n : ν) : fold alg (.num n) = alg.num n := rfl

@[simp] theorem fold_arr (xs : List (Json σ ν)) :
    fold alg (.arr xs) = alg.arr (xs.map (fold alg)) := by
  rw [fold, foldElements_eq_map]

@[simp] theorem fold_obj (ms : List (σ × Json σ ν)) :
    fold alg (.obj ms) = alg.obj (ms.map fun m => (m.1, m.2.fold alg)) := by
  rw [fold, foldMembers_eq_map]

end Fold

/-- The root is an object. -/
def isObj : Json σ ν → Bool
  | .obj _ => true
  | _ => false

/-! ## Renaming strings and atoms -/

/-- Apply a function to every string and one to every atom. -/
def map (f : σ → τ) (g : ν → μ) : Json σ ν → Json τ μ :=
  fold {
    null := .null
    bool := .bool
    str := fun s => .str (f s)
    num := fun n => .num (g n)
    arr := .arr
    obj := fun ms => .obj (ms.map fun m => (f m.1, m.2)) }

section Map

variable (f : σ → τ) (g : ν → μ)

@[simp] theorem map_null : map f g .null = .null := rfl

@[simp] theorem map_bool (b : Bool) : map f g (.bool b) = .bool b := rfl

@[simp] theorem map_str (s : σ) : map f g (.str s) = .str (f s) := rfl

@[simp] theorem map_num (n : ν) : map f g (.num n) = .num (g n) := rfl

@[simp] theorem map_arr (xs : List (Json σ ν)) : map f g (.arr xs) = .arr (xs.map (map f g)) := by
  simp [map]

@[simp] theorem map_obj (ms : List (σ × Json σ ν)) :
    map f g (.obj ms) = .obj (ms.map fun m => (f m.1, m.2.map f g)) := by
  simp [map]

/-- A fold over a renamed tree renames as it goes. -/
theorem fold_map (alg : Algebra τ μ β) (v : Json σ ν) :
    (v.map f g).fold alg = v.fold {
      null := alg.null
      bool := alg.bool
      str := fun s => alg.str (f s)
      num := fun n => alg.num (g n)
      arr := alg.arr
      obj := fun ms => alg.obj (ms.map fun m => (f m.1, m.2)) } := by
  induction v using Json.inductionOn with
  | null => rfl
  | bool b => rfl
  | str s => rfl
  | num n => rfl
  | arr xs ih =>
      rw [map_arr, fold_arr, fold_arr, List.map_map]
      exact congrArg _ (List.map_congr_left ih)
  | obj ms ih =>
      rw [map_obj, fold_obj, fold_obj]
      simp only [List.map_map]
      refine congrArg _ (List.map_congr_left fun m hm => ?_)
      simp only [Function.comp_apply, ih m hm]

/-- Renaming twice. -/
theorem map_map {σ' ν' : Type} (f' : τ → σ') (g' : μ → ν') (v : Json σ ν) :
    (v.map f g).map f' g' = v.map (fun s => f' (f s)) fun n => g' (g n) := by
  rw [map, fold_map, map]
  simp only [List.map_map, Function.comp_def]

@[simp] theorem isObj_map (v : Json σ ν) : (v.map f g).isObj = v.isObj := by
  cases v <;> simp [isObj]

end Map

/-! ## Converting atoms -/

theorem exists_of_map_eq_ok {α : Type} {f : α → β} {x : Except ε α} {y : β}
    (h : x.map f = .ok y) : ∃ a, x = .ok a ∧ f a = y := by
  cases x with
  | error e => cases h
  | ok a => exact ⟨a, rfl, Except.ok.inj h⟩

/-- Run the members' computations from left to right. -/
def sequenceMembers : List (σ × Except ε β) → Except ε (List (σ × β))
  | [] => .ok []
  | (k, x) :: ms => do
      let x ← x
      let ms ← sequenceMembers ms
      return (k, x) :: ms

/-- Run the elements' computations from left to right. -/
def sequence : List (Except ε β) → Except ε (List β)
  | [] => .ok []
  | x :: xs => do
      let x ← x
      let xs ← sequence xs
      return x :: xs

/-- Convert every atom, from left to right, failing at the first one that does
not convert. -/
def traverse (f : ν → Except ε μ) : Json σ ν → Except ε (Json σ μ) :=
  fold {
    null := .ok .null
    bool := fun b => .ok (.bool b)
    str := fun s => .ok (.str s)
    num := fun n => (f n).map .num
    arr := fun xs => (sequence xs).map .arr
    obj := fun ms => (sequenceMembers ms).map .obj }

section Traverse

variable {f : ν → Except ε μ}

theorem traverse_arr (xs : List (Json σ ν)) :
    traverse f (.arr xs) = (sequence (xs.map (traverse f))).map .arr := by
  simp [traverse]

theorem traverse_obj (ms : List (σ × Json σ ν)) :
    traverse f (.obj ms)
      = (sequenceMembers (ms.map fun m => (m.1, m.2.traverse f))).map .obj := by
  simp [traverse]

theorem sequence_eq_ok {α : Type} {g : α → Except ε β} {xs : List α} {ys : List β} :
    sequence (xs.map g) = .ok ys ↔ List.Forall₂ (fun x y => g x = .ok y) xs ys := by
  induction xs generalizing ys with
  | nil => simp [sequence, eq_comm]
  | cons x xs ih =>
      rw [List.map_cons, sequence, List.forall₂_cons_left_iff]
      cases hx : g x with
      | error e => simp [bind, Except.bind]
      | ok y =>
          cases hxs : sequence (xs.map g) with
          | error e =>
              simp only [bind, Except.bind, reduceCtorEq, false_iff, not_exists, not_and]
              rintro y' ys' - hys' -
              rw [ih.2 hys'] at hxs
              cases hxs
          | ok ys' =>
              have hys' := ih.1 hxs
              constructor
              · intro h
                exact ⟨y, ys', rfl, hys', (Except.ok.inj h).symm⟩
              · rintro ⟨y'', ys'', hy, hys'', rfl⟩
                have h1 := ih.2 hys''
                rw [hxs] at h1
                cases hy
                cases h1
                rfl

theorem exists_of_sequence_eq_error {α : Type} {g : α → Except ε β} {xs : List α} {e : ε}
    (h : sequence (xs.map g) = .error e) : ∃ x ∈ xs, g x = .error e := by
  induction xs with
  | nil => cases h
  | cons x xs ih =>
      rw [List.map_cons, sequence] at h
      cases hx : g x with
      | error e' =>
          rw [hx] at h
          obtain rfl := Except.error.inj h
          exact ⟨x, by simp, hx⟩
      | ok y =>
          cases hxs : sequence (xs.map g) with
          | ok ys => rw [hx, hxs] at h; cases h
          | error e' =>
              rw [hx, hxs] at h
              obtain rfl := Except.error.inj h
              obtain ⟨z, hz, hgz⟩ := ih hxs
              exact ⟨z, by simp [hz], hgz⟩

/-- Computations that fail in one way only. -/
theorem sequence_ite {α : Type} {p : α → Prop} [DecidablePred p] {g : α → β} {e : ε} (xs : List α) :
    sequence (xs.map fun x => if p x then .ok (g x) else .error e)
      = if ∀ x ∈ xs, p x then .ok (xs.map g) else .error e := by
  induction xs with
  | nil => simp [sequence]
  | cons x xs ih =>
      rw [List.map_cons, sequence, ih]
      by_cases hx : p x
      · by_cases hxs : ∀ y ∈ xs, p y
        · rw [if_pos hx, if_pos hxs, if_pos (List.forall_mem_cons.2 ⟨hx, hxs⟩)]
          rfl
        · rw [if_pos hx, if_neg hxs, if_neg fun h => hxs (List.forall_mem_cons.1 h).2]
          rfl
      · rw [if_neg hx, if_neg fun h => hx (List.forall_mem_cons.1 h).1]
        rfl

theorem sequenceMembers_eq_ok {α : Type} {g : α → Except ε β} {ms : List (σ × α)}
    {ns : List (σ × β)} :
    sequenceMembers (ms.map fun m => (m.1, g m.2)) = .ok ns ↔
      List.Forall₂ (fun m n => n.1 = m.1 ∧ g m.2 = .ok n.2) ms ns := by
  have hseq : sequenceMembers (ms.map fun m => (m.1, g m.2))
      = sequence (ms.map fun m => (g m.2).map fun y => (m.1, y)) := by
    induction ms with
    | nil => rfl
    | cons m ms ih =>
        rw [List.map_cons, List.map_cons, sequenceMembers, sequence, ih]
        cases g m.2 <;> rfl
  have hrel : (fun (m : σ × α) (n : σ × β) => n.1 = m.1 ∧ g m.2 = .ok n.2)
      = fun m n => ((g m.2).map fun y => (m.1, y)) = .ok n := by
    funext m n
    cases g m.2 <;> simp [Except.map, Prod.ext_iff, eq_comm]
  rw [hseq, sequence_eq_ok, hrel]

theorem traverse_arr_eq_ok {xs : List (Json σ ν)} {w : Json σ μ} :
    traverse f (.arr xs) = .ok w ↔
      ∃ ys, w = .arr ys ∧ List.Forall₂ (fun x y => traverse f x = .ok y) xs ys := by
  rw [traverse_arr]
  constructor
  · intro h
    obtain ⟨ys, hys, rfl⟩ := exists_of_map_eq_ok h
    exact ⟨ys, rfl, sequence_eq_ok.1 hys⟩
  · rintro ⟨ys, rfl, hys⟩
    rw [sequence_eq_ok.2 hys]
    rfl

theorem traverse_obj_eq_ok {ms : List (σ × Json σ ν)} {w : Json σ μ} :
    traverse f (.obj ms) = .ok w ↔
      ∃ ns, w = .obj ns ∧
        List.Forall₂ (fun m n => n.1 = m.1 ∧ traverse f m.2 = .ok n.2) ms ns := by
  rw [traverse_obj]
  constructor
  · intro h
    obtain ⟨ns, hns, rfl⟩ := exists_of_map_eq_ok h
    exact ⟨ns, rfl, sequenceMembers_eq_ok.1 hns⟩
  · rintro ⟨ns, rfl, hns⟩
    rw [sequenceMembers_eq_ok.2 hns]
    rfl

/-- A fold over a converted tree is a fold over the tree that was converted: the
two algebras may differ at atoms only, where they agree through the
conversion. -/
theorem fold_traverse {alg : Algebra σ ν β} {alg' : Algebra σ μ β} (hnull : alg'.null = alg.null)
    (hbool : alg'.bool = alg.bool) (hstr : alg'.str = alg.str) (harr : alg'.arr = alg.arr)
    (hobj : alg'.obj = alg.obj) (hnum : ∀ n m, f n = .ok m → alg'.num m = alg.num n)
    {v : Json σ ν} {w : Json σ μ} (h : traverse f v = .ok w) : fold alg' w = fold alg v := by
  induction v using Json.inductionOn generalizing w with
  | null => cases h; exact hnull
  | bool b => cases h; exact congrFun hbool b
  | str s => cases h; exact congrFun hstr s
  | num n =>
      obtain ⟨m, hm, rfl⟩ := exists_of_map_eq_ok h
      exact hnum n m hm
  | arr xs ih =>
      obtain ⟨ys, rfl, hys⟩ := traverse_arr_eq_ok.1 h
      have hmap : ys.map (fold alg') = xs.map (fold alg) := by
        clear h
        induction hys with
        | nil => rfl
        | cons hxy _ ihs =>
            rw [List.map_cons, List.map_cons, ih _ (by simp) hxy,
              ihs fun x hx => ih x (by simp [hx])]
      rw [fold_arr, fold_arr, harr, hmap]
  | obj ms ih =>
      obtain ⟨ns, rfl, hns⟩ := traverse_obj_eq_ok.1 h
      have hmap : (ns.map fun n => (n.1, n.2.fold alg')) = ms.map fun m => (m.1, m.2.fold alg) := by
        clear h
        induction hns with
        | nil => rfl
        | cons hmn _ ihs =>
            rw [List.map_cons, List.map_cons, hmn.1, ih _ (by simp) hmn.2,
              ihs fun m hm => ih m (by simp [hm])]
      rw [fold_obj, fold_obj, hobj, hmap]

/-- Renaming a converted tree, if the conversion is undone by the renaming. -/
theorem map_traverse {f' : σ → τ} {g : μ → β} {g' : ν → β} (hg : ∀ n m, f n = .ok m → g m = g' n)
    {v : Json σ ν} {w : Json σ μ} (h : traverse f v = .ok w) : w.map f' g = v.map f' g' := by
  unfold map
  exact fold_traverse (f := f) rfl rfl rfl rfl rfl (fun n m hnm => congrArg _ (hg n m hnm)) h

/-- Converting atoms keeps the kind of the root. -/
theorem isObj_traverse {v : Json σ ν} {w : Json σ μ} (h : traverse f v = .ok w) : w.isObj = v.isObj := by
  cases v with
  | null => cases h; rfl
  | bool b => cases h; rfl
  | str s => cases h; rfl
  | num n => obtain ⟨m, -, rfl⟩ := exists_of_map_eq_ok h; rfl
  | arr xs => obtain ⟨ys, rfl, -⟩ := traverse_arr_eq_ok.1 h; rfl
  | obj ms => obtain ⟨ns, rfl, -⟩ := traverse_obj_eq_ok.1 h; rfl

end Traverse

/-! ## Conditions on trees -/

/-- Every string, member names included, satisfies `p`, every atom satisfies `q`
and the names of every object together satisfy `r`. -/
def check (p : σ → Bool) (q : ν → Bool) (r : List σ → Bool) : Json σ ν → Bool :=
  fold {
    null := true
    bool := fun _ => true
    str := p
    num := q
    arr := fun xs => xs.all id
    obj := fun ms => r (ms.map Prod.fst) && ms.all fun m => p m.1 && m.2 }

/-- `check` as a proposition. -/
def Every (p : σ → Prop) (q : ν → Prop) (r : List σ → Prop) [DecidablePred p] [DecidablePred q]
    [DecidablePred r] (v : Json σ ν) : Prop :=
  v.check (fun s => decide (p s)) (fun n => decide (q n)) (fun ks => decide (r ks)) = true

section Every

variable {p : σ → Prop} {q : ν → Prop} {r : List σ → Prop} [DecidablePred p] [DecidablePred q]
  [DecidablePred r]

instance : DecidablePred (Every (σ := σ) (ν := ν) p q r) :=
  fun _ => inferInstanceAs (Decidable (_ = true))

@[simp] theorem every_null : Every p q r .null := rfl

@[simp] theorem every_bool (b : Bool) : Every p q r (.bool b) := rfl

@[simp] theorem every_str (s : σ) : Every p q r (.str s) ↔ p s := by simp [Every, check]

@[simp] theorem every_num (n : ν) : Every p q r (.num n) ↔ q n := by simp [Every, check]

@[simp] theorem every_arr (xs : List (Json σ ν)) :
    Every p q r (.arr xs) ↔ ∀ x ∈ xs, x.Every p q r := by
  simp [Every, check]

@[simp] theorem every_obj (ms : List (σ × Json σ ν)) :
    Every p q r (.obj ms) ↔ r (ms.map Prod.fst) ∧ ∀ m ∈ ms, p m.1 ∧ m.2.Every p q r := by
  simp [Every, check, Function.comp_def]

/-- Two conditions at once. -/
theorem Every.and {p' : σ → Prop} {q' : ν → Prop} {r' : List σ → Prop} [DecidablePred p']
    [DecidablePred q'] [DecidablePred r'] {v : Json σ ν} (h : v.Every p q r)
    (h' : v.Every p' q' r') :
    v.Every (fun s => p s ∧ p' s) (fun n => q n ∧ q' n) (fun ks => r ks ∧ r' ks) := by
  induction v using Json.inductionOn with
  | null => rfl
  | bool b => rfl
  | str s => exact (every_str _).2 ⟨(every_str s).1 h, (every_str s).1 h'⟩
  | num n => exact (every_num _).2 ⟨(every_num n).1 h, (every_num n).1 h'⟩
  | arr xs ih =>
      exact (every_arr _).2 fun x hx => ih x hx ((every_arr xs).1 h x hx) ((every_arr xs).1 h' x hx)
  | obj ms ih =>
      obtain ⟨hr, hms⟩ := (every_obj ms).1 h
      obtain ⟨hr', hms'⟩ := (every_obj ms).1 h'
      exact (every_obj _).2 ⟨⟨hr, hr'⟩, fun m hm =>
        ⟨⟨(hms m hm).1, (hms' m hm).1⟩, ih m hm (hms m hm).2 (hms' m hm).2⟩⟩

/-- A condition on a renamed tree. -/
theorem every_map {p' : τ → Prop} {q' : μ → Prop} {r' : List τ → Prop} [DecidablePred p']
    [DecidablePred q'] [DecidablePred r'] {f : σ → τ} {g : ν → μ} {v : Json σ ν} :
    (v.map f g).Every p' q' r' ↔
      v.Every (fun s => p' (f s)) (fun n => q' (g n)) (fun ks => r' (ks.map f)) := by
  induction v using Json.inductionOn with
  | null => exact Iff.rfl
  | bool b => exact Iff.rfl
  | str s => simp
  | num n => simp
  | arr xs ih =>
      rw [map_arr, every_arr, every_arr, List.forall_mem_map]
      exact forall₂_congr ih
  | obj ms ih =>
      rw [map_obj, every_obj, every_obj, List.forall_mem_map, List.map_map, List.map_map]
      exact and_congr_right fun _ => forall₂_congr fun m hm => and_congr_right fun _ => ih m hm

/-- A condition that holds everywhere. -/
theorem every_of_forall (hp : ∀ s, p s) (hq : ∀ n, q n) (hr : ∀ ks, r ks) (v : Json σ ν) :
    v.Every p q r := by
  induction v using Json.inductionOn with
  | null => rfl
  | bool b => rfl
  | str s => exact (every_str s).2 (hp s)
  | num n => exact (every_num n).2 (hq n)
  | arr xs ih => exact (every_arr xs).2 ih
  | obj ms ih => exact (every_obj ms).2 ⟨hr _, fun m hm => ⟨hp _, ih m hm⟩⟩

/-- A weaker condition. -/
theorem Every.imp {p' : σ → Prop} {q' : ν → Prop} {r' : List σ → Prop} [DecidablePred p']
    [DecidablePred q'] [DecidablePred r'] (hp : ∀ s, p s → p' s) (hq : ∀ n, q n → q' n)
    (hr : ∀ ks, r ks → r' ks) {v : Json σ ν} (h : v.Every p q r) : v.Every p' q' r' := by
  induction v using Json.inductionOn with
  | null => rfl
  | bool b => rfl
  | str s => exact (every_str _).2 (hp s ((every_str s).1 h))
  | num n => exact (every_num _).2 (hq n ((every_num n).1 h))
  | arr xs ih => exact (every_arr _).2 fun x hx => ih x hx ((every_arr xs).1 h x hx)
  | obj ms ih =>
      obtain ⟨hks, hms⟩ := (every_obj ms).1 h
      exact (every_obj _).2 ⟨hr _ hks, fun m hm => ⟨hp _ (hms m hm).1, ih m hm (hms m hm).2⟩⟩

/-- A condition on a converted tree is one on the tree that was converted. -/
theorem every_traverse {q' : μ → Prop} [DecidablePred q'] {f : ν → Except ε μ}
    (hq : ∀ n m, f n = .ok m → (q' m ↔ q n)) {v : Json σ ν} {w : Json σ μ}
    (h : traverse f v = .ok w) : w.Every p q' r ↔ v.Every p q r := by
  have hcheck : w.check (fun s => decide (p s)) (fun m => decide (q' m)) (fun ks => decide (r ks))
      = v.check (fun s => decide (p s)) (fun n => decide (q n)) (fun ks => decide (r ks)) :=
    fold_traverse (f := f) rfl rfl rfl rfl rfl (fun n m hnm => decide_eq_decide.2 (hq n m hnm)) h
  rw [Every, hcheck, Every]

/-- Renamings that agree on a tree. -/
theorem map_congr {f f' : σ → τ} {g g' : ν → μ} {v : Json σ ν} (h : v.Every p q r)
    (hf : ∀ s, p s → f s = f' s) (hg : ∀ n, q n → g n = g' n) : v.map f g = v.map f' g' := by
  induction v using Json.inductionOn with
  | null => rfl
  | bool b => rfl
  | str s => exact congrArg _ (hf s ((every_str s).1 h))
  | num n => exact congrArg _ (hg n ((every_num n).1 h))
  | arr xs ih =>
      rw [map_arr, map_arr]
      exact congrArg _ (List.map_congr_left fun x hx => ih x hx ((every_arr xs).1 h x hx))
  | obj ms ih =>
      obtain ⟨-, hms⟩ := (every_obj ms).1 h
      rw [map_obj, map_obj]
      refine congrArg _ (List.map_congr_left fun m hm => ?_)
      rw [hf m.1 (hms m hm).1, ih m hm (hms m hm).2]

/-- A renaming that changes nothing in a tree. -/
theorem map_eq_self {f : σ → σ} {g : ν → ν} {v : Json σ ν} (h : v.Every p q r)
    (hf : ∀ s, p s → f s = s) (hg : ∀ n, q n → g n = n) : v.map f g = v := by
  induction v using Json.inductionOn with
  | null => rfl
  | bool b => rfl
  | str s => exact congrArg _ (hf s ((every_str s).1 h))
  | num n => exact congrArg _ (hg n ((every_num n).1 h))
  | arr xs ih =>
      rw [map_arr]
      refine congrArg _ ((List.map_congr_left fun x hx => ?_).trans (List.map_id xs))
      exact ih x hx ((every_arr xs).1 h x hx)
  | obj ms ih =>
      obtain ⟨-, hms⟩ := (every_obj ms).1 h
      rw [map_obj]
      refine congrArg _ ((List.map_congr_left fun m hm => ?_).trans (List.map_id ms))
      rw [hf m.1 (hms m hm).1, ih m hm (hms m hm).2, id]

/-- A renaming of the atoms changes nothing in a tree if and only if it changes no atom. -/
theorem map_eq_self_iff {q' : ν → Prop} [DecidablePred q'] {g : ν → ν} {v : Json σ ν}
    (h : v.Every p q r) (hg : ∀ n, q n → (g n = n ↔ q' n)) :
    v.map id g = v ↔ v.Every (fun _ => True) q' (fun _ => True) := by
  refine ⟨fun hv => ?_, fun hv => ?_⟩
  · induction v using Json.inductionOn with
    | null => trivial
    | bool b => trivial
    | str s => trivial
    | num n => exact (every_num n).2 ((hg n ((every_num n).1 h)).1 (Json.num.inj hv))
    | arr xs ih =>
        rw [map_arr] at hv
        have hxs := List.map_inj_left.1 ((Json.arr.inj hv).trans (List.map_id xs).symm)
        exact (every_arr xs).2 fun x hx => ih x hx ((every_arr xs).1 h x hx) (hxs x hx)
    | obj ms ih =>
        rw [map_obj] at hv
        have hms := List.map_inj_left.1 ((Json.obj.inj hv).trans (List.map_id ms).symm)
        rw [every_obj]
        refine ⟨trivial, fun m hm => ⟨trivial, ?_⟩⟩
        exact ih m hm (((every_obj ms).1 h).2 m hm).2 (congrArg Prod.snd (hms m hm))
  · exact map_eq_self (h.and hv) (fun _ _ => rfl) fun n hn => (hg n hn.1).2 hn.2

/-- Atoms that were given convert as given. -/
theorem traverse_map {f : μ → Except ε β} {g : ν → μ} {g' : ν → β} {v : Json σ ν}
    (h : v.Every p q r) (hf : ∀ n, q n → f (g n) = .ok (g' n)) :
    traverse f (v.map id g) = .ok (v.map id g') := by
  induction v using Json.inductionOn with
  | null => rfl
  | bool b => rfl
  | str s => rfl
  | num n =>
      have hn : q n := by simpa using h
      simp [traverse, hf n hn, Except.map]
  | arr xs ih =>
      rw [map_arr, map_arr, traverse_arr_eq_ok]
      refine ⟨_, rfl, ?_⟩
      rw [List.forall₂_map_left_iff, List.forall₂_map_right_iff, List.forall₂_same]
      exact fun x hx => ih x hx ((every_arr xs).1 h x hx)
  | obj ms ih =>
      rw [map_obj, map_obj, traverse_obj_eq_ok]
      refine ⟨_, rfl, ?_⟩
      rw [List.forall₂_map_left_iff, List.forall₂_map_right_iff, List.forall₂_same]
      exact fun m hm => ⟨rfl, ih m hm (((every_obj ms).1 h).2 m hm).2⟩

end Every

/-! ## Depth -/

/-- The number of arrays and objects around the innermost value, `0` for a
scalar. -/
def depth : Json σ ν → ℕ :=
  fold {
    null := 0
    bool := fun _ => 0
    str := fun _ => 0
    num := fun _ => 0
    arr := fun ds => ds.foldr max 0 + 1
    obj := fun ms => (ms.map Prod.snd).foldr max 0 + 1 }

theorem foldr_max_le_iff {ds : List ℕ} {n : ℕ} : ds.foldr max 0 ≤ n ↔ ∀ d ∈ ds, d ≤ n := by
  induction ds with
  | nil => simp
  | cons d ds ih => simp [ih]

@[simp] theorem depth_null : depth (.null : Json σ ν) = 0 := rfl

@[simp] theorem depth_bool (b : Bool) : depth (.bool b : Json σ ν) = 0 := rfl

@[simp] theorem depth_str (s : σ) : depth (.str s : Json σ ν) = 0 := rfl

@[simp] theorem depth_num (n : ν) : depth (.num n : Json σ ν) = 0 := rfl

theorem depth_arr (xs : List (Json σ ν)) :
    depth (.arr xs) = (xs.map depth).foldr max 0 + 1 := by
  simp [depth]

theorem depth_obj (ms : List (σ × Json σ ν)) :
    depth (.obj ms) = (ms.map fun m => m.2.depth).foldr max 0 + 1 := by
  simp [depth, Function.comp_def]

@[simp] theorem depth_map (f : σ → τ) (g : ν → μ) (v : Json σ ν) : (v.map f g).depth = v.depth := by
  rw [depth, fold_map, depth]
  simp [Function.comp_def]

theorem depth_arr_le_iff {xs : List (Json σ ν)} {n : ℕ} :
    depth (.arr xs) ≤ n + 1 ↔ ∀ x ∈ xs, x.depth ≤ n := by
  rw [depth_arr, Nat.add_le_add_iff_right, foldr_max_le_iff]
  simp

theorem depth_obj_le_iff {ms : List (σ × Json σ ν)} {n : ℕ} :
    depth (.obj ms) ≤ n + 1 ↔ ∀ m ∈ ms, m.2.depth ≤ n := by
  rw [depth_obj, Nat.add_le_add_iff_right, foldr_max_le_iff]
  simp only [List.mem_map, forall_exists_index, and_imp, forall_apply_eq_imp_iff₂]

theorem depth_lt_of_mem_arr {xs : List (Json σ ν)} {x : Json σ ν} (h : x ∈ xs) :
    x.depth < depth (.arr xs) := by
  rw [depth_arr]
  exact Nat.lt_succ_of_le (foldr_max_le_iff.1 le_rfl x.depth (List.mem_map_of_mem h))

theorem depth_lt_of_mem_obj {ms : List (σ × Json σ ν)} {m : σ × Json σ ν} (h : m ∈ ms) :
    m.2.depth < depth (.obj ms) := by
  rw [depth_obj]
  refine Nat.lt_succ_of_le (foldr_max_le_iff.1 le_rfl m.2.depth ?_)
  exact List.mem_map.2 ⟨m, h, rfl⟩

end Json
