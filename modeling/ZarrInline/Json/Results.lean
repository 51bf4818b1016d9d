import ZarrInline.Json.Writer

/-!
# Lists of results

What is there of a list of optional results, and of `sequence` when its errors are
forgotten.  A reader that keeps the kind of a tree is examined kind by kind.
-/

namespace Json

variable {α β γ ε : Type}

theorem bind_eq_ok {x : Except ε α} {f : α → Except ε β} {b : β} (h : x >>= f = .ok b) :
    ∃ a, x = .ok a ∧ f a = .ok b := by
  cases x with
  | error e => cases h
  | ok a => exact ⟨a, rfl, h⟩

theorem mapM_cons_option (f : α → Option β) (x : α) (xs : List α) :
    (x :: xs).mapM f = (f x).bind fun y => (xs.mapM f).map (y :: ·) := by
  rw [List.mapM_cons]
  cases f x with
  | none => rfl
  | some y => cases xs.mapM f <;> rfl

/-- Two passes over a list are one. -/
theorem mapM_bind_mapM (f : α → Option β) (g : β → Option γ) (xs : List α) :
    (xs.mapM f).bind (fun ys => ys.mapM g) = xs.mapM fun x => (f x).bind g := by
  induction xs with
  | nil => rfl
  | cons x xs ih =>
      rw [mapM_cons_option, mapM_cons_option, ← ih]
      cases f x with
      | none => rfl
      | some y =>
          cases xs.mapM f with
          | none => simp
          | some ys => exact mapM_cons_option g y ys

theorem mapM_map_option (f : α → Option β) (g : β → γ) (xs : List α) :
    xs.mapM (fun x => (f x).map g) = (xs.mapM f).map (·.map g) := by
  induction xs with
  | nil => rfl
  | cons x xs ih =>
      rw [mapM_cons_option, mapM_cons_option, ih]
      cases f x with
      | none => rfl
      | some y => cases xs.mapM f <;> rfl

theorem mapM_congr_option {f g : α → Option β} {xs : List α} (h : ∀ x ∈ xs, f x = g x) :
    xs.mapM f = xs.mapM g := by
  induction xs with
  | nil => rfl
  | cons x xs ih =>
      rw [mapM_cons_option, mapM_cons_option, h x (by simp), ih fun y hy => h y (by simp [hy])]

theorem mapM_eq_some {f : α → Option β} {g : α → β} {xs : List α} (h : ∀ x ∈ xs, f x = some (g x)) :
    xs.mapM f = some (xs.map g) := by
  induction xs with
  | nil => rfl
  | cons x xs ih =>
      rw [mapM_cons_option, h x List.mem_cons_self, ih fun y hy => h y (List.mem_cons_of_mem _ hy)]
      rfl

/-- What a list of results holds. -/
theorem forall_of_mapM {f : α → Option β} {P : β → Prop} (hf : ∀ x y, f x = some y → P y)
    {xs : List α} {ys : List β} (h : xs.mapM f = some ys) : ∀ y ∈ ys, P y := by
  induction xs generalizing ys with
  | nil => cases h; simp
  | cons x xs ih =>
      rw [mapM_cons_option] at h
      obtain ⟨y, hy, h⟩ := Option.bind_eq_some_iff.1 h
      obtain ⟨zs, hzs, rfl⟩ := Option.map_eq_some_iff.1 h
      intro z hz
      rcases List.mem_cons.1 hz with rfl | hz
      · exact hf x z hy
      · exact ih hzs z hz

theorem mapM_ite {p : α → Prop} [DecidablePred p] (f : α → β) (xs : List α) :
    (xs.mapM fun x => if p x then some (f x) else none)
      = if ∀ x ∈ xs, p x then some (xs.map f) else none := by
  induction xs with
  | nil => simp
  | cons x xs ih =>
      rw [mapM_cons_option, ih]
      simp only [List.forall_mem_cons]
      by_cases hx : p x
      · rw [if_pos hx, Option.bind_some]
        simp only [hx, true_and]
        split_ifs <;> rfl
      · simp only [hx, false_and, if_false]
        rfl

theorem mapM_unless {p : α → Prop} [DecidablePred p] (f : α → Option β) (xs : List α) :
    (xs.mapM fun x => if p x then none else f x) = if ∃ x ∈ xs, p x then none else xs.mapM f := by
  induction xs with
  | nil => simp
  | cons x xs ih =>
      rw [mapM_cons_option, mapM_cons_option, ih]
      simp only [List.exists_mem_cons_iff]
      by_cases hx : p x
      · simp only [hx, true_or, if_true]
        rfl
      · simp only [hx, false_or, if_false]
        split_ifs
        · cases f x <;> rfl
        · rfl

theorem isSome_of_mapM {f : α → Option β} {xs : List α} {ys : List β} (h : xs.mapM f = some ys)
    {x : α} (hx : x ∈ xs) : (f x).isSome := by
  induction xs generalizing ys with
  | nil => cases hx
  | cons y xs ih =>
      rw [mapM_cons_option] at h
      obtain ⟨z, hz, h⟩ := Option.bind_eq_some_iff.1 h
      obtain ⟨zs, hzs, -⟩ := Option.map_eq_some_iff.1 h
      rcases List.mem_cons.1 hx with rfl | hx
      · rw [hz]
        rfl
      · exact ih hzs hx

theorem eq_ok_of_toOption {x : Except ε α} {a : α} (h : x.toOption = some a) : x = .ok a := by
  cases x with
  | error e => cases h
  | ok b => exact congrArg _ (Option.some.inj h)

theorem exists_of_toBool {x : Except ε α} (h : x.toBool = true) : ∃ a, x = .ok a := by
  cases x with
  | error e => cases h
  | ok a => exact ⟨a, rfl⟩

theorem exists_of_any_toOption {x : Except ε α} {p : α → Bool} (h : x.toOption.any p = true) :
    ∃ a, x = .ok a ∧ p a = true := by
  cases x with
  | error e => cases h
  | ok a => exact ⟨a, rfl, h⟩

theorem toOption_sequence (t : α → Except ε β) (xs : List α) :
    (sequence (xs.map t)).toOption = xs.mapM fun x => (t x).toOption := by
  induction xs with
  | nil => rfl
  | cons x xs ih =>
      rw [mapM_cons_option, List.map_cons, sequence, ← ih]
      cases t x with
      | error e => rfl
      | ok y => cases sequence (xs.map t) <;> rfl

theorem toOption_map {f : α → β} {x : Except ε α} : (x.map f).toOption = x.toOption.map f := by
  cases x <;> rfl

theorem toOption_bind {x : Except ε α} {f : α → Except ε β} :
    (x >>= f).toOption = x.toOption.bind fun a => (f a).toOption := by
  cases x <;> rfl

/-- Two values may be read before both are checked. -/
theorem bind_bind_swap {δ : Type} (x : Option α) (y : Option β) (f : α → Option γ) (g : β → Option δ)
    {ζ : Type} (k : γ → δ → Option ζ) :
    (x.bind fun a => y.bind fun b => (f a).bind fun c => (g b).bind fun d => k c d)
      = (x.bind f).bind fun c => (y.bind g).bind fun d => k c d := by
  cases x with
  | none => rfl
  | some a =>
      cases y with
      | none => simp
      | some b => rfl

/-! ## Kinds -/

/-- The kinds of JSON values. -/
inductive Kind
  | null | bool | num | str | arr | obj
deriving DecidableEq

section Kinds

variable {σ τ ν μ κ : Type}

/-- The kind of a value. -/
def kind : Json σ ν → Kind
  | .null => .null
  | .bool _ => .bool
  | .num _ => .num
  | .str _ => .str
  | .arr _ => .arr
  | .obj _ => .obj

@[simp] theorem kind_map (f : σ → τ) (g : ν → μ) (v : Json σ ν) : (v.map f g).kind = v.kind := by
  cases v with
  | arr xs => rw [map_arr]; rfl
  | obj ms => rw [map_obj]; rfl
  | _ => rfl

@[simp] theorem kind_load (name : List StrItem → κ) (rank : κ → Option ℕ)
    [DecidableEq κ] (v : Json (List StrItem) ν) : (v.load name rank).kind = v.kind := by
  cases v with
  | arr xs => rw [load_arr]; rfl
  | obj ms => rw [load_obj]; rfl
  | _ => rfl

theorem kind_traverse {f : ν → Except ε μ} {v : Json σ ν} {w : Json σ μ}
    (h : v.traverse f = .ok w) : w.kind = v.kind := by
  have hmap : w.map id (fun _ => ()) = v.map id fun _ => () := map_traverse (fun _ _ _ => rfl) h
  rw [← kind_map id (fun _ => ()) w, ← kind_map id (fun _ => ()) v, hmap]

/-- A check that refuses all kinds but `k` refuses what is read of another kind. -/
theorem bind_eq_none_of_kind {read : Raw → Option (Json σ ν)}
    (hread : ∀ {raw v}, read raw = some v → v.kind = raw.kind) {k : Kind} {f : Json σ ν → Option β}
    (hf : ∀ v, v.kind ≠ k → f v = none) {raw : Raw} (hraw : raw.kind ≠ k) :
    (read raw).bind f = none := by
  rw [Option.bind_eq_none_iff]
  intro v hv
  exact hf v (hread hv ▸ hraw)

end Kinds

end Json
