import ZarrInline.Json.Members

/-!
# Chains of sharding codecs

A chain is built from the leaf out: each level takes the shape of the chunks it holds and
the codec of a chunk, and the shape of the outermost shards stays beside the chain (`wrap`).
It is read from the outside in, and the shapes are turned around at the end (`unwrap`).  The
shapes are one level off their codecs on both ways, so reading undoes building
(`unwrap_wrap`).

A reader goes through a chain in a representation, which `next` takes apart.  `readChain` is
its loop with a bound on the number of rounds.  It ends if `next` goes down
(`exists_readChain`), and it reads what the chain holds (`readChain_of_represents`).
-/

namespace Sharding

/-! ## Chains -/

/-- The codec of a chunk: values, or a shard of chunks. -/
inductive Codec (σ : Type) where
  | json
  | sharding (chunkShape : σ) (inner : Codec σ)

section

variable {σ γ ε : Type}

/-- The shape of the outermost shards and their codec. -/
def wrap (chunks : σ) (shards : List σ) : σ × Codec σ :=
  shards.foldl (fun built shard => (shard, .sharding built.1 built.2)) (chunks, .json)

/-- The innermost shape, and the others from the inside out. -/
def unwrap (current : σ) : Codec σ → List σ → σ × List σ
  | .json, outerToInner => (current, outerToInner.reverse)
  | .sharding chunkShape inner, outerToInner => unwrap chunkShape inner (outerToInner ++ [current])

theorem wrap_append_singleton (chunks shard : σ) (shards : List σ) :
    wrap chunks (shards ++ [shard])
      = (shard, .sharding (wrap chunks shards).1 (wrap chunks shards).2) := by
  rw [wrap, List.foldl_append]
  rfl

theorem unwrap_wrap (chunks : σ) (shards outerToInner : List σ) :
    unwrap (wrap chunks shards).1 (wrap chunks shards).2 outerToInner
      = (chunks, shards ++ outerToInner.reverse) := by
  induction shards using List.reverseRecOn generalizing outerToInner with
  | nil => rfl
  | append_singleton shards shard ih =>
      rw [wrap_append_singleton, unwrap, ih, List.reverse_append, List.append_assoc]
      rfl

/-- The number of shards around a chunk. -/
def Codec.depth : Codec σ → ℕ
  | .json => 0
  | .sharding _ inner => inner.depth + 1

/-- Every shape in a chain. -/
def Codec.All (p : σ → Prop) : Codec σ → Prop
  | .json => True
  | .sharding chunkShape inner => p chunkShape ∧ inner.All p

theorem all_wrap {p : σ → Prop} {chunks : σ} {shards : List σ} (hchunks : p chunks)
    (hshards : ∀ shard ∈ shards, p shard) :
    p (wrap chunks shards).1 ∧ (wrap chunks shards).2.All p := by
  induction shards using List.reverseRecOn with
  | nil => exact ⟨hchunks, trivial⟩
  | append_singleton shards shard ih =>
      rw [wrap_append_singleton]
      have hbelow := ih fun s hs => hshards s (List.mem_append_left _ hs)
      exact ⟨hshards shard (List.mem_append_right _ (List.mem_singleton_self _)), hbelow⟩

/-- A chain with its shapes in another type. -/
def Codec.map {τ : Type} (f : σ → τ) : Codec σ → Codec τ
  | .json => .json
  | .sharding chunkShape inner => .sharding (f chunkShape) (inner.map f)

theorem Codec.depth_map {τ : Type} (f : σ → τ) (codec : Codec σ) :
    (codec.map f).depth = codec.depth := by
  induction codec with
  | json => rfl
  | sharding chunkShape inner ih => exact congrArg (· + 1) ih

theorem wrap_map {τ : Type} (f : σ → τ) (chunks : σ) (shards : List σ) :
    f (wrap chunks shards).1 = (wrap (f chunks) (shards.map f)).1 ∧
      (wrap chunks shards).2.map f = (wrap (f chunks) (shards.map f)).2 := by
  induction shards using List.reverseRecOn with
  | nil => exact ⟨rfl, rfl⟩
  | append_singleton shards shard ih =>
      rw [List.map_append, List.map_singleton, wrap_append_singleton, wrap_append_singleton]
      exact ⟨rfl, by rw [Codec.map, ih.1, ih.2]⟩

/-! ## Reading a chain -/

/-- The loop of a reader, at most `n` rounds.  Of a chain that shards, `next` gives the shape
of the chunks and their chain. -/
def readChain (next : γ → Option (Except ε (σ × γ))) :
    ℕ → σ → γ → List σ → Option (Except ε (σ × List σ))
  | 0, _, _, _ => none
  | n + 1, current, codecs, outerToInner =>
      match next codecs with
      | none => some (.ok (current, outerToInner.reverse))
      | some (.error e) => some (.error e)
      | some (.ok (inner, codecs)) => readChain next n inner codecs (outerToInner ++ [current])

variable {next : γ → Option (Except ε (σ × γ))}

/-- A loop that goes down ends, whatever the bound over the size. -/
theorem exists_readChain (size : γ → ℕ)
    (hnext : ∀ codecs inner codecs', next codecs = some (.ok (inner, codecs')) →
      size codecs' < size codecs) (current : σ) (codecs : γ) (outerToInner : List σ) :
    ∃ r, ∀ n, size codecs < n → readChain next n current codecs outerToInner = some r := by
  induction h : size codecs using Nat.strongRecOn generalizing current codecs outerToInner with
  | ind m ih =>
      cases hcodecs : next codecs with
      | none =>
          refine ⟨.ok (current, outerToInner.reverse), fun n hn => ?_⟩
          obtain ⟨n, rfl⟩ := Nat.exists_eq_succ_of_ne_zero (Nat.ne_zero_of_lt hn)
          simp only [readChain, hcodecs]
      | some read =>
          cases read with
          | error e =>
              refine ⟨.error e, fun n hn => ?_⟩
              obtain ⟨n, rfl⟩ := Nat.exists_eq_succ_of_ne_zero (Nat.ne_zero_of_lt hn)
              simp only [readChain, hcodecs]
          | ok below =>
              obtain ⟨inner, codecs'⟩ := below
              have hlt := hnext codecs inner codecs' hcodecs
              obtain ⟨r, hr⟩ := ih _ (h ▸ hlt) inner codecs' (outerToInner ++ [current]) rfl
              refine ⟨r, fun n hn => ?_⟩
              obtain ⟨n, rfl⟩ := Nat.exists_eq_succ_of_ne_zero (Nat.ne_zero_of_lt hn)
              simp only [readChain, hcodecs]
              exact hr n (by omega)

/-- The reader takes the representation apart as the chain is built. -/
inductive Represents (next : γ → Option (Except ε (σ × γ))) : Codec σ → γ → Prop
  | json {codecs : γ} (h : next codecs = none) : Represents next .json codecs
  | sharding {chunkShape : σ} {inner : Codec σ} {codecs codecs' : γ}
      (h : next codecs = some (.ok (chunkShape, codecs'))) (hinner : Represents next inner codecs') :
      Represents next (.sharding chunkShape inner) codecs

theorem readChain_of_represents {codec : Codec σ} {codecs : γ} (h : Represents next codec codecs)
    {n : ℕ} (hn : codec.depth < n) (current : σ) (outerToInner : List σ) :
    readChain next n current codecs outerToInner
      = some (.ok (unwrap current codec outerToInner)) := by
  induction h generalizing n current outerToInner with
  | json h =>
      obtain ⟨n, rfl⟩ := Nat.exists_eq_succ_of_ne_zero (Nat.ne_zero_of_lt hn)
      simp only [readChain, h, unwrap]
  | sharding h hinner ih =>
      obtain ⟨n, rfl⟩ := Nat.exists_eq_succ_of_ne_zero (Nat.ne_zero_of_lt hn)
      simp only [readChain, h, unwrap]
      exact ih (Nat.lt_of_succ_lt_succ hn) _ _

/-- What is built is read as it was given. -/
theorem readChain_wrap {codecs : γ} {chunks : σ} {shards : List σ}
    (h : Represents next (wrap chunks shards).2 codecs) {n : ℕ}
    (hn : (wrap chunks shards).2.depth < n) :
    readChain next n (wrap chunks shards).1 codecs [] = some (.ok (chunks, shards)) := by
  rw [readChain_of_represents h hn, unwrap_wrap, List.reverse_nil, List.append_nil]

end

/-! ## Chains in metadata -/

section

variable {ι κ ν : Type} [DecidableEq κ]

/-- A codec as metadata describe it.  `lit` makes the string of a literal and `num` the number
of an extent. -/
inductive IsCodec (lit : String → κ) (num : ι → ν) : Codec (List ι) → Json κ ν → Prop
  | json {ms : List (κ × Json κ ν)}
      (hname : Json.lookup (lit "name") ms = some (.str (lit "json"))) :
      IsCodec lit num .json (.obj ms)
  | sharding {chunkShape : List ι} {inner : Codec (List ι)} {ms conf : List (κ × Json κ ν)}
      {value : Json κ ν}
      (hname : Json.lookup (lit "name") ms = some (.str (lit "sharding_indexed")))
      (hconf : Json.lookup (lit "configuration") ms = some (.obj conf))
      (hshape : Json.lookup (lit "chunk_shape") conf
        = some (.arr (chunkShape.map fun n => .num (num n))))
      (hcodecs : Json.lookup (lit "codecs") conf = some (.arr [value]))
      (hinner : IsCodec lit num inner value) : IsCodec lit num (.sharding chunkShape inner) (.obj ms)

/-- The metadata of an array with a chunk grid and a codec.  What else they hold is left
open. -/
inductive IsArray (lit : String → κ) (num : ι → ν) (chunks : List ι) (codec : Codec (List ι)) :
    Json κ ν → Prop
  | intro {ms grid conf : List (κ × Json κ ν)} {value : Json κ ν}
      (hgrid : Json.lookup (lit "chunk_grid") ms = some (.obj grid))
      (hconf : Json.lookup (lit "configuration") grid = some (.obj conf))
      (hshape : Json.lookup (lit "chunk_shape") conf
        = some (.arr (chunks.map fun n => .num (num n))))
      (hcodecs : Json.lookup (lit "codecs") ms = some (.arr [value]))
      (hcodec : IsCodec lit num codec value) : IsArray lit num chunks codec (.obj ms)

variable {lit : String → κ} {num : ι → ν}

/-- A codec with nothing else. -/
def describeCodec (lit : String → κ) (num : ι → ν) : Codec (List ι) → Json κ ν
  | .json => .obj [(lit "name", .str (lit "json"))]
  | .sharding chunkShape inner => .obj [(lit "name", .str (lit "sharding_indexed")),
      (lit "configuration", .obj [(lit "chunk_shape", .arr (chunkShape.map fun n => .num (num n))),
        (lit "codecs", .arr [describeCodec lit num inner])])]

/-- An array with nothing else. -/
def describeArray (lit : String → κ) (num : ι → ν) (chunks : List ι) (codec : Codec (List ι)) :
    Json κ ν :=
  .obj [(lit "chunk_grid", .obj [(lit "configuration",
      .obj [(lit "chunk_shape", .arr (chunks.map fun n => .num (num n)))])]),
    (lit "codecs", .arr [describeCodec lit num codec])]

theorem isCodec_describeCodec (hname : lit "name" ≠ lit "configuration")
    (hshape : lit "chunk_shape" ≠ lit "codecs") (codec : Codec (List ι)) :
    IsCodec lit num codec (describeCodec lit num codec) := by
  induction codec with
  | json => exact .json (if_pos rfl)
  | sharding chunkShape inner ih =>
      exact .sharding (if_pos rfl) ((if_neg hname).trans (if_pos rfl)) (if_pos rfl)
        ((if_neg hshape).trans (if_pos rfl)) ih

theorem isArray_describeArray (hname : lit "name" ≠ lit "configuration")
    (hshape : lit "chunk_shape" ≠ lit "codecs") (hgrid : lit "chunk_grid" ≠ lit "codecs")
    (chunks : List ι) (codec : Codec (List ι)) :
    IsArray lit num chunks codec (describeArray lit num chunks codec) :=
  .intro (if_pos rfl) (if_pos rfl) (if_pos rfl) ((if_neg hgrid).trans (if_pos rfl))
    (isCodec_describeCodec hname hshape codec)

end

end Sharding
