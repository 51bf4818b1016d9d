import ZarrInline.Json.Results
import ZarrInline.Python.Crosscheck
import ZarrInline.Sharding.Chain

/-!
# Shard layouts in Python

`crosscheck/python`: the codec chain that `_create_array` builds, and `_layout`, which reads
the shapes off metadata without checking them.  A dict with a name that is no string counts
as a value of another type here.
-/

namespace Python.Crosscheck

/-! ## The source -/

/-- The codecs of `_create_array`: the chunk grid and the serializer it hands to `zarr`. -/
def createArray (chunks : List ℤ) (shards : List (List ℤ)) : List ℤ × Sharding.Codec (List ℤ) :=
  Sharding.wrap chunks shards

/-- What `_layout` raises. -/
inductive LayoutError where
  | key
  | attribute
  | type

/-- `value[name]`. -/
def subscript (value : PyValue) (name : PyString) : Except LayoutError PyValue :=
  match value with
  | .obj ms =>
      match Json.lookup name ms with
      | some x => .ok x
      | none => .error .key
  | _ => .error .type

/-- `list(value)`. -/
def toList : PyValue → Except LayoutError (List PyValue)
  | .arr xs => .ok xs
  | .str s => .ok (s.map fun c => .str [c])
  | .obj ms => .ok (ms.map fun m => .str m.1)
  | _ => .error .type

/-- Whether `codecs[0].get("name")` is the name of the sharding codec. -/
def isSharding (codec : PyValue) : Except LayoutError Bool :=
  match codec with
  | .obj ms =>
      match Json.lookup (py "name") ms with
      | some (.str name) => .ok (decide (name = py "sharding_indexed"))
      | _ => .ok false
  | _ => .error .attribute

/-- The condition of the loop of `_layout`: the one codec, if it is a sharding codec. -/
def onlySharding (codecs : PyValue) : Except LayoutError (Option PyValue) :=
  match codecs with
  | .arr [codec] => do
      return if ← isSharding codec then some codec else none
  | .arr _ => .ok none
  | .str [_] => .error .attribute
  | .str _ => .ok none
  | .obj [_] => .error .key
  | .obj _ => .ok none
  | _ => .error .type

/-- The body of the loop of `_layout`: the chunk shape and the codecs of a codec. -/
def readConfiguration (codec : PyValue) : Except LayoutError (List PyValue × PyValue) := do
  let configuration ← subscript codec (py "configuration")
  let current ← toList (← subscript configuration (py "chunk_shape"))
  let codecs ← subscript configuration (py "codecs")
  return (current, codecs)

/-- The loop of `_layout`, with its condition. -/
def shardingBelow (codecs : PyValue) : Option (Except LayoutError (List PyValue × PyValue)) :=
  match onlySharding codecs with
  | .error e => some (.error e)
  | .ok none => none
  | .ok (some codec) => some (readConfiguration codec)

/-- The chunk shape of the grid and the codecs. -/
def outermost (metadata : PyValue) : Except LayoutError (List PyValue × PyValue) := do
  let grid ← subscript metadata (py "chunk_grid")
  let configuration ← subscript grid (py "configuration")
  let current ← toList (← subscript configuration (py "chunk_shape"))
  let codecs ← subscript metadata (py "codecs")
  return (current, codecs)

/-- `_layout`, with at most `n` rounds of its loop. -/
def layout (n : ℕ) (metadata : PyValue) :
    Option (Except LayoutError (List PyValue × List (List PyValue))) :=
  match outermost metadata with
  | .error e => some (.error e)
  | .ok (current, codecs) => Sharding.readChain shardingBelow n current codecs []

/-! ## The loop ends -/

theorem depth_subscript_lt {value x : PyValue} {name : PyString} (h : subscript value name = .ok x) :
    x.depth < value.depth := by
  unfold subscript at h
  split at h
  · split at h
    · next ms y hy =>
        cases h
        exact Json.depth_lt_of_mem_obj (Json.mem_of_lookup hy)
    · cases h
  · cases h

theorem readConfiguration_lt {codec codecs : PyValue} {inner : List PyValue}
    (h : readConfiguration codec = .ok (inner, codecs)) : codecs.depth < codec.depth := by
  rw [readConfiguration] at h
  obtain ⟨configuration, hconf, h⟩ := Json.bind_eq_ok h
  obtain ⟨shape, -, h⟩ := Json.bind_eq_ok h
  obtain ⟨current, -, h⟩ := Json.bind_eq_ok h
  obtain ⟨cs, hcs, h⟩ := Json.bind_eq_ok h
  cases h
  exact (depth_subscript_lt hcs).trans (depth_subscript_lt hconf)

theorem onlySharding_lt {codecs codec : PyValue} (h : onlySharding codecs = .ok (some codec)) :
    codec.depth < codecs.depth := by
  unfold onlySharding at h
  split at h
  · obtain ⟨b, -, h⟩ := Json.bind_eq_ok h
    cases b with
    | false => cases h
    | true =>
        cases h
        exact Json.depth_lt_of_mem_arr List.mem_cons_self
  all_goals cases h

theorem shardingBelow_lt {codecs codecs' : PyValue} {inner : List PyValue}
    (h : shardingBelow codecs = some (.ok (inner, codecs'))) : codecs'.depth < codecs.depth := by
  unfold shardingBelow at h
  split at h
  · cases h
  · cases h
  · next codec hcodec =>
      exact (readConfiguration_lt (Option.some.inj h)).trans (onlySharding_lt hcodec)

/-- `_layout` ends. -/
theorem exists_layout (metadata : PyValue) : ∃ n r, ∀ m, n ≤ m → layout m metadata = some r := by
  cases houter : outermost metadata with
  | error e => exact ⟨0, .error e, fun m _ => by simp only [layout, houter]⟩
  | ok outer =>
      obtain ⟨r, hr⟩ := Sharding.exists_readChain Json.depth (fun _ _ _ => shardingBelow_lt)
        outer.1 outer.2 []
      refine ⟨outer.2.depth + 1, r, fun m hm => ?_⟩
      simp only [layout, houter]
      exact hr m hm

/-! ## The layout of an array that was created -/

/-- A chain in metadata is read level by level. -/
theorem represents {codec : Sharding.Codec (List ℤ)} {value : PyValue}
    (h : Sharding.IsCodec py PyAtom.int codec value) :
    Sharding.Represents shardingBelow (codec.map fun shape => shape.map fun i => .num (.int i))
      (.arr [value]) := by
  induction h with
  | json hname =>
      refine .json ?_
      simp only [shardingBelow, onlySharding, isSharding, hname]
      rfl
  | sharding hname hconf hshape hcodecs _ ih =>
      refine .sharding ?_ ih
      simp only [shardingBelow, onlySharding, isSharding, hname, decide_true, readConfiguration,
        subscript, hconf, hshape, hcodecs, toList, bind, Except.bind, pure, Except.pure, if_true]

theorem layout_createArray (chunks : List ℤ) (shards : List (List ℤ)) (metadata : PyValue)
    (h : Sharding.IsArray py PyAtom.int (createArray chunks shards).1 (createArray chunks shards).2
      metadata) :
    ∃ n, ∀ m, n ≤ m → layout m metadata = some (.ok (chunks.map fun i => .num (.int i),
      shards.map fun shard => shard.map fun i => .num (.int i))) := by
  obtain ⟨hgrid, hconf, hshape, hcodecs, hcodec⟩ := h
  have hwrap := Sharding.wrap_map (fun shape : List ℤ => shape.map fun i => (.num (.int i) : PyValue))
    chunks shards
  refine ⟨(createArray chunks shards).2.depth + 1, fun m hm => ?_⟩
  have hrep := represents hcodec
  simp only [layout, outermost, subscript, hgrid, hconf, hshape, hcodecs, toList, bind, Except.bind,
    pure, Except.pure]
  rw [createArray, hwrap.2] at hrep
  rw [createArray, hwrap.1]
  refine Sharding.readChain_wrap hrep ?_
  rw [← hwrap.2, Sharding.Codec.depth_map]
  exact hm

end Python.Crosscheck
