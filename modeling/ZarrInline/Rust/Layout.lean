import ZarrInline.Rust.Crosscheck
import ZarrInline.Sharding.Chain

/-!
# Shard layouts in Rust

`crosscheck/rust`: the codec chain that `create_array` builds, and `layout`, which reads the
shapes off metadata.
-/

namespace Rust.Crosscheck

open Numeric (NumberToken)

/-! ## The source -/

/-- `nonzero_shape`. -/
def nonzeroShape (shape : List ℕ) (what : RustString) : Except RustString (List ℕ) :=
  shape.mapM fun d => if d ≠ 0 then .ok d else .error (what ++ ": extents must be >= 1".toList)

/-- The loop of `create_array`, from a level on. -/
def codecChain : ℕ → List ℕ → Sharding.Codec (List ℕ) → List (List ℕ) →
    Except RustString (List ℕ × Sharding.Codec (List ℕ))
  | _, storageChunks, codec, [] => .ok (storageChunks, codec)
  | level, storageChunks, codec, shard :: shards => do
      let inner ← nonzeroShape storageChunks ("shards[".toList ++ display level ++ "]".toList)
      codecChain (level + 1) shard (.sharding inner codec) shards

/-- `create_array`: the chunk grid and the codec it hands to `zarrs`. -/
def createArray (chunks : List ℕ) (shards : List (List ℕ)) :
    Except RustString (List ℕ × Sharding.Codec (List ℕ)) :=
  codecChain 0 chunks .json shards

/-- `Value::get`. -/
def get (v : Value) (name : RustString) : Option Value :=
  match v with
  | .obj ms => Json.lookup name ms
  | _ => none

/-- `value[name]`. -/
def index (v : Value) (name : RustString) : Value := (get v name).getD .null

/-- The name of a codec, if it is a string. -/
def codecName (codec : Value) : Option RustString :=
  match get codec "name".toList with
  | some (.str name) => some name
  | _ => none

/-- The body of the loop of `layout`: the chunk shape and the codecs of a configuration. -/
def readConfiguration (configuration : Value) : Except RustString (List ℕ × List Value) :=
  match u64List (index configuration "chunk_shape".toList) "sharding chunk shape".toList 1 with
  | .error e => .error e
  | .ok current =>
      match index configuration "codecs".toList with
      | .arr codecs => .ok (current, codecs)
      | _ => .error "sharding codecs must be an array".toList

/-- The loop of `layout`, with its condition. -/
def shardingBelow : List Value → Option (Except RustString (List ℕ × List Value))
  | [codec] =>
      if codecName codec = some "sharding_indexed".toList then
        some (readConfiguration (index codec "configuration".toList))
      else none
  | _ => none

/-- `layout`, with at most `n` rounds of its loop. -/
def layout (n : ℕ) (metadata : Value) : Option (Except RustString (List ℕ × List (List ℕ))) :=
  match u64List (index (index (index metadata "chunk_grid".toList) "configuration".toList)
      "chunk_shape".toList) "metadata chunk shape".toList 1 with
  | .error e => some (.error e)
  | .ok current =>
      match index metadata "codecs".toList with
      | .arr codecs => Sharding.readChain shardingBelow n current codecs []
      | _ => some (.error "metadata codecs must be an array".toList)

/-! ## The loop ends -/

theorem depth_index_lt {v : Value} {name : RustString} (h : index v name ≠ .null) :
    (index v name).depth < v.depth := by
  rw [index] at h ⊢
  cases hget : get v name with
  | none => rw [hget] at h; exact absurd rfl h
  | some x =>
      cases v with
      | obj ms => exact Json.depth_lt_of_mem_obj (Json.mem_of_lookup hget)
      | _ => cases hget

theorem readConfiguration_lt {configuration : Value} {inner : List ℕ} {codecs : List Value}
    (h : readConfiguration configuration = .ok (inner, codecs)) :
    Json.depth (.arr codecs) < configuration.depth := by
  unfold readConfiguration at h
  split at h
  · cases h
  · split at h
    · next cs hcs =>
        cases h
        have hlt : (index configuration "codecs".toList).depth < configuration.depth :=
          depth_index_lt fun hnull => by
            rw [hnull] at hcs
            cases hcs
        rw [hcs] at hlt
        exact hlt
    · cases h

theorem shardingBelow_lt {codecs codecs' : List Value} {inner : List ℕ}
    (h : shardingBelow codecs = some (.ok (inner, codecs'))) :
    Json.depth (.arr codecs') < Json.depth (.arr codecs) := by
  unfold shardingBelow at h
  split at h
  · next codec =>
      split at h
      · have hlt := readConfiguration_lt (Option.some.inj h)
        have hconf : (index codec "configuration".toList).depth < codec.depth :=
          depth_index_lt fun hnull => by
            rw [hnull] at hlt
            exact Nat.not_lt_zero _ hlt
        exact (hlt.trans hconf).trans (Json.depth_lt_of_mem_arr List.mem_cons_self)
      · cases h
  · cases h

/-- `layout` ends. -/
theorem exists_layout (metadata : Value) : ∃ n r, ∀ m, n ≤ m → layout m metadata = some r := by
  simp only [layout]
  split
  · exact ⟨0, _, fun _ _ => rfl⟩
  · next current hcurrent =>
      split
      · next codecs hcodecs =>
          obtain ⟨r, hr⟩ := Sharding.exists_readChain (fun cs => Json.depth (.arr cs))
            (fun _ _ _ => shardingBelow_lt) current codecs []
          exact ⟨Json.depth (.arr codecs) + 1, r, fun m hm => hr m hm⟩
      · exact ⟨0, _, fun _ _ => rfl⟩

/-! ## The layout of an array that was created -/

theorem u64Item_ofInt {n : ℕ} (h : 1 ≤ n ∧ n ≤ maxSafeDimension) :
    u64Item 1 (.num (.ofInt n)) = some n := by
  have hvalue : Numeric.ofDigits (NumberToken.ofInt (n : ℤ)).int = n := by
    have habs := NumberToken.natAbs_intValue (NumberToken.ofInt (n : ℤ))
    rw [NumberToken.intValue_ofInt] at habs
    exact habs.symm.trans (Int.natAbs_natCast n)
  have hneg : (NumberToken.ofInt (n : ℤ)).neg = false := by
    show decide ((n : ℤ) < 0) = false
    exact decide_eq_false (by omega)
  have hlt : n < 2 ^ 64 := by
    have hmax : maxSafeDimension = 9007199254740991 := rfl
    omega
  rw [u64Item, asU64, parseU64_render, hvalue, if_pos ⟨NumberToken.isInteger_ofInt _, hneg, hlt⟩]
  simp [h]

/-- Extents in range are read as they were written. -/
theorem u64List_ofInt {shape : List ℕ} (what : RustString)
    (h : ∀ n ∈ shape, 1 ≤ n ∧ n ≤ maxSafeDimension) :
    u64List (.arr (shape.map fun n : ℕ => .num (.ofInt n))) what 1 = .ok shape := by
  have hitems : (shape.map fun n : ℕ => (.num (.ofInt n) : Value)).mapM (u64Item 1) = some shape := by
    have hsome := Json.mapM_eq_some (f := u64Item 1 ∘ fun n : ℕ => .num (.ofInt n)) (g := id)
      fun n hn => u64Item_ofInt (h n hn)
    rw [List.mapM_map, hsome, List.map_id]
  simp only [u64List, hitems]

theorem u64List_range {value : Value} {what : RustString} {shape : List ℕ}
    (h : u64List value what 1 = .ok shape) : ∀ n ∈ shape, 1 ≤ n ∧ n ≤ maxSafeDimension := by
  unfold u64List at h
  split at h
  · split at h
    · next items ns hitems =>
        cases h
        refine Json.forall_of_mapM (fun x n hn => ?_) hitems
        have hfilter := (Option.filter_eq_some_iff.1 hn).2
        simpa using hfilter
    · cases h
  · cases h

theorem shardLevels_range {what : RustString} {level : ℕ} {inner : List ℕ} {levels : List Value}
    {shards : List (List ℕ)} (h : shardLevels what level inner levels = .ok shards) :
    ∀ shard ∈ shards, ∀ n ∈ shard, 1 ≤ n ∧ n ≤ maxSafeDimension := by
  induction levels generalizing level inner shards with
  | nil =>
      cases h
      exact fun shard hshard => by cases hshard
  | cons value levels ih =>
      rw [shardLevels] at h
      cases hshape : u64List value (what ++ "[".toList ++ display level ++ "]".toList) 1 with
      | error e => rw [hshape] at h; cases h
      | ok shape =>
          simp only [hshape, bind, Except.bind] at h
          split at h
          · cases h
          · cases hrest : shardLevels what (level + 1) shape levels with
            | error e => rw [hrest] at h; cases h
            | ok rest =>
                rw [hrest] at h
                cases h
                intro shard hshard
                rcases List.mem_cons.1 hshard with rfl | hshard
                · exact u64List_range hshape
                · exact ih hrest shard hshard

theorem shardShapes_range {value : Option Value} {chunks : List ℕ} {what : RustString}
    {shards : List (List ℕ)} (h : shardShapes value chunks what = .ok shards) :
    ∀ shard ∈ shards, ∀ n ∈ shard, 1 ≤ n ∧ n ≤ maxSafeDimension := by
  unfold shardShapes at h
  split at h
  · cases h
    exact fun shard hshard => by cases hshard
  · exact shardLevels_range h
  · cases h

/-- The extents that the validators accept. -/
def InRange (shape : List ℕ) : Prop := ∀ n ∈ shape, 1 ≤ n ∧ n ≤ maxSafeDimension

theorem nonzeroShape_eq {shape : List ℕ} (what : RustString) (h : InRange shape) :
    nonzeroShape shape what = .ok shape := by
  induction shape with
  | nil => rfl
  | cons d shape ih =>
      have hd : d ≠ 0 := Nat.one_le_iff_ne_zero.1 (h d List.mem_cons_self).1
      rw [nonzeroShape] at ih ⊢
      rw [List.mapM_cons, ih fun n hn => h n (List.mem_cons_of_mem _ hn), if_pos hd]
      rfl

/-- The codecs are built as a chain, since no extent is zero. -/
theorem codecChain_eq {level : ℕ} {storageChunks : List ℕ} {codec : Sharding.Codec (List ℕ)}
    {shards : List (List ℕ)} (hchunks : InRange storageChunks) (hshards : ∀ s ∈ shards, InRange s) :
    codecChain level storageChunks codec shards
      = .ok (shards.foldl (fun built shard => (shard, .sharding built.1 built.2))
          (storageChunks, codec)) := by
  induction shards generalizing level storageChunks codec with
  | nil => rfl
  | cons shard shards ih =>
      rw [codecChain, nonzeroShape_eq _ hchunks]
      exact ih (hshards shard List.mem_cons_self) fun s hs => hshards s (List.mem_cons_of_mem _ hs)

/-- A chain in metadata is read level by level. -/
theorem represents {codec : Sharding.Codec (List ℕ)} (hrange : codec.All InRange) {value : Value}
    (h : Sharding.IsCodec String.toList (fun n : ℕ => NumberToken.ofInt n) codec value) :
    Sharding.Represents shardingBelow codec [value] := by
  induction h with
  | json hname =>
      refine .json ?_
      simp only [shardingBelow, codecName, get, hname]
      rfl
  | sharding hname hconf hshape hcodecs _ ih =>
      obtain ⟨hchunk, hinner⟩ := hrange
      refine .sharding ?_ (ih hinner)
      simp only [shardingBelow, codecName, readConfiguration, index, get, hname, hconf, hshape, hcodecs,
        Option.getD_some, u64List_ofInt _ hchunk, if_true]

theorem layout_createArray {chunksValue : Value} {shardsValue : Option Value} {what what' : RustString}
    {chunks : List ℕ} {shards : List (List ℕ)} (hchunks : u64List chunksValue what 1 = .ok chunks)
    (hshards : shardShapes shardsValue chunks what' = .ok shards) :
    ∃ storageChunks codec, createArray chunks shards = .ok (storageChunks, codec) ∧
      ∀ metadata, Sharding.IsArray String.toList (fun n : ℕ => NumberToken.ofInt n) storageChunks codec
        metadata → ∃ n, ∀ m, n ≤ m → layout m metadata = some (.ok (chunks, shards)) := by
  have hc : InRange chunks := u64List_range hchunks
  have hs : ∀ s ∈ shards, InRange s := shardShapes_range hshards
  refine ⟨(Sharding.wrap chunks shards).1, (Sharding.wrap chunks shards).2, codecChain_eq hc hs, ?_⟩
  rintro _ ⟨hgrid, hconf, hshape, hcodecs, hcodec⟩
  refine ⟨(Sharding.wrap chunks shards).2.depth + 1, fun m hm => ?_⟩
  obtain ⟨hstorage, hrange⟩ := Sharding.all_wrap hc hs
  simp only [layout, index, get, hgrid, hconf, hshape, hcodecs, Option.getD_some,
    u64List_ofInt _ hstorage]
  exact Sharding.readChain_wrap (represents hrange hcodec) hm

end Rust.Crosscheck
