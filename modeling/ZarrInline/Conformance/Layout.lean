import ZarrInline.Python.Layout
import ZarrInline.Rust.Layout
import ZarrInline.TypeScript.Layout

/-!
# Shard layouts in metadata

An array is created from a chunk shape and the shapes of its shards, from the inside out.
Metadata hold the shapes from the outside in, each beside the codec one level in.  The three
harnesses read the shapes back as they were given, if the metadata hold the codecs and the
chunk grid that were handed over (`Sharding.IsArray`), and their loops end on any metadata.
-/

namespace Conformance

open Numeric (NumberToken)
open Sharding (IsArray)

theorem layout_survives :
    (∀ chunksValue shardsValue what what' chunks shards,
      Rust.Crosscheck.u64List chunksValue what 1 = .ok chunks →
      Rust.Crosscheck.shardShapes shardsValue chunks what' = .ok shards →
      ∃ storageChunks codec,
        Rust.Crosscheck.createArray chunks shards = .ok (storageChunks, codec) ∧
        ∀ metadata, IsArray String.toList (fun n : ℕ => NumberToken.ofInt n) storageChunks codec
          metadata → ∃ n, ∀ m, n ≤ m → Rust.Crosscheck.layout m metadata = some (.ok (chunks, shards))) ∧
    (∀ chunksValue shardsValue what what' chunks shards,
      Python.Crosscheck.intList chunksValue what 1 = .ok chunks →
      Python.Crosscheck.shards shardsValue chunks what' = .ok shards →
      ∀ metadata, IsArray Python.py Python.PyAtom.int (Python.Crosscheck.createArray chunks shards).1
          (Python.Crosscheck.createArray chunks shards).2 metadata →
        ∃ n, ∀ m, n ≤ m → Python.Crosscheck.layout m metadata
          = some (.ok (chunks.map fun i => .num (.int i),
              shards.map fun shard => shard.map fun i => .num (.int i)))) ∧
    (∀ parse chunksValue shardsValue what what' chunks shards,
      TypeScript.Crosscheck.intList chunksValue what 1 = .ok chunks →
      TypeScript.Crosscheck.shardShapes shardsValue chunks what' = .ok shards →
      ∀ document path metadata,
        document.get (path ++ TypeScript.js "/zarr.json") = some metadata →
        IsArray TypeScript.js TypeScript.JsAtom.number (Sharding.wrap chunks shards).1
          (Sharding.wrap chunks shards).2 metadata →
        ∃ n, ∀ m, n ≤ m →
          TypeScript.Crosscheck.arrayLayout parse m document path = some (.ok (chunks, shards))) ∧
    (∀ metadata, ∃ n r, ∀ m, n ≤ m → Rust.Crosscheck.layout m metadata = some r) ∧
    (∀ metadata, ∃ n r, ∀ m, n ≤ m → Python.Crosscheck.layout m metadata = some r) ∧
    ∀ parse document path, ∃ n r, ∀ m, n ≤ m →
      TypeScript.Crosscheck.arrayLayout parse m document path = some r := by
  refine ⟨?_, ?_, ?_, Rust.Crosscheck.exists_layout, Python.Crosscheck.exists_layout,
    TypeScript.Crosscheck.exists_arrayLayout⟩
  · intro chunksValue shardsValue what what' chunks shards hchunks hshards
    exact Rust.Crosscheck.layout_createArray hchunks hshards
  · intro chunksValue shardsValue what what' chunks shards _ _ metadata hmetadata
    exact Python.Crosscheck.layout_createArray chunks shards metadata hmetadata
  · intro parse chunksValue shardsValue what what' chunks shards _ _ document path metadata hget hmetadata
    exact TypeScript.Crosscheck.arrayLayout_wrap parse chunks shards document path metadata hget
      hmetadata

/-- Two levels of shards around chunks that are not square. -/
theorem layout_survives_sample :
    ∃ n, ∀ m, n ≤ m → Python.Crosscheck.layout m
      (Sharding.describeArray Python.py Python.PyAtom.int [8, 6]
        (.sharding [4, 6] (.sharding [2, 3] .json)))
      = some (.ok ([2, 3].map fun i => .num (.int i),
          [[4, 6], [8, 6]].map fun shard => shard.map fun i => .num (.int i))) :=
  layout_survives.2.1 (.arr ([2, 3].map fun i => .num (.int i)))
    (some (.arr ([[4, 6], [8, 6]].map fun shard => .arr (shard.map fun i => .num (.int i)))))
    [] [] [2, 3] [[4, 6], [8, 6]] (by decide) (by decide) _
    (Sharding.isArray_describeArray (by decide) (by decide) (by decide) _ _)

end Conformance
