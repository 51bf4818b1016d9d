import ZarrInline.Grid.Blocks
import ZarrInline.TypeScript.Chunks
import ZarrInline.TypeScript.Layout

/-!
# Nested shards in the crosscheck harness

`NestedShardingDecoder` of `crosscheck.ts`: a shard is encoded chunks, and at its end an index
of pairs of an offset and a length, with checksums behind it that are not looked at.  A pair
of `2 ^ 64 - 1` twice stands for a chunk that was never written.  An encoded chunk may be a
shard of its own.
-/

namespace TypeScript.Crosscheck

open Numeric (Double)

/-! ## Errors -/

/-- What the decoder throws. -/
inductive DecodeError where
  | codec (e : ChunkError)
  /-- A property of `null` or `undefined`. -/
  | typeError
  | oneCodec
  | unsupported (name : JsValue)
  | configuration
  | chunkShape
  | indexLocation
  | indexCodecs
  | shortShard
  | unsafeRange
  | outside

/-- The message of an error of the source, with a name as `JSON.stringify` shows it. -/
def DecodeError.message (S : Shown) : DecodeError → Option JsString
  | .codec e => e.message S
  | .typeError => none
  | .oneCodec => some (js "nested sharding conformance supports one inner codec per level")
  | .unsupported name => some (js "unsupported nested sharding codec " ++ S.json name)
  | .configuration => some (js "sharding_indexed configuration must be an object")
  | .chunkShape => some (js "nested sharding chunk_shape must evenly divide its shard")
  | .indexLocation => some (js "nested sharding conformance requires index_location=end")
  | .indexCodecs =>
      some (js "nested sharding conformance requires bytes + optional crc32c index codecs")
  | .shortShard => some (js "nested shard is shorter than its index")
  | .unsafeRange => some (js "nested shard index exceeds JavaScript's safe byte range")
  | .outside => some (js "nested shard index points outside the data section")

/-! ## The configuration -/

/-- `value === text`. -/
def isString (value : JsValue) (text : String) : Bool :=
  match value with
  | .str s => decide (s = js text)
  | _ => false

/-- `codec.name`. -/
def nameOf : JsValue → Except DecodeError JsValue
  | .null => .error .typeError
  | .num .undefined => .error .typeError
  | codec => .ok (property ((plainMembers codec).getD []) (js "name"))

/-- An extent for which `Number.isSafeInteger` holds and that is not below `1`. -/
def extent? : JsValue → Option ℕ
  | .num (.number (.finite false u _)) =>
      if u % Numeric.scale = 0 ∧ 0 < u / Numeric.scale ∧ u / Numeric.scale < 2 ^ 53 then
        some (u / Numeric.scale)
      else none
  | _ => none

/-- The check of `chunk_shape`. -/
def readShape (shardShape : List ℕ) (innerShape : JsValue) : Except DecodeError (List ℕ) :=
  match innerShape with
  | .arr extents =>
      match extents.mapM extent? with
      | some inner => if Grid.Divides inner shardShape then .ok inner else .error .chunkShape
      | none => .error .chunkShape
  | _ => .error .chunkShape

/-- `indexCodecs.slice(1).some((codec) => codec.name !== "crc32c")` is no error. -/
def checkChecksums : List JsValue → Except DecodeError Unit
  | [] => .ok ()
  | codec :: codecs => do
      if isString (← nameOf codec) "crc32c" then checkChecksums codecs else .error .indexCodecs

/-- The check of `index_codecs`: the number of checksums. -/
def readIndexCodecs : JsValue → Except DecodeError ℕ
  | .arr (first :: rest) => do
      if isString (← nameOf first) "bytes" then
        checkChecksums rest
        return rest.length
      else .error .indexCodecs
  | _ => .error .indexCodecs

/-- `ShardingConfiguration`, after the checks of `decode`. -/
structure ShardLayout where
  inner : List ℕ
  codecs : JsValue
  checksums : ℕ

/-- `fromConfig`, and the checks at the start of `decode`. -/
def readSharding (configuration : JsValue) (shardShape : List ℕ) : Except DecodeError ShardLayout :=
  match plainMembers configuration with
  | none => .error .configuration
  | some members => do
      let inner ← readShape shardShape (property members (js "chunk_shape"))
      if ¬ isString (property members (js "index_location")) "end" then .error .indexLocation
      else do
        let checksums ← readIndexCodecs (property members (js "index_codecs"))
        return ⟨inner, property members (js "codecs"), checksums⟩

/-! ## The index -/

/-- `DataView.getBigUint64`, of the lowest byte first. -/
def getBigUint64 (bytes : Bytes) (position : ℕ) : ℕ :=
  ((bytes.drop position).take 8).foldr (fun b acc => b.toNat + 256 * acc) 0

/-- `MAX_UINT64`. -/
def maxUint64 : ℕ := 2 ^ 64 - 1

/-- `indexSize`. -/
def indexSize (entryCount checksums : ℕ) : ℕ := entryCount * 16 + 4 * checksums

/-- The offset and the length of an entry. -/
def indexEntry (bytes : Bytes) (indexOffset entry : ℕ) : ℕ × ℕ :=
  (getBigUint64 bytes (indexOffset + entry * 16), getBigUint64 bytes (indexOffset + (entry * 16 + 8)))

/-! ## Coordinates -/

/-- `unravel`. -/
def unravel (linear : ℕ) (shape : List ℕ) : List ℕ :=
  (shape.foldr (fun extent acc => (acc.2 % extent :: acc.1, acc.2 / extent)) ([], linear)).1

/-- The loop over the axes: the sum of `(chunkCoordinate * innerShape + local) * outputStride`. -/
def outputOffset (innerShape outputStride chunkCoordinate inside : List ℕ) : ℕ :=
  Grid.dot (Grid.place innerShape chunkCoordinate inside) outputStride

/-- The loop over the elements of an inner chunk. -/
def writeElements (innerShape outputStride chunkCoordinate : List ℕ) (elements output : List JsValue) :
    List JsValue :=
  elements.zipIdx.foldl
    (fun output e =>
      output.set (outputOffset innerShape outputStride chunkCoordinate (unravel e.2 innerShape)) e.1)
    output

/-! ## The decoder -/

/-- `ZERO_FILL`. -/
def zeroFill : DataType → JsValue
  | .bool => .bool false
  | .int32 | .int64 | .uint8 | .float32 | .float64 => .num (.number (Double.ofInt 0))
  | _ => .num .undefined

/-- `fillValue ?? ZERO_FILL[dataType]`. -/
def fillOf (dataType : DataType) : JsValue → JsValue
  | .null => zeroFill dataType
  | .num .undefined => zeroFill dataType
  | fillValue => fillValue

section Decoder

variable (V : Conversions) (dataType : DataType)

/-- The loop over the entries of an index. -/
def decodeEntry (decodeInner : Bytes → Except DecodeError Chunk) (layout : ShardLayout)
    (shardShape : List ℕ) (bytes : Bytes) (indexOffset : ℕ) (output : List JsValue) (entry : ℕ) :
    Except DecodeError (List JsValue) :=
  let (offset, length) := indexEntry bytes indexOffset entry
  if offset = maxUint64 ∧ length = maxUint64 then .ok output
  else if maxSafeInteger < offset ∨ maxSafeInteger < length then .error .unsafeRange
  else if indexOffset < offset + length then .error .outside
  else
    match decodeInner ((bytes.take (offset + length)).drop offset) with
    | .error e => .error e
    | .ok inner =>
        match chunkElements inner with
        | .error e => .error (.codec e)
        | .ok elements =>
            .ok (writeElements layout.inner (cStrides shardShape)
              (unravel entry (Grid.gridOf layout.inner shardShape)) elements output)

/-- `decode` of `NestedShardingDecoder`, after its checks. -/
def decodeShard (decodeInner : Bytes → Except DecodeError Chunk) (layout : ShardLayout)
    (shardShape : List ℕ) (fill : JsValue) (bytes : Bytes) : Except DecodeError Chunk :=
  let entryCount := (Grid.gridOf layout.inner shardShape).prod
  let size := indexSize entryCount layout.checksums
  if bytes.length < size then .error .shortShard
  else if maxArrayLength < shardShape.prod then .error (.codec .arrayLength)
  else
    match (List.range entryCount).foldlM
        (decodeEntry decodeInner layout shardShape bytes (bytes.length - size))
        (List.replicate shardShape.prod fill) with
    | .error e => .error e
    | .ok output =>
        match makeTypedArray V dataType output with
        | .error e => .error (.codec e)
        | .ok data => .ok ⟨data, shardShape, (cStrides shardShape).map Int.ofNat⟩

end Decoder

/-! ## Nesting -/

/-- `const [codec] = codecs`, after the check of `codecs.length`. -/
def onlyCodec : JsValue → Except DecodeError JsValue
  | .null => .error .typeError
  | .num .undefined => .error .typeError
  | .arr [codec] => .ok codec
  | .str [unit] => .ok (.str [unit])
  | .obj members =>
      match property members (js "length") with
      | .num (.number x) => .error (if x = Double.ofInt 1 then .typeError else .oneCodec)
      | _ => .error .oneCodec
  | _ => .error .oneCodec

/-- The codecs that `decodeNestedCodec` knows. -/
inductive NestedCodec where
  | json
  | sharding (layout : ShardLayout)

/-- The part of `decodeNestedCodec` that does not look at the bytes. -/
def readCodec (codecs : JsValue) (shape : List ℕ) : Except DecodeError NestedCodec := do
  let codec ← onlyCodec codecs
  let name ← nameOf codec
  let configuration := property ((plainMembers codec).getD []) (js "configuration")
  if isString name "json" then
    match checkConfig configuration with
    | .ok () => .ok .json
    | .error e => .error (.codec e)
  else if isString name "sharding_indexed" then (readSharding configuration shape).map .sharding
  else .error (.unsupported name)

theorem property_lt {v : JsValue} {name : JsString}
    (h : property ((plainMembers v).getD []) name ≠ .num .undefined) :
    (property ((plainMembers v).getD []) name).depth < v.depth := by
  cases hmembers : plainMembers v with
  | none =>
      rw [hmembers] at h
      exact absurd (property_nil name) h
  | some ms =>
      rw [hmembers] at h
      rcases plainMembers_eq_some hmembers with rfl | rfl
      · exact depth_property_le
      · exact absurd (property_nil name) h

theorem readSharding_lt {configuration : JsValue} {shape : List ℕ} {layout : ShardLayout}
    (h : readSharding configuration shape = .ok layout) : layout.codecs.depth < configuration.depth := by
  rw [readSharding] at h
  split at h
  · cases h
  · next members hmembers =>
      obtain ⟨inner, hinner, h⟩ := Json.bind_eq_ok h
      split at h
      · cases h
      · obtain ⟨checksums, -, h⟩ := Json.bind_eq_ok h
        cases h
        rcases plainMembers_eq_some hmembers with rfl | rfl
        · exact depth_property_le
        · cases hinner

theorem onlyCodec_eq_ok {codecs codec : JsValue} (h : onlyCodec codecs = .ok codec) :
    codecs = .arr [codec] ∨ ∃ unit, codec = .str [unit] := by
  unfold onlyCodec at h
  split at h
  · cases h
  · cases h
  · cases h
    exact Or.inl rfl
  · cases h
    exact Or.inr ⟨_, rfl⟩
  · split at h <;> cases h
  · cases h

/-- The codecs of a shard lie deeper than the codecs that the shard is read with. -/
theorem readCodec_lt {codecs : JsValue} {shape : List ℕ} {layout : ShardLayout}
    (h : readCodec codecs shape = .ok (.sharding layout)) : layout.codecs.depth < codecs.depth := by
  rw [readCodec] at h
  obtain ⟨codec, hcodec, h⟩ := Json.bind_eq_ok h
  obtain ⟨name, -, h⟩ := Json.bind_eq_ok h
  dsimp only at h
  split at h
  · split at h <;> cases h
  · split at h
    · obtain ⟨layout', hlayout, hinj⟩ := Json.exists_of_map_eq_ok h
      cases hinj
      have hlt := readSharding_lt hlayout
      rcases onlyCodec_eq_ok hcodec with rfl | ⟨unit, rfl⟩
      · refine (hlt.trans (property_lt fun hundefined => ?_)).trans
          (Json.depth_lt_of_mem_arr List.mem_cons_self)
        rw [hundefined] at hlt
        exact absurd hlt (Nat.not_lt_zero _)
      · exact absurd hlt (Nat.not_lt_zero _)
    · cases h

/-- `decodeNestedCodec`. -/
def decodeNestedCodec (V : Conversions) (dataType : DataType) (codecs : JsValue) (shape : List ℕ)
    (fillValue : JsValue) (bytes : Bytes) : Except DecodeError Chunk :=
  match _hcodec : readCodec codecs shape with
  | .error e => .error e
  | .ok .json =>
      match JsonSerializer.decode V dataType shape bytes with
      | .error e => .error (.codec e)
      | .ok chunk => .ok chunk
  | .ok (.sharding layout) =>
      decodeShard V dataType
        (fun data => decodeNestedCodec V dataType layout.codecs layout.inner (fillOf dataType fillValue) data)
        layout shape (fillOf dataType fillValue) bytes
  termination_by codecs.depth
  decreasing_by exact readCodec_lt _hcodec

/-- `NestedShardingDecoder.fromConfig` and `decode`. -/
def NestedShardingDecoder.decode (V : Conversions) (dataType : DataType) (configuration : JsValue)
    (shape : List ℕ) (fillValue : JsValue) (bytes : Bytes) : Except DecodeError Chunk :=
  match readSharding configuration shape with
  | .error e => .error e
  | .ok layout =>
      decodeShard V dataType
        (decodeNestedCodec V dataType layout.codecs layout.inner (fillOf dataType fillValue))
        layout shape (fillOf dataType fillValue) bytes

end TypeScript.Crosscheck
