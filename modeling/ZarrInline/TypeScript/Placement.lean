import ZarrInline.Json.Leaves
import ZarrInline.Transition.Regions
import ZarrInline.TypeScript.Shards

/-!
# Where the elements of a shard go

What the bytes of a chunk stand for is a relation between bytes and arrays, which are
functions of coordinates: `Encodes` for the bytes that a list of codecs reads, and `IsShard`
for a shard, whose entries are empty or point at the bytes of a block.

The decoder writes every position of its output for exactly one element of one block, so it
returns the array (`decode_of_isShard`), and it returns nothing else
(`exists_isShard_of_decode`).
-/

namespace TypeScript.Crosscheck

open Numeric (Double)

/-! ## What bytes stand for -/

/-- The number of entries of the index of a shard. -/
def ShardLayout.entryCount (layout : ShardLayout) (shape : List ℕ) : ℕ := (Grid.gridOf layout.inner shape).prod

/-- The bytes of the index of a shard. -/
def ShardLayout.indexSize (layout : ShardLayout) (shape : List ℕ) : ℕ :=
  Crosscheck.indexSize (layout.entryCount shape) layout.checksums

/-- Where the index begins, and the data section ends. -/
def ShardLayout.indexOffset (layout : ShardLayout) (shape : List ℕ) (bytes : Bytes) : ℕ :=
  bytes.length - layout.indexSize shape

/-- The offset and the length of an entry of the index of a shard. -/
def ShardLayout.entry (layout : ShardLayout) (shape : List ℕ) (bytes : Bytes) (entry : ℕ) : ℕ × ℕ :=
  indexEntry bytes (layout.indexOffset shape bytes) entry

/-- The entry of a chunk that was never written. -/
def emptyEntry : ℕ × ℕ := (maxUint64, maxUint64)

/-- The entry points at bytes of the data section. -/
structure PointsAt (entry : ℕ × ℕ) (dataSize : ℕ) : Prop where
  safe : entry.1 ≤ maxSafeInteger ∧ entry.2 ≤ maxSafeInteger
  inside : entry.1 + entry.2 ≤ dataSize

/-- The bytes that an entry points at. -/
def pointedAt (entry : ℕ × ℕ) (bytes : Bytes) : Bytes := (bytes.take (entry.1 + entry.2)).drop entry.1

/-- The array of blocks, with a value where there is none. -/
def ofBlocks (inner shape : List ℕ) (blocks : ℕ → Option (List ℕ → JsValue)) (v : JsValue) :
    List ℕ → JsValue := fun x =>
  match blocks (Grid.ravel (Grid.gridOf inner shape) (Grid.blockOf inner x)) with
  | none => v
  | some block => block (Grid.localOf inner x)

mutual

/-- The bytes stand for an array of the shape, as the codecs read them. -/
inductive Encodes (V : Conversions) (dataType : DataType) :
    JsValue → List ℕ → JsValue → Bytes → (List ℕ → JsValue) → Prop where
  | json {codecs shape fill bytes chunk} (hcodec : readCodec codecs shape = .ok .json)
      (h : JsonSerializer.decode V dataType shape bytes = .ok chunk) :
      Encodes V dataType codecs shape fill bytes chunk.at
  | sharding {codecs shape fill bytes layout array}
      (hcodec : readCodec codecs shape = .ok (.sharding layout))
      (h : IsShard V dataType layout shape (fillOf dataType fill) bytes array) :
      Encodes V dataType codecs shape fill bytes array

/-- The bytes are a shard that stands for an array of the shape.  The block of an empty entry
holds the fill value as the data type stores it. -/
inductive IsShard (V : Conversions) (dataType : DataType) :
    ShardLayout → List ℕ → JsValue → Bytes → (List ℕ → JsValue) → Prop where
  | intro {layout shape fill bytes} (blocks : ℕ → Option (List ℕ → JsValue)) (v : JsValue)
      (hsize : layout.indexSize shape ≤ bytes.length) (hlength : shape.prod ≤ maxArrayLength)
      (hempty : ∀ b < layout.entryCount shape, blocks b = none →
        layout.entry shape bytes b = emptyEntry ∧ storeElement V dataType fill = .ok v)
      (hpoints : ∀ b < layout.entryCount shape, ∀ block, blocks b = some block →
        PointsAt (layout.entry shape bytes b) (layout.indexOffset shape bytes))
      (hblock : ∀ b < layout.entryCount shape, ∀ block, blocks b = some block →
        Encodes V dataType layout.codecs layout.inner fill
          (pointedAt (layout.entry shape bytes b) bytes) block) :
      IsShard V dataType layout shape fill bytes (ofBlocks layout.inner shape blocks v)

end

variable {V : Conversions} {dataType : DataType} {layout : ShardLayout} {shape : List ℕ}
  {codecs fill v w : JsValue} {bytes : Bytes} {chunk : Chunk} {array : List ℕ → JsValue}

/-! ## Coordinates -/

theorem unravel_eq_mod (linear : ℕ) (shape : List ℕ) :
    shape.foldr (fun extent acc => (acc.2 % extent :: acc.1, acc.2 / extent)) (([], linear) : List ℕ × ℕ)
      = (Grid.unravel shape (linear % shape.prod), linear / shape.prod) := by
  induction shape with
  | nil => rw [List.foldr_nil, List.prod_nil, Nat.div_one]; rfl
  | cons d shape ih =>
      rw [List.foldr_cons, ih, List.prod_cons, Grid.unravel, Nat.mod_mul_left_div_self,
        Nat.mod_mul_left_mod, Nat.div_div_eq_div_mul, Nat.mul_comm]

theorem unravel_eq {linear : ℕ} (h : linear < shape.prod) : unravel linear shape = Grid.unravel shape linear := by
  rw [unravel, unravel_eq_mod, Nat.mod_eq_of_lt h]

theorem outputOffset_eq {inner : List ℕ} {b e : ℕ} (hb : b < (Grid.gridOf inner shape).prod)
    (he : e < inner.prod) :
    outputOffset inner (cStrides shape) (unravel b (Grid.gridOf inner shape)) (unravel e inner)
      = Grid.offset inner shape b e := by
  rw [outputOffset, cStrides_eq, unravel_eq hb, unravel_eq he]
  rfl

/-! ## The loop over the entries -/

section Loop

variable {decodeInner : Bytes → Except DecodeError Chunk}

/-- What an entry is read as: nothing, or the elements of a block. -/
def readEntry (decodeInner : Bytes → Except DecodeError Chunk) (bytes : Bytes) (indexOffset entry : ℕ) :
    Except DecodeError (Option (List JsValue)) :=
  let (offset, length) := indexEntry bytes indexOffset entry
  if offset = maxUint64 ∧ length = maxUint64 then .ok none
  else if maxSafeInteger < offset ∨ maxSafeInteger < length then .error .unsafeRange
  else if indexOffset < offset + length then .error .outside
  else
    match decodeInner ((bytes.take (offset + length)).drop offset) with
    | .error e => .error e
    | .ok inner =>
        match chunkElements inner with
        | .error e => .error (.codec e)
        | .ok elements => .ok (some elements)

/-- The positions and values that the loop over the elements of a block writes. -/
def elementWrites (layout : ShardLayout) (shape : List ℕ) (b : ℕ) (elements : List JsValue) :
    List (ℕ × JsValue) :=
  elements.zipIdx.map fun e =>
    (outputOffset layout.inner (cStrides shape) (unravel b (Grid.gridOf layout.inner shape))
      (unravel e.2 layout.inner), e.1)

theorem writeElements_eq (b : ℕ) (elements output : List JsValue) :
    writeElements layout.inner (cStrides shape) (unravel b (Grid.gridOf layout.inner shape)) elements output
      = Grid.scatter (elementWrites layout shape b elements) output := by
  rw [writeElements, Grid.scatter, elementWrites, List.foldl_map]

theorem decodeEntry_eq (indexOffset b : ℕ) (output : List JsValue) :
    decodeEntry decodeInner layout shape bytes indexOffset output b
      = (readEntry decodeInner bytes indexOffset b).map fun elements =>
          Grid.scatter (elementWrites layout shape b (elements.getD [])) output := by
  rw [decodeEntry, readEntry]
  dsimp only
  split
  · rfl
  · split
    · rfl
    · split
      · rfl
      · cases decodeInner _ with
        | error e => rfl
        | ok inner =>
            dsimp only
            cases chunkElements inner with
            | error e => rfl
            | ok elements => exact congrArg Except.ok (writeElements_eq b elements output)

theorem elementWrites_eq {b : ℕ} (hb : b < (Grid.gridOf layout.inner shape).prod) {elements : List JsValue}
    (h : elements.length ≤ layout.inner.prod) :
    elementWrites layout shape b elements = Grid.blockWrites layout.inner shape b elements := by
  refine List.map_congr_left fun e he => ?_
  obtain ⟨e, i⟩ := e
  have hi : i < elements.length :=
    (List.getElem?_eq_some_iff.1 (List.mem_zipIdx_iff_getElem?.1 he)).1
  rw [outputOffset_eq hb (hi.trans_le h)]

theorem PointsAt.ne_emptyEntry {entry : ℕ × ℕ} {dataSize : ℕ} (h : PointsAt entry dataSize) :
    entry ≠ emptyEntry := by
  rintro rfl
  exact absurd h.safe.1 (by decide)

theorem pointsAt_iff {entry : ℕ × ℕ} {dataSize : ℕ} : PointsAt entry dataSize ↔
    ¬ (maxSafeInteger < entry.1 ∨ maxSafeInteger < entry.2) ∧ ¬ dataSize < entry.1 + entry.2 := by
  rw [not_or, not_lt, not_lt, not_lt]
  exact ⟨fun h => ⟨h.safe, h.inside⟩, fun h => ⟨h.1, h.2⟩⟩

/-- The entries that are read. -/
theorem readEntry_eq_ok {indexOffset b : ℕ} {r : Option (List JsValue)} :
    readEntry decodeInner bytes indexOffset b = .ok r ↔
      indexEntry bytes indexOffset b = emptyEntry ∧ r = none ∨
      PointsAt (indexEntry bytes indexOffset b) indexOffset ∧
        ∃ inner elements, decodeInner (pointedAt (indexEntry bytes indexOffset b) bytes) = .ok inner ∧
          chunkElements inner = .ok elements ∧ r = some elements := by
  rw [readEntry]
  obtain ⟨offset, length⟩ := indexEntry bytes indexOffset b
  dsimp only
  split
  · next h =>
      have hempty : (offset, length) = emptyEntry := Prod.ext h.1 h.2
      constructor
      · rintro ⟨⟩
        exact Or.inl ⟨hempty, rfl⟩
      · rintro (⟨-, rfl⟩ | ⟨hpoints, -⟩)
        · rfl
        · exact absurd hempty hpoints.ne_emptyEntry
  · next h =>
      have hempty : (offset, length) ≠ emptyEntry := fun heq =>
        h ⟨congrArg Prod.fst heq, congrArg Prod.snd heq⟩
      rw [pointsAt_iff]
      dsimp only
      rw [pointedAt]
      split
      · next hunsafe =>
          refine iff_of_false (fun hok => by cases hok) ?_
          rintro (⟨heq, -⟩ | ⟨⟨hsafe, -⟩, -⟩)
          · exact hempty heq
          · exact hsafe hunsafe
      · next hsafe =>
          split
          · next houtside =>
              refine iff_of_false (fun hok => by cases hok) ?_
              rintro (⟨heq, -⟩ | ⟨⟨-, hinside⟩, -⟩)
              · exact hempty heq
              · exact hinside houtside
          · next hinside =>
              cases hinner : decodeInner ((bytes.take (offset + length)).drop offset) with
              | error e =>
                  refine iff_of_false (fun hok => by cases hok) ?_
                  rintro (⟨heq, -⟩ | ⟨-, inner, elements, hok, -⟩)
                  · exact hempty heq
                  · cases hok
              | ok inner =>
                  dsimp only
                  cases helements : chunkElements inner with
                  | error e =>
                      refine iff_of_false (fun hok => by cases hok) ?_
                      rintro (⟨heq, -⟩ | ⟨-, inner', elements, hok, hel, -⟩)
                      · exact hempty heq
                      · cases hok
                        rw [helements] at hel
                        cases hel
                  | ok elements =>
                      constructor
                      · rintro ⟨⟩
                        exact Or.inr ⟨⟨hsafe, hinside⟩, inner, elements, rfl, helements, rfl⟩
                      · rintro (⟨heq, -⟩ | ⟨-, inner', elements', hok, hel, rfl⟩)
                        · exact absurd heq hempty
                        · cases hok
                          rw [helements] at hel
                          cases hel
                          rfl

theorem length_of_chunkElements {elements : List JsValue} (h : chunkElements chunk = .ok elements) :
    elements.length = chunk.shape.prod := by
  by_cases hsize : chunk.shape.prod ≤ maxArrayLength
  · rw [chunkElements_eq hsize] at h
    cases h
    exact Grid.length_tabulate
  · rw [chunkElements, if_pos (not_le.1 hsize)] at h
    cases h

/-- What the decoder of the blocks is known to return. -/
def DecodesBlocks (V : Conversions) (dataType : DataType) (decodeInner : Bytes → Except DecodeError Chunk)
    (inner : List ℕ) : Prop :=
  ∀ data chunk, decodeInner data = .ok chunk → chunk.IsDecoded V dataType inner

variable (hinner : DecodesBlocks V dataType decodeInner layout.inner) {blocks : ℕ → Option (List JsValue)}
  {indexOffset : ℕ}
include hinner

theorem length_of_readEntry {b : ℕ} {elements : List JsValue}
    (h : readEntry decodeInner bytes indexOffset b = .ok (some elements)) :
    elements.length = layout.inner.prod := by
  rcases readEntry_eq_ok.1 h with ⟨-, heq⟩ | ⟨-, inner, elements', hok, helements, heq⟩
  · cases heq
  · cases heq
    rw [length_of_chunkElements helements, (hinner _ _ hok).shape_eq]

theorem foldlM_decodeEntry (hread : ∀ b < layout.entryCount shape,
      readEntry decodeInner bytes indexOffset b = .ok (blocks b)) (output : List JsValue) :
    (List.range (layout.entryCount shape)).foldlM (decodeEntry decodeInner layout shape bytes indexOffset)
        output = .ok (Grid.assemble layout.inner shape blocks output) := by
  have hsteps : decodeEntry decodeInner layout shape bytes indexOffset = fun output b =>
      (readEntry decodeInner bytes indexOffset b).map fun elements =>
        Grid.scatter (elementWrites layout shape b (elements.getD [])) output :=
    funext fun output => funext fun b => decodeEntry_eq indexOffset b output
  have hwrites : ∀ b ∈ List.range (layout.entryCount shape),
      elementWrites layout shape b ((blocks b).getD [])
        = Grid.blockWrites layout.inner shape b ((blocks b).getD []) := by
    intro b hb
    have hb := List.mem_range.1 hb
    refine elementWrites_eq hb ?_
    cases helements : blocks b with
    | none => exact Nat.zero_le _
    | some elements => exact (length_of_readEntry hinner (helements ▸ hread b hb)).le
  have hrun : (List.range (layout.entryCount shape)).foldlM (fun output b =>
        (readEntry decodeInner bytes indexOffset b).map fun elements =>
          Grid.scatter (elementWrites layout shape b (elements.getD [])) output) output
      = .ok ((List.range (layout.entryCount shape)).foldl (fun output b =>
          Grid.scatter (elementWrites layout shape b ((blocks b).getD [])) output) output) :=
    Transition.foldlM_map_eq_ok fun b hb => hread b (List.mem_range.1 hb)
  rw [hsteps, hrun, Grid.foldl_scatter, List.flatMap_congr hwrites]
  rfl

/-- The loop ends if every entry is read. -/
theorem exists_of_foldlM_decodeEntry {output output' : List JsValue}
    (h : (List.range (layout.entryCount shape)).foldlM
      (decodeEntry decodeInner layout shape bytes indexOffset) output = .ok output') :
    ∃ blocks, (∀ b < layout.entryCount shape,
        readEntry decodeInner bytes indexOffset b = .ok (blocks b)) ∧
      output' = Grid.assemble layout.inner shape blocks output := by
  have hread : ∀ b ∈ List.range (layout.entryCount shape),
      ∃ r, readEntry decodeInner bytes indexOffset b = .ok r := by
    refine (Transition.exists_foldlM_iff fun output b _ => ?_).1 ⟨output', h⟩
    rw [decodeEntry_eq]
    cases readEntry decodeInner bytes indexOffset b with
    | error e => exact iff_of_false (fun ⟨_, hok⟩ => by cases hok) fun ⟨_, hok⟩ => by cases hok
    | ok r => exact iff_of_true ⟨_, rfl⟩ ⟨r, rfl⟩
  have hblocks : ∀ b < layout.entryCount shape, readEntry decodeInner bytes indexOffset b
      = .ok (readEntry decodeInner bytes indexOffset b).toOption.join := by
    intro b hb
    obtain ⟨r, hr⟩ := hread b (List.mem_range.2 hb)
    rw [hr]
    rfl
  refine ⟨_, hblocks, ?_⟩
  rw [foldlM_decodeEntry hinner hblocks] at h
  exact (Except.ok.inj h).symm

/-- When a shard is decoded. -/
theorem decodeShard_eq_ok_iff :
    decodeShard V dataType decodeInner layout shape fill bytes = .ok chunk ↔
      layout.indexSize shape ≤ bytes.length ∧ shape.prod ≤ maxArrayLength ∧
        ∃ blocks data, (∀ b < layout.entryCount shape,
            readEntry decodeInner bytes (layout.indexOffset shape bytes) b = .ok (blocks b)) ∧
          makeTypedArray V dataType (Grid.assemble layout.inner shape blocks
            (List.replicate shape.prod fill)) = .ok data ∧
          chunk = ⟨data, shape, (cStrides shape).map Int.ofNat⟩ := by
  have hcount : (Grid.gridOf layout.inner shape).prod = layout.entryCount shape := rfl
  have hsize : indexSize (layout.entryCount shape) layout.checksums = layout.indexSize shape := rfl
  have hoffset : bytes.length - layout.indexSize shape = layout.indexOffset shape bytes := rfl
  rw [decodeShard, hcount, hsize, hoffset]
  split
  · next hshort => exact iff_of_false (fun hok => by cases hok) fun h => absurd h.1 hshort.not_ge
  · next hlong =>
      rw [and_iff_right (not_lt.1 hlong)]
      split
      · next hlarge => exact iff_of_false (fun hok => by cases hok) fun h => absurd h.1 hlarge.not_ge
      · next hsmall =>
          rw [and_iff_right (not_lt.1 hsmall)]
          constructor
          · intro h
            split at h
            · cases h
            · next output houtput =>
                obtain ⟨blocks, hread, rfl⟩ := exists_of_foldlM_decodeEntry hinner houtput
                split at h
                · cases h
                · next data hdata => exact ⟨blocks, data, hread, hdata, (Except.ok.inj h).symm⟩
          · rintro ⟨blocks, data, hread, hdata, rfl⟩
            rw [foldlM_decodeEntry hinner hread]
            dsimp only
            rw [hdata]

theorem isDecoded_of_decodeShard
    (h : decodeShard V dataType decodeInner layout shape fill bytes = .ok chunk) :
    chunk.IsDecoded V dataType shape := by
  obtain ⟨-, -, blocks, data, -, hdata, rfl⟩ := (decodeShard_eq_ok_iff hinner).1 h
  have hlength : data.length = shape.prod := by
    rw [← (makeTypedArray_eq_ok.1 hdata).2.length_eq, Grid.length_assemble, List.length_replicate]
  exact ⟨rfl, ⟨rfl, hlength⟩, isStored_of_makeTypedArray hdata⟩

end Loop

/-! ## Nesting -/

/-- When a chunk is decoded. -/
theorem decodeNestedCodec_eq_ok_iff : decodeNestedCodec V dataType codecs shape fill bytes = .ok chunk ↔
    readCodec codecs shape = .ok .json ∧ JsonSerializer.decode V dataType shape bytes = .ok chunk ∨
      ∃ layout, readCodec codecs shape = .ok (.sharding layout) ∧
        decodeShard V dataType
          (decodeNestedCodec V dataType layout.codecs layout.inner (fillOf dataType fill))
          layout shape (fillOf dataType fill) bytes = .ok chunk := by
  rw [decodeNestedCodec]
  split
  · next hcodec =>
      rw [hcodec]
      refine iff_of_false (fun hok => by cases hok) ?_
      rintro (⟨hok, -⟩ | ⟨layout, hok, -⟩) <;> cases hok
  · next hcodec =>
      rw [hcodec, and_iff_right rfl, or_iff_left (by rintro ⟨layout, hok, -⟩; cases hok)]
      cases JsonSerializer.decode V dataType shape bytes with
      | error e => exact iff_of_false (fun hok => by cases hok) fun hok => by cases hok
      | ok chunk' => exact ⟨fun hok => by cases hok; rfl, fun hok => by cases hok; rfl⟩
  · next layout hcodec =>
      rw [hcodec, or_iff_right (by rintro ⟨hok, -⟩; cases hok)]
      constructor
      · exact fun hok => ⟨layout, rfl, hok⟩
      · rintro ⟨layout', hlayout, hok⟩
        cases hlayout
        exact hok

/-- Whatever is decoded is an array of the shape. -/
theorem isDecoded_of_decodeNestedCodec :
    DecodesBlocks V dataType (decodeNestedCodec V dataType codecs shape fill) shape := by
  -- The codecs of a level lie deeper than those of the level above.
  induction hdepth : codecs.depth using Nat.strong_induction_on generalizing codecs shape fill with
  | _ n ih =>
      intro data chunk h
      rcases decodeNestedCodec_eq_ok_iff.1 h with ⟨-, hjson⟩ | ⟨layout, hcodec, hshard⟩
      · exact JsonSerializer.isDecoded hjson
      · exact isDecoded_of_decodeShard (ih _ (hdepth ▸ readCodec_lt hcodec) rfl) hshard

/-! ## The array of a shard -/

theorem divides_of_readShape {innerShape : JsValue} {inner : List ℕ}
    (h : readShape shape innerShape = .ok inner) : Grid.Divides inner shape := by
  unfold readShape at h
  split at h
  · split at h
    · split at h
      · next hdiv =>
          cases h
          exact hdiv
      · cases h
    · cases h
  · cases h

theorem divides_of_readSharding {configuration : JsValue}
    (h : readSharding configuration shape = .ok layout) : Grid.Divides layout.inner shape := by
  rw [readSharding] at h
  split at h
  · cases h
  · obtain ⟨inner, hinner, h⟩ := Json.bind_eq_ok h
    split at h
    · cases h
    · obtain ⟨checksums, -, h⟩ := Json.bind_eq_ok h
      cases h
      exact divides_of_readShape hinner

theorem divides_of_readCodec (h : readCodec codecs shape = .ok (.sharding layout)) :
    Grid.Divides layout.inner shape := by
  rw [readCodec] at h
  obtain ⟨codec, -, h⟩ := Json.bind_eq_ok h
  obtain ⟨name, -, h⟩ := Json.bind_eq_ok h
  dsimp only at h
  split at h
  · split at h <;> cases h
  · split at h
    · obtain ⟨layout', hlayout, hinj⟩ := Json.exists_of_map_eq_ok h
      cases hinj
      exact divides_of_readSharding hlayout
    · cases h

section Shard

variable {decodeInner : Bytes → Except DecodeError Chunk}
  (hinner : DecodesBlocks V dataType decodeInner layout.inner)
  (hdiv : Grid.Divides layout.inner shape)

theorem inner_prod_le (hdiv : Grid.Divides layout.inner shape) (hlength : shape.prod ≤ maxArrayLength) {b : ℕ}
    (hb : b < layout.entryCount shape) : layout.inner.prod ≤ maxArrayLength :=
  calc layout.inner.prod ≤ layout.entryCount shape * layout.inner.prod :=
        Nat.le_mul_of_pos_left _ (Nat.zero_lt_of_lt hb)
    _ = shape.prod := Grid.prod_gridOf hdiv
    _ ≤ maxArrayLength := hlength

include hinner hdiv

/-- A shard whose blocks are decoded is decoded to the array of its blocks. -/
theorem decodeShard_of_blocks (hctor : hasTypedArray dataType = true)
    {blocks : ℕ → Option (List ℕ → JsValue)}
    (hsize : layout.indexSize shape ≤ bytes.length) (hlength : shape.prod ≤ maxArrayLength)
    (hempty : ∀ b < layout.entryCount shape, blocks b = none →
      layout.entry shape bytes b = emptyEntry ∧ storeElement V dataType fill = .ok v)
    (hpoints : ∀ b < layout.entryCount shape, ∀ block, blocks b = some block →
      PointsAt (layout.entry shape bytes b) (layout.indexOffset shape bytes))
    (hblock : ∀ b < layout.entryCount shape, ∀ block, blocks b = some block →
      ∃ inner, decodeInner (pointedAt (layout.entry shape bytes b) bytes) = .ok inner ∧
        ∀ x, Grid.Within layout.inner x → inner.at x = block x) :
    ∃ chunk, decodeShard V dataType decodeInner layout shape fill bytes = .ok chunk ∧
      ∀ x, Grid.Within shape x → chunk.at x = ofBlocks layout.inner shape blocks v x := by
  -- Every entry is read.
  have hread : ∀ b < layout.entryCount shape,
      readEntry decodeInner bytes (layout.indexOffset shape bytes) b
        = .ok ((blocks b).map (Grid.tabulate layout.inner)) := by
    intro b hb
    refine readEntry_eq_ok.2 ?_
    cases hsome : blocks b with
    | none => exact Or.inl ⟨(hempty b hb hsome).1, rfl⟩
    | some block =>
        obtain ⟨inner, hok, hat⟩ := hblock b hb block hsome
        have hshape := (hinner _ _ hok).shape_eq
        have helements : chunkElements inner = .ok (Grid.tabulate inner.shape inner.at) := by
          refine chunkElements_eq ?_
          rw [hshape]
          exact inner_prod_le hdiv hlength hb
        rw [hshape, Grid.tabulate_congr hat] at helements
        exact Or.inr ⟨hpoints b hb block hsome, inner, _, hok, helements, rfl⟩
  -- Every position holds a value that is stored as that of the array.
  have hstore : List.Forall₂ (fun v w => storeElement V dataType v = .ok w)
      (Grid.assemble layout.inner shape (fun b => (blocks b).map (Grid.tabulate layout.inner))
        (List.replicate shape.prod fill))
      (Grid.tabulate shape (ofBlocks layout.inner shape blocks v)) := by
    refine Grid.forall₂_tabulate (Grid.length_assemble.trans (List.length_replicate ..)) fun x hx u hu => ?_
    have hb := Grid.ravel_lt (Grid.within_blockOf hdiv hx)
    have hlocal := Grid.within_localOf hdiv hx
    rw [Grid.getElem?_assemble hdiv (fun b _ es hes => by
        obtain ⟨block, -, rfl⟩ := Option.map_eq_some_iff.1 hes
        exact Grid.length_tabulate) (List.length_replicate ..) hx] at hu
    rw [ofBlocks]
    cases hsome : blocks (Grid.ravel (Grid.gridOf layout.inner shape) (Grid.blockOf layout.inner x)) with
    | none =>
        rw [hsome] at hu
        obtain rfl := List.eq_of_mem_replicate (List.mem_of_getElem? hu)
        exact (hempty _ hb hsome).2
    | some block =>
        rw [hsome] at hu
        obtain rfl := Option.some.inj ((Grid.getElem?_tabulate_ravel hlocal).symm.trans hu)
        obtain ⟨inner, hok, hat⟩ := hblock _ hb block hsome
        have hdecoded := hinner _ _ hok
        show storeElement V dataType (block (Grid.localOf layout.inner x))
          = .ok (block (Grid.localOf layout.inner x))
        rw [← hat _ hlocal, hdecoded.plain.at_eq]
        refine hdecoded.stored _ (List.mem_of_getElem? (elementAt_of_lt ?_))
        rw [hdecoded.plain.length, hdecoded.shape_eq]
        exact Grid.ravel_lt hlocal
  refine ⟨_, (decodeShard_eq_ok_iff hinner).2 ⟨hsize, hlength, _, _, hread,
    makeTypedArray_eq_ok.2 ⟨hctor, hstore⟩, rfl⟩, fun x hx => Chunk.at_tabulate hx⟩

/-- In a shard that is decoded, the fill value of an empty entry was stored. -/
theorem exists_of_store_fill {blocks : ℕ → Option (List JsValue)} {data : List JsValue}
    (hread : ∀ b < layout.entryCount shape,
      readEntry decodeInner bytes (layout.indexOffset shape bytes) b = .ok (blocks b))
    (hdata : makeTypedArray V dataType (Grid.assemble layout.inner shape blocks
      (List.replicate shape.prod fill)) = .ok data) {b : ℕ} (hb : b < layout.entryCount shape)
    (hnone : blocks b = none) : ∃ v, storeElement V dataType fill = .ok v := by
  have hpos := Grid.prod_inner_pos hdiv
  have hlt := Grid.offset_lt hdiv hb hpos
  have hx := Grid.within_unravel hlt
  have hat := (Grid.offset_eq hdiv hx).trans (Grid.ravel_unravel hlt)
  obtain ⟨hentry, -⟩ := Grid.offset_inj hdiv (Grid.ravel_lt (Grid.within_blockOf hdiv hx))
    (Grid.ravel_lt (Grid.within_localOf hdiv hx)) hb hpos hat
  have hlengths : ∀ b < layout.entryCount shape, ∀ elements ∈ blocks b,
      elements.length = layout.inner.prod := fun b hb elements hsome =>
    length_of_readEntry hinner (Option.mem_def.1 hsome ▸ hread b hb)
  have hfill := Grid.getElem?_assemble hdiv hlengths (List.length_replicate (a := fill)) hx
  rw [hentry, hnone, Grid.ravel_unravel hlt] at hfill
  have hstore := (makeTypedArray_eq_ok.1 hdata).2
  have hi : Grid.offset layout.inner shape b 0
      < (Grid.assemble layout.inner shape blocks (List.replicate shape.prod fill)).length := by
    rwa [Grid.length_assemble, List.length_replicate]
  have hget := (List.forall₂_iff_get.1 hstore).2 _ hi (hstore.length_eq ▸ hi)
  have hvalue : (Grid.assemble layout.inner shape blocks (List.replicate shape.prod fill)).get ⟨_, hi⟩
      = fill := by
    have hmem : (List.replicate shape.prod fill)[Grid.offset layout.inner shape b 0]? = some fill :=
      List.getElem?_replicate_of_lt hlt
    exact Option.some.inj ((List.getElem?_eq_getElem hi).symm.trans (hfill.trans hmem))
  rw [hvalue] at hget
  exact ⟨_, hget⟩

/-- What is decoded is a shard, if what is decoded of its blocks stands for an array. -/
theorem exists_isShard (hencodes : ∀ data inner, decodeInner data = .ok inner →
      ∃ block, Encodes V dataType layout.codecs layout.inner fill data block)
    (h : decodeShard V dataType decodeInner layout shape fill bytes = .ok chunk) :
    ∃ array, IsShard V dataType layout shape fill bytes array := by
  obtain ⟨hsize, hlength, elements, data, hread, hdata, -⟩ := (decodeShard_eq_ok_iff hinner).1 h
  have hexists : ∀ b, ∃ r : Option (List ℕ → JsValue), b < layout.entryCount shape →
      (r = none → layout.entry shape bytes b = emptyEntry ∧
        storeElement V dataType fill = .ok ((storeElement V dataType fill).toOption.getD .null)) ∧
      (∀ block, r = some block → PointsAt (layout.entry shape bytes b) (layout.indexOffset shape bytes) ∧
        Encodes V dataType layout.codecs layout.inner fill
          (pointedAt (layout.entry shape bytes b) bytes) block) := by
    intro b
    by_cases hb : b < layout.entryCount shape
    · rcases readEntry_eq_ok.1 (hread b hb) with ⟨hempty, hnone⟩ | ⟨hpoints, inner, es, hok, -, -⟩
      · obtain ⟨v, hv⟩ := exists_of_store_fill hinner hdiv hread hdata hb hnone
        refine ⟨none, fun _ => ⟨fun _ => ⟨hempty, ?_⟩, fun block hblock => by cases hblock⟩⟩
        rw [hv]
        rfl
      · obtain ⟨block, hblock⟩ := hencodes _ _ hok
        refine ⟨some block, fun _ => ⟨fun hnone => (by cases hnone), fun block' heq => ?_⟩⟩
        cases heq
        exact ⟨hpoints, hblock⟩
    · exact ⟨none, fun hlt => absurd hlt hb⟩
  choose blocks hblocks using hexists
  exact ⟨_, .intro blocks _ hsize hlength (fun b hb => (hblocks b hb).1)
    (fun b hb block hsome => ((hblocks b hb).2 block hsome).1)
    fun b hb block hsome => ((hblocks b hb).2 block hsome).2⟩

end Shard

/-! ## Every level -/

/-- Bytes that stand for an array are decoded to it. -/
theorem decodeNestedCodec_of_encodes (hctor : hasTypedArray dataType = true)
    (h : Encodes V dataType codecs shape fill bytes array) :
    ∃ chunk, decodeNestedCodec V dataType codecs shape fill bytes = .ok chunk ∧
      ∀ x, Grid.Within shape x → chunk.at x = array x := by
  induction hdepth : codecs.depth using Nat.strong_induction_on generalizing codecs shape fill bytes array with
  | _ n ih =>
      cases h with
      | json hcodec hjson =>
          exact ⟨_, decodeNestedCodec_eq_ok_iff.2 (Or.inl ⟨hcodec, hjson⟩), fun x _ => rfl⟩
      | @sharding _ _ _ _ layout _ hcodec hshard =>
          cases hshard with
          | intro blocks v hsize hlength hempty hpoints hblock =>
              obtain ⟨chunk, hchunk, hat⟩ := decodeShard_of_blocks isDecoded_of_decodeNestedCodec
                (divides_of_readCodec hcodec) hctor hsize hlength hempty hpoints fun b hb block hsome =>
                  ih _ (hdepth ▸ readCodec_lt hcodec) (hblock b hb block hsome) rfl
              exact ⟨chunk, decodeNestedCodec_eq_ok_iff.2 (Or.inr ⟨layout, hcodec, hchunk⟩), hat⟩

/-- What is decoded stands for an array. -/
theorem exists_encodes_of_decodeNestedCodec
    (h : decodeNestedCodec V dataType codecs shape fill bytes = .ok chunk) :
    ∃ array, Encodes V dataType codecs shape fill bytes array := by
  induction hdepth : codecs.depth using Nat.strong_induction_on generalizing codecs shape fill bytes chunk with
  | _ n ih =>
      rcases decodeNestedCodec_eq_ok_iff.1 h with ⟨hcodec, hjson⟩ | ⟨layout, hcodec, hshard⟩
      · exact ⟨_, .json hcodec hjson⟩
      · obtain ⟨array, harray⟩ := exists_isShard isDecoded_of_decodeNestedCodec (divides_of_readCodec hcodec)
          (fun data inner hok => ih _ (hdepth ▸ readCodec_lt hcodec) hok rfl) hshard
        exact ⟨array, .sharding hcodec harray⟩

/-! ## The decoder -/

/-- The decoder returns the array that a shard stands for, and rejects everything else.  It
writes each position of its output for exactly one element of one block. -/
theorem NestedShardingDecoder.decode_places (V : Conversions) (dataType : DataType)
    (configuration : JsValue) (shape : List ℕ) (fillValue : JsValue) (bytes : Bytes) (layout : ShardLayout)
    (hlayout : readSharding configuration shape = .ok layout) (hctor : hasTypedArray dataType = true) :
    (∀ array, IsShard V dataType layout shape (fillOf dataType fillValue) bytes array →
      ∃ chunk, NestedShardingDecoder.decode V dataType configuration shape fillValue bytes = .ok chunk ∧
        chunk.shape = shape ∧ chunk.stride = (cStrides shape).map Int.ofNat ∧
        ∀ x, Grid.Within shape x → chunk.at x = array x) ∧
    (∀ p < shape.prod, ∃! be : ℕ × ℕ, be.1 < layout.entryCount shape ∧ be.2 < layout.inner.prod ∧
      outputOffset layout.inner (cStrides shape) (unravel be.1 (Grid.gridOf layout.inner shape))
        (unravel be.2 layout.inner) = p) ∧
    (∀ chunk, NestedShardingDecoder.decode V dataType configuration shape fillValue bytes = .ok chunk →
      ∃ array, IsShard V dataType layout shape (fillOf dataType fillValue) bytes array) ∧
    (bytes.length < layout.indexSize shape →
      NestedShardingDecoder.decode V dataType configuration shape fillValue bytes = .error .shortShard) ∧
    ∀ b < layout.entryCount shape, layout.entry shape bytes b ≠ emptyEntry →
      layout.indexOffset shape bytes < (layout.entry shape bytes b).1 + (layout.entry shape bytes b).2 →
      ∀ chunk, NestedShardingDecoder.decode V dataType configuration shape fillValue bytes ≠ .ok chunk := by
  have hdiv := divides_of_readSharding hlayout
  have hinner : DecodesBlocks V dataType
      (decodeNestedCodec V dataType layout.codecs layout.inner (fillOf dataType fillValue)) layout.inner :=
    isDecoded_of_decodeNestedCodec
  have hdecode : NestedShardingDecoder.decode V dataType configuration shape fillValue bytes
      = decodeShard V dataType
          (decodeNestedCodec V dataType layout.codecs layout.inner (fillOf dataType fillValue))
          layout shape (fillOf dataType fillValue) bytes := by
    rw [NestedShardingDecoder.decode, hlayout]
  rw [hdecode]
  refine ⟨fun array h => ?_, fun p hp => ?_, fun chunk h => ?_, fun h => if_pos h,
    fun b hb hentry houtside chunk h => ?_⟩
  · cases h with
    | intro blocks v hsize hlength hempty hpoints hblock =>
        obtain ⟨chunk, hchunk, hat⟩ := decodeShard_of_blocks hinner hdiv hctor hsize hlength hempty hpoints
          fun b hb block hsome => decodeNestedCodec_of_encodes hctor (hblock b hb block hsome)
        have hdecoded := isDecoded_of_decodeShard hinner hchunk
        exact ⟨chunk, hchunk, hdecoded.shape_eq, hdecoded.shape_eq ▸ hdecoded.plain.stride, hat⟩
  · obtain ⟨be, ⟨hb, he, hat⟩, hunique⟩ := Grid.existsUnique_offset hdiv hp
    refine ⟨be, ⟨hb, he, (outputOffset_eq hb he).trans hat⟩, fun be' h => ?_⟩
    obtain ⟨hb', he', hat'⟩ := h
    exact hunique be' ⟨hb', he', (outputOffset_eq hb' he').symm.trans hat'⟩
  · exact exists_isShard hinner hdiv (fun data inner hok => exists_encodes_of_decodeNestedCodec hok) h
  · obtain ⟨-, -, blocks, data, hread, -⟩ := (decodeShard_eq_ok_iff hinner).1 h
    rcases readEntry_eq_ok.1 (hread b hb) with ⟨hempty, -⟩ | ⟨hpoints, -⟩
    · exact hentry hempty
    · exact absurd hpoints.inside houtside.not_ge

/-! ## Shards with one codec -/

/-- A configuration with the index at the end and no checksums. -/
def plainConfiguration (inner : List ℕ) (codecs : JsValue) : JsValue :=
  .obj [(js "chunk_shape", .arr (inner.map fun n : ℕ => .num (.number (Double.ofInt n)))),
    (js "codecs", codecs), (js "index_codecs", .arr [.obj [(js "name", .str (js "bytes"))]]),
    (js "index_location", .str (js "end"))]

/-- A list of the one codec that reads JSON. -/
def jsonCodecs : JsValue := .arr [.obj [(js "name", .str (js "json"))]]

theorem extent?_ofInt {n : ℕ} (hpos : 0 < n) (hn : n < 2 ^ 53) :
    extent? (.num (.number (Double.ofInt n))) = some n := by
  rw [Double.ofInt_eq_finite hn, extent?, Nat.mul_mod_left, Nat.mul_div_cancel _ Numeric.scale_pos,
    if_pos ⟨rfl, hpos, hn⟩]

theorem readSharding_plainConfiguration {inner : List ℕ} (hdiv : Grid.Divides inner shape)
    (hinner : ∀ n ∈ inner, 0 < n ∧ n < 2 ^ 53) :
    readSharding (plainConfiguration inner codecs) shape = .ok ⟨inner, codecs, 0⟩ := by
  have hextents : (inner.map fun n : ℕ => (.num (.number (Double.ofInt n)) : JsValue)).mapM extent?
      = some inner := by
    clear hdiv
    induction inner with
    | nil => rfl
    | cons n inner ih =>
        obtain ⟨hn, hrest⟩ := List.forall_mem_cons.1 hinner
        rw [List.map_cons, Json.mapM_cons_option, extent?_ofInt hn.1 hn.2, ih hrest]
        rfl
  have hshape : readShape shape (.arr (inner.map fun n : ℕ => .num (.number (Double.ofInt n))))
      = .ok inner := by
    rw [readShape, hextents]
    exact if_pos hdiv
  rw [plainConfiguration, readSharding]
  change (readShape shape (.arr (inner.map fun n : ℕ => .num (.number (Double.ofInt n)))) >>= _) = _
  rw [hshape]
  rfl

/-- A shard of two blocks of one element: `[[1]]`, and one that was never written. -/
def twoBlocks : Bytes :=
  [91, 91, 49, 93, 93] ++ [0, 0, 0, 0, 0, 0, 0, 0, 5, 0, 0, 0, 0, 0, 0, 0] ++ List.replicate 16 255

/-- A block that was written and one that was not. -/
theorem NestedShardingDecoder.decode_places_twoBlocks :
    ∃ chunk, NestedShardingDecoder.decode plainConversions .float64 (plainConfiguration [1, 1] jsonCodecs)
        [1, 2] (.num (.number (Double.ofInt 0))) twoBlocks = .ok chunk ∧
      chunk.at [0, 0] = .num (.number (Double.ofInt 1)) ∧ chunk.at [0, 1] = .num (.number (Double.ofInt 0)) := by
  have hlayout : readSharding (plainConfiguration [1, 1] jsonCodecs) [1, 2] = .ok ⟨[1, 1], jsonCodecs, 0⟩ :=
    readSharding_plainConfiguration (by decide) (by decide)
  have hjson : (JsonSerializer.decode plainConversions .float64 [1, 1]
      (pointedAt (0, 5) twoBlocks)).toOption.any (fun chunk =>
        decide ((chunk.at [0, 0]).num? = some (.number (Double.ofInt 1)))) = true := by decide +kernel
  obtain ⟨block, hblock, hat⟩ := Json.exists_of_any_toOption hjson
  have hone : block.at [0, 0] = .num (.number (Double.ofInt 1)) :=
    Json.num?_eq_some_iff.1 (of_decide_eq_true hat)
  have hshard : IsShard plainConversions .float64 ⟨[1, 1], jsonCodecs, 0⟩ [1, 2]
      (fillOf .float64 (.num (.number (Double.ofInt 0)))) twoBlocks
      (ofBlocks [1, 1] [1, 2] (fun b => if b = 0 then some block.at else none)
        (.num (.number (Double.ofInt 0)))) := by
    refine .intro _ _ (by decide) (by decide) (fun b hb hnone => ?_) (fun b hb block' hsome => ?_)
      fun b hb block' hsome => ?_
    · split at hnone
      · cases hnone
      · next hne =>
          obtain rfl : b = 1 := by
            have : b < 2 := hb
            omega
          exact ⟨by decide, rfl⟩
    · split at hsome
      · next hzero =>
          subst hzero
          exact ⟨by decide, by decide⟩
      · cases hsome
    · split at hsome
      · next hzero =>
          subst hzero
          cases hsome
          exact .json rfl hblock
      · cases hsome
  obtain ⟨chunk, hchunk, -, -, hvalues⟩ := (NestedShardingDecoder.decode_places plainConversions .float64
    (plainConfiguration [1, 1] jsonCodecs) [1, 2] (.num (.number (Double.ofInt 0))) twoBlocks
    ⟨[1, 1], jsonCodecs, 0⟩ hlayout rfl).1 _ hshard
  refine ⟨chunk, hchunk, ?_, ?_⟩
  · rw [hvalues [0, 0] (by decide)]
    exact hone
  · rw [hvalues [0, 1] (by decide)]
    rfl

/-- A shard of `2 ^ 32` elements that was never written is rejected. -/
theorem NestedShardingDecoder.decode_tooLong :
    ∃ layout, readSharding (plainConfiguration [4294967296] jsonCodecs) [4294967296] = .ok layout ∧
      layout.indexSize [4294967296] = 16 ∧
      layout.entry [4294967296] (List.replicate 16 255) 0 = emptyEntry ∧
      layout.entryCount [4294967296] = 1 ∧
      NestedShardingDecoder.decode plainConversions .float64 (plainConfiguration [4294967296] jsonCodecs)
        [4294967296] (.num (.number (Double.ofInt 0))) (List.replicate 16 255)
        = .error (.codec .arrayLength) := by
  have hlayout : readSharding (plainConfiguration [4294967296] jsonCodecs) [4294967296]
      = .ok ⟨[4294967296], jsonCodecs, 0⟩ :=
    readSharding_plainConfiguration (by decide) (by decide)
  refine ⟨_, hlayout, by decide, by decide, by decide, ?_⟩
  have hsize : ¬ 16 < indexSize (Grid.gridOf [4294967296] [4294967296]).prod 0 := by decide
  have hlength : maxArrayLength < ([4294967296] : List ℕ).prod := by decide
  rw [NestedShardingDecoder.decode, hlayout]
  show decodeShard .. = _
  rw [decodeShard, List.length_replicate, if_neg hsize, if_pos hlength]

end TypeScript.Crosscheck
