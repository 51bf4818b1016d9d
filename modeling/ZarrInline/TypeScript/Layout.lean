import ZarrInline.Sharding.Chain
import ZarrInline.TypeScript.Crosscheck
import ZarrInline.TypeScript.Validator

/-!
# Shard layouts in TypeScript

`crosscheck/typescript`: `arrayLayout`, which reads the shapes off the metadata of an array
in a document.  This harness creates no sharded arrays.
-/

namespace TypeScript.Crosscheck

open Numeric (Double)

/-! ## The source -/

/-- What `arrayLayout` throws. -/
inductive LayoutError where
  | error (message : JsString)
  /-- `map` of a value that is no array. -/
  | typeError

/-- The properties of a value for which `isPlainObject` holds.  An object that is no plain
object of members has none that is asked for. -/
def plainMembers : JsValue → Option (List (JsString × JsValue))
  | .obj ms => some ms
  | .num (.exotic _) => some []
  | _ => none

/-- `object[name]`. -/
def property (ms : List (JsString × JsValue)) (name : JsString) : JsValue :=
  (Json.lookup name ms).getD (.num .undefined)

/-- `Number`.  `parse` reads a string, or the string that an array or an object is made. -/
def number (parse : JsValue → Double) : JsValue → Double
  | .num (.number x) => x
  | .num (.bigint i) => Double.ofInt i
  | .null => .ofInt 0
  | .bool b => if b then .ofInt 1 else .ofInt 0
  | v => parse v

/-- The message of an error about an array. -/
def layoutMessage (path : JsString) (what : String) : JsString :=
  js "array " ++ path ++ js ": " ++ js what

/-- The condition of the loop of `arrayLayout`: the members of the one codec, if it is a
sharding codec. -/
def onlySharding (codecs : JsValue) : Option (List (JsString × JsValue)) :=
  match codecs with
  | .arr [codec] =>
      match plainMembers codec with
      | some ms =>
          match property ms (js "name") with
          | .str name => if name = js "sharding_indexed" then some ms else none
          | _ => none
      | none => none
  | _ => none

/-- The body of the loop of `arrayLayout`: the chunk shape and the codecs of a codec. -/
def readConfiguration (parse : JsValue → Double) (path : JsString)
    (codec : List (JsString × JsValue)) : Except LayoutError (List Double × JsValue) :=
  match plainMembers (property codec (js "configuration")) with
  | some configuration =>
      match property configuration (js "chunk_shape") with
      | .arr shape => .ok (shape.map (number parse), property configuration (js "codecs"))
      | _ => .error (.error (layoutMessage path "invalid sharding configuration"))
  | none => .error (.error (layoutMessage path "invalid sharding configuration"))

/-- The loop of `arrayLayout`, with its condition. -/
def shardingBelow (parse : JsValue → Double) (path : JsString) (codecs : JsValue) :
    Option (Except LayoutError (List Double × JsValue)) :=
  (onlySharding codecs).map (readConfiguration parse path)

/-- The chunk shape of the grid and the codecs. -/
def outermost (parse : JsValue → Double) (document : Document) (path : JsString) :
    Except LayoutError (List Double × JsValue) :=
  match (document.get (path ++ js "/zarr.json")).bind plainMembers with
  | none => .error (.error (layoutMessage path "invalid metadata"))
  | some metadata =>
      match (plainMembers (property metadata (js "chunk_grid"))).bind fun grid =>
          plainMembers (property grid (js "configuration")) with
      | none => .error (.error (layoutMessage path "invalid chunk grid"))
      | some configuration =>
          match property configuration (js "chunk_shape") with
          | .arr shape => .ok (shape.map (number parse), property metadata (js "codecs"))
          | _ => .error .typeError

/-- `arrayLayout`, with at most `n` rounds of its loop. -/
def arrayLayout (parse : JsValue → Double) (n : ℕ) (document : Document) (path : JsString) :
    Option (Except LayoutError (List Double × List (List Double))) :=
  match outermost parse document path with
  | .error e => some (.error e)
  | .ok (current, codecs) => Sharding.readChain (shardingBelow parse path) n current codecs []

/-! ## The loop ends -/

variable {parse : JsValue → Double} {path : JsString}

theorem depth_property_le {ms : List (JsString × JsValue)} {name : JsString} :
    (property ms name).depth < Json.depth (.obj ms) := by
  rw [property]
  cases hget : Json.lookup name ms with
  | none =>
      show 0 < Json.depth (.obj ms)
      rw [Json.depth_obj]
      exact Nat.succ_pos _
  | some x => exact Json.depth_lt_of_mem_obj (Json.mem_of_lookup hget)

/-- What has members is an array or an object, or an object without any. -/
theorem plainMembers_eq_some {v : JsValue} {ms : List (JsString × JsValue)}
    (h : plainMembers v = some ms) : v = .obj ms ∨ ms = [] := by
  unfold plainMembers at h
  split at h
  · cases h; exact Or.inl rfl
  · cases h; exact Or.inr rfl
  · cases h

theorem property_nil (name : JsString) : property [] name = .num .undefined := rfl

theorem readConfiguration_lt {codec : List (JsString × JsValue)} {codecs : JsValue}
    {inner : List Double} (h : readConfiguration parse path codec = .ok (inner, codecs)) :
    codecs.depth < Json.depth (.obj codec) := by
  unfold readConfiguration at h
  split at h
  · next configuration hconf =>
      split at h
      · next shape hshape =>
          cases h
          rcases plainMembers_eq_some hconf with hobj | rfl
          · have hlt : (property codec (js "configuration")).depth < Json.depth (.obj codec) :=
              depth_property_le
            rw [hobj] at hlt
            exact depth_property_le.trans hlt
          · rw [property_nil] at hshape
            cases hshape
      · cases h
  · cases h

theorem onlySharding_lt {codecs : JsValue} {codec : List (JsString × JsValue)}
    (h : onlySharding codecs = some codec) : Json.depth (.obj codec) < codecs.depth := by
  unfold onlySharding at h
  split at h
  · split at h
    · next ms hms =>
        split at h
        · next name hname =>
            split at h
            · cases h
              rcases plainMembers_eq_some hms with rfl | rfl
              · exact Json.depth_lt_of_mem_arr List.mem_cons_self
              · rw [property_nil] at hname
                cases hname
            · cases h
        · cases h
    · cases h
  · cases h

theorem shardingBelow_lt {codecs codecs' : JsValue} {inner : List Double}
    (h : shardingBelow parse path codecs = some (.ok (inner, codecs'))) :
    codecs'.depth < codecs.depth := by
  obtain ⟨codec, hcodec, h⟩ := Option.map_eq_some_iff.1 h
  exact (readConfiguration_lt h).trans (onlySharding_lt hcodec)

/-- `arrayLayout` ends. -/
theorem exists_arrayLayout (parse : JsValue → Double) (document : Document) (path : JsString) :
    ∃ n r, ∀ m, n ≤ m → arrayLayout parse m document path = some r := by
  cases houter : outermost parse document path with
  | error e => exact ⟨0, .error e, fun m _ => by simp only [arrayLayout, houter]⟩
  | ok outer =>
      obtain ⟨r, hr⟩ := Sharding.exists_readChain Json.depth
        (fun _ _ _ => @shardingBelow_lt parse path _ _ _) outer.1 outer.2 []
      refine ⟨outer.2.depth + 1, r, fun m hm => ?_⟩
      simp only [arrayLayout, houter]
      exact hr m hm

/-! ## The layout of an array that was created -/

theorem map_number (parse : JsValue → Double) (shape : List Double) :
    (shape.map fun x => (.num (.number x) : JsValue)).map (number parse) = shape := by
  rw [List.map_map]
  exact List.map_id shape

/-- A chain in metadata is read level by level. -/
theorem represents {codec : Sharding.Codec (List Double)} {value : JsValue}
    (h : Sharding.IsCodec js JsAtom.number codec value) :
    Sharding.Represents (shardingBelow parse path) codec (.arr [value]) := by
  induction h with
  | json hname =>
      refine .json ?_
      simp only [shardingBelow, onlySharding, plainMembers, property, hname, Option.getD_some]
      rfl
  | sharding hname hconf hshape hcodecs _ ih =>
      refine .sharding ?_ ih
      simp only [shardingBelow, onlySharding, plainMembers, property, hname, if_true,
        readConfiguration, hconf, hshape, hcodecs, map_number, Option.getD_some, Option.map_some]

theorem arrayLayout_wrap (parse : JsValue → Double) (chunks : List Double)
    (shards : List (List Double)) (document : Document) (path : JsString) (metadata : JsValue)
    (hmetadata : document.get (path ++ js "/zarr.json") = some metadata)
    (h : Sharding.IsArray js JsAtom.number (Sharding.wrap chunks shards).1
      (Sharding.wrap chunks shards).2 metadata) :
    ∃ n, ∀ m, n ≤ m → arrayLayout parse m document path = some (.ok (chunks, shards)) := by
  obtain ⟨hgrid, hconf, hshape, hcodecs, hcodec⟩ := h
  refine ⟨(Sharding.wrap chunks shards).2.depth + 1, fun m hm => ?_⟩
  simp only [arrayLayout, outermost, hmetadata, plainMembers, property, hgrid, hconf, hshape, hcodecs,
    map_number, Option.getD_some, Option.bind_some]
  exact Sharding.readChain_wrap (represents hcodec) hm

end TypeScript.Crosscheck
