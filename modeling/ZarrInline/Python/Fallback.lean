import ZarrInline.Python.Conversion
import ZarrInline.Text.Directory
import ZarrInline.Transition.Regions

/-!
# Falling back in `from_zarr`

`from_zarr` with `inline_data=True` and `inline_data="auto"`.  Every node of the source is
created again over the document.  With `"auto"`, an array that the json codec does not take
is copied byte for byte: what the failed attempt left behind is purged, and the keys of the
array are copied in its place.

What `zarr` writes is a parameter.  A group sets the value at its metadata key.  An array
makes any writes below its path, and stops after any of them with an exception (`Attempt`).
The nodes it lists are a `SourceTree`: each node once, no node under the name of a metadata key, and
none below an array.
-/

namespace Python

variable {I : Interpreter} {ε : Type}

/-! ## The source tree -/

inductive NodeKind where
  | group
  | array
deriving DecidableEq

/-- A node of a hierarchy, by its path below the root; `dtype` is the text of the data type of
an array. -/
structure Member where
  path : PyString
  kind : NodeKind
  dtype : PyString

/-- A key below a node. -/
def below (path relative : PyString) : PyString := path ++ py "/" ++ relative

/-- The metadata key of a node. -/
def metadataKey (path : PyString) : PyString := below path (py "zarr.json")

/-- What `members(max_depth=None)` lists. -/
structure SourceTree where
  members : List Member
  nodup : (members.map Member.path).Nodup
  nonempty : ∀ m ∈ members, m.path ≠ []
  no_metadata : ∀ m ∈ members, isMetadataKey m.path = false
  leaf : ∀ m ∈ members, m.kind = .array → ∀ n ∈ members, ∀ relative, n.path ≠ below m.path relative

/-! ## What `zarr` writes -/

/-- How the creation of an array ends. -/
inductive Outcome (ε : Type) where
  | done
  /-- A `TypeError` or a `ValueError`, with its text. -/
  | unsupported (reason : PyString)
  /-- Another exception. -/
  | raised (e : ε)

/-- The creation of an array: what it sets and deletes, by the keys below the array, and
how it ends. -/
structure Attempt (ε : Type) where
  writes : List (PyString × Option PyValue)
  outcome : Outcome ε

/-- What the source leaves to `zarr`. -/
structure ZarrLibrary (ε : Type) extends ZarrPython where
  members : StoreMap → PyString → SourceTree
  /-- The values that `open_group` and `attrs.update` set at the metadata key of the root. -/
  root : Except ε (List PyValue)
  /-- The values that `create_group` and `attrs.update` set at the metadata key of a group. -/
  group : PyString → Except ε (List PyValue)
  /-- `create_array`, and the assignment of its elements. -/
  array : PyString → Attempt ε

/-- What the creation of the nodes raises. -/
inductive InlineError (ε : Type) where
  | zarr (e : ε)
  | notInlinable (path dtype reason : PyString)

/-- The message of an error of the source, with paths as an f-string shows them. -/
def InlineError.message (repr : PyString → PyString) : InlineError ε → Option PyString
  | .zarr _ => none
  | .notInlinable path dtype reason =>
      some (py "array " ++ repr path ++ py " (dtype " ++ dtype ++
        py ") cannot be inlined with the json codec: " ++ reason.rdropWhile (· = '.'.toNat) ++
        py ". Convert with inline_data=\"auto\" to keep this array " ++
        py "byte-faithful (base64) while inlining the rest, or " ++
        py "inline_data=False for a fully byte-faithful document.")

/-! ## The source -/

/-- Values set at a key, one after the other. -/
def setAll (key : PyString) (values : List PyValue) (document : Document) : Document :=
  values.foldl (fun document value => document.set key value) document

/-- One write of an attempt. -/
def applyWrite (path : PyString) (document : Document) (write : PyString × Option PyValue) : Document :=
  match write.2 with
  | some value => document.set (below path write.1) value
  | none => document.erase (below path write.1)

/-- Delete what a failed attempt left behind. -/
def purge (path : PyString) (document : Document) : Document :=
  document.retain fun key => !(decide (key = path) || (path ++ py "/").isPrefixOf key)

/-- One round of the loop of `_copy_inline`. -/
def copyNode (I : Interpreter) (L : ZarrLibrary ε) (store : StoreMap) (path : PyString)
    (fallback : Bool) (document : Document) (m : Member) :
    Except (ConvertError (InlineError ε)) Document :=
  match m.kind with
  | .group =>
      match L.group m.path with
      | .error e => .error (.dest (.zarr e))
      | .ok values => .ok (setAll (metadataKey m.path) values document)
  | .array =>
      let attempted := (L.array m.path).writes.foldl (applyWrite m.path) document
      match (L.array m.path).outcome with
      | .done => .ok attempted
      | .raised e => .error (.dest (.zarr e))
      | .unsupported reason =>
          if fallback then
            match copyBytes I store path m.path (purge m.path attempted) with
            | .error e => .error (.codec e)
            | .ok document => .ok document
          else .error (.dest (.notInlinable m.path m.dtype reason))

/-- The members, parents before children. -/
def sortedByDepth (members : List Member) : List Member :=
  members.mergeSort fun m n => decide (m.path.count '/'.toNat ≤ n.path.count '/'.toNat)

/-- `_copy_inline`. -/
def copyInline (I : Interpreter) (L : ZarrLibrary ε) (store : StoreMap) (path : PyString)
    (fallback : Bool) (document : Document) : Except (ConvertError (InlineError ε)) Document :=
  (sortedByDepth (L.members store path).members).foldlM (copyNode I L store path fallback) document

/-- The values of `inline_data`. -/
inductive InlineData where
  | all
  | none
  | auto
deriving DecidableEq

/-- The branch of `from_zarr` that creates the nodes again. -/
def recreate (I : Interpreter) (L : ZarrLibrary ε) (fallback : Bool) (source : GroupSource) :
    Except (ConvertError (InlineError ε)) Document :=
  match openGroup L.toZarrPython source with
  | .error e => .error e
  | .ok (store, path) =>
      match L.root with
      | .error e => .error (.dest (.zarr e))
      | .ok values =>
          copyInline I L store path fallback (setAll (py "zarr.json") values Json.Members.empty)

/-- `from_zarr`.  `encode_value` is one call nearer to the top where nothing is inlined. -/
def fromZarrWith (I : Interpreter) (L : ZarrLibrary ε) (inlineData : InlineData)
    (source : GroupSource) : Except (ConvertError (InlineError ε)) Document :=
  match inlineData with
  | .all => recreate I L false source
  | .none => fromZarr (I.nearer 1) L.toZarrPython source
  | .auto => recreate I L true source

/-! ## Whose keys are whose -/

/-- The keys of a node: the metadata key of a group, and all keys below an array. -/
def Member.Owns (m : Member) (key : PyString) : Prop :=
  ∃ relative, key = below m.path relative ∧ (m.kind = .group → relative = py "zarr.json")

/-- The keys that the creation of a node may change. -/
def Member.Touches (m : Member) (key : PyString) : Prop := m.Owns key ∨ m.kind = .array ∧ key = m.path

theorem below_inj {path r r' : PyString} (h : below path r = below path r') : r = r' :=
  List.append_cancel_left h

theorem isPrefixOf_iff_below {path key : PyString} :
    (path ++ py "/").isPrefixOf key = true ↔ ∃ relative, key = below path relative := by
  rw [List.isPrefixOf_iff_prefix]
  exact exists_congr fun r => eq_comm

/-- The name of a metadata key has one segment. -/
theorem metadata_ne_below (path relative : PyString) : py "zarr.json" ≠ below path relative := by
  intro h
  have hmem : '/'.toNat ∈ below path relative :=
    List.mem_append_left _ (List.mem_append_right _ (List.mem_singleton_self _))
  rw [← h] at hmem
  exact absurd hmem (by decide)

theorem isMetadataKey_metadataKey (path : PyString) : isMetadataKey (metadataKey path) = true := by
  have hsuffix : py "/zarr.json" <:+ metadataKey path := by
    refine ⟨path, ?_⟩
    rw [metadataKey, below, List.append_assoc]
    rfl
  rw [isMetadataKey, Rules.isMetadataKey, Bool.or_eq_true]
  exact Or.inr (List.isSuffixOf_iff_suffix.2 hsuffix)

/-- Of two paths above a key, one is above the other. -/
theorem below_eq_below {path path' r r' : PyString} (h : below path r = below path' r') :
    path = path' ∨ (∃ t, path' = below path t ∧ r = below t r') ∨
      ∃ t, path = below path' t ∧ r' = below t r := by
  have hcons : ∀ p q : PyString, below p q = p ++ '/'.toNat :: q := fun p q => List.append_assoc ..
  simp only [hcons] at h ⊢
  rcases List.append_eq_append_iff.1 h with ⟨as, hpath, hr⟩ | ⟨bs, hpath, hr⟩
  · cases as with
    | nil => exact Or.inl (by rw [hpath, List.append_nil])
    | cons c t =>
        obtain ⟨rfl, htail⟩ := List.cons.inj (hr.trans (List.cons_append ..))
        exact Or.inr (Or.inl ⟨t, hpath, htail⟩)
  · cases bs with
    | nil => exact Or.inl (by rw [hpath, List.append_nil])
    | cons c t =>
        obtain ⟨rfl, htail⟩ := List.cons.inj (hr.trans (List.cons_append ..))
        exact Or.inr (Or.inr ⟨t, hpath, htail⟩)

namespace SourceTree

variable {H : SourceTree} {m n : Member} {key : PyString}

theorem eq_of_path (hm : m ∈ H.members) (hn : n ∈ H.members) (h : m.path = n.path) : m = n :=
  List.inj_on_of_nodup_map H.nodup hm hn h

/-- A node below another has none of its keys. -/
theorem not_owns_below (hm : m ∈ H.members) (hn : n ∈ H.members) {t r r' : PyString}
    (hpath : n.path = below m.path t) (hr : r = below t r')
    (howns : m.kind = .group → r = py "zarr.json") : False := by
  cases hkind : m.kind with
  | group => exact metadata_ne_below t r' ((howns hkind).symm.trans hr)
  | array => exact H.leaf m hm hkind n hn t hpath

/-- The keys of a node are changed by its own creation only. -/
theorem not_touches (hm : m ∈ H.members) (hn : n ∈ H.members) (hne : n ≠ m) (h : m.Owns key) :
    ¬ n.Touches key := by
  obtain ⟨r, rfl, howns⟩ := h
  rintro (⟨r', hr', howns'⟩ | ⟨-, hpath⟩)
  · rcases below_eq_below hr' with heq | ⟨t, hpath, hr⟩ | ⟨t, hpath, hr⟩
    · exact hne (H.eq_of_path hn hm heq.symm)
    · exact H.not_owns_below hm hn hpath hr howns
    · exact H.not_owns_below hn hm hpath hr howns'
  · cases hkind : m.kind with
    | group =>
        have hmeta := H.no_metadata n hn
        rw [← hpath, howns hkind] at hmeta
        exact Bool.false_ne_true (hmeta.symm.trans (isMetadataKey_metadataKey m.path))
    | array => exact H.leaf m hm hkind n hn r hpath.symm

/-- No node changes the metadata of the root. -/
theorem root_not_touches (hn : n ∈ H.members) : ¬ n.Touches (py "zarr.json") := by
  rintro (⟨r, hr, -⟩ | ⟨-, hpath⟩)
  · exact metadata_ne_below n.path r hr
  · have hmeta := H.no_metadata n hn
    rw [← hpath] at hmeta
    cases hmeta

end SourceTree

/-! ## The creation of a node -/

section Nodes

variable {d d' : Document} {path : PyString}

theorem get_setAll {key k : PyString} {values : List PyValue} :
    (setAll key values d).get k = if k = key then values.getLast?.or (d.get k) else d.get k := by
  induction values generalizing d with
  | nil => exact (ite_self _).symm
  | cons value values ih =>
      rw [setAll, List.foldl_cons, ← setAll, ih, Json.Members.get_set]
      by_cases hk : k = key
      · rw [if_pos hk, if_pos hk, if_pos hk.symm, List.getLast?_cons]
        cases values.getLast? <;> rfl
      · rw [if_neg hk, if_neg hk, if_neg (Ne.symm hk)]

/-- What writes leave at a key below an array, where `found` was before. -/
def written (writes : List (PyString × Option PyValue)) (relative : PyString)
    (found : Option PyValue) : Option PyValue :=
  writes.foldl (fun found write => if write.1 = relative then write.2 else found) found

theorem get_applyWrite {write : PyString × Option PyValue} {k : PyString} :
    (applyWrite path d write).get k = if below path write.1 = k then write.2 else d.get k := by
  rw [applyWrite]
  cases write.2 with
  | some value => exact Json.Members.get_set
  | none => exact Json.Members.get_erase

theorem get_applyWrites_below {writes : List (PyString × Option PyValue)} {relative : PyString} :
    (writes.foldl (applyWrite path) d).get (below path relative)
      = written writes relative (d.get (below path relative)) := by
  induction writes generalizing d with
  | nil => rfl
  | cons write writes ih =>
      have hkey : below path write.1 = below path relative ↔ write.1 = relative :=
        ⟨below_inj, congrArg _⟩
      rw [List.foldl_cons, ih, get_applyWrite, written, written, List.foldl_cons]
      exact congrArg (written writes relative) (if_congr hkey rfl rfl)

theorem get_applyWrites_of_not_below {writes : List (PyString × Option PyValue)} {k : PyString}
    (hk : ∀ relative, k ≠ below path relative) :
    (writes.foldl (applyWrite path) d).get k = d.get k := by
  induction writes generalizing d with
  | nil => rfl
  | cons write writes ih => rw [List.foldl_cons, ih, get_applyWrite, if_neg (hk write.1).symm]

theorem get_purge {k : PyString} : (purge path d).get k
    = if k = path ∨ (path ++ py "/").isPrefixOf k = true then none else d.get k := by
  rw [purge, Json.Members.get_retain]
  by_cases hk : k = path ∨ (path ++ py "/").isPrefixOf k = true
  · rw [if_pos hk, if_neg]
    rcases hk with hk | hk <;> simp [hk]
  · rw [if_neg hk, if_pos]
    rw [not_or, Bool.not_eq_true] at hk
    simp [hk]

theorem get_purge_below (relative : PyString) : (purge path d).get (below path relative) = none := by
  rw [get_purge, if_pos (Or.inr (isPrefixOf_iff_below.2 ⟨relative, rfl⟩))]

theorem get_purge_of_not_below {k : PyString} (hpath : k ≠ path)
    (hk : ∀ relative, k ≠ below path relative) : (purge path d).get k = d.get k := by
  rw [get_purge, if_neg]
  rw [isPrefixOf_iff_below]
  exact not_or.2 ⟨hpath, not_exists.2 hk⟩

/-- What is copied of a node: what is stored below it, encoded, and nothing else. -/
theorem copyBytes_below {store : StoreMap} {root : PyString} (hpath : path ≠ [])
    (h : copyBytes I store root path d = .ok d') :
    (∀ relative data, store.get (groupPrefix root ++ below path relative) = some data →
        ∃ value, encodeValue I (below path relative) data = .ok value ∧
          d'.get (below path relative) = some value) ∧
      ∀ k, (∀ relative, store.get (groupPrefix root ++ below path relative) ≠ none →
          k ≠ below path relative) → d'.get k = d.get k := by
  rw [copyBytes, if_neg hpath] at h
  have hscope : ∀ relative, groupPrefix root ++ (path ++ py "/") ++ relative
      = groupPrefix root ++ below path relative := fun relative => by
    rw [below, List.append_assoc]
  have hkey : ∀ k ∈ Text.sortStrings (store.keys.filter
        fun key => (groupPrefix root ++ (path ++ py "/")).isPrefixOf key),
      ∃ relative, store.get k ≠ none ∧ k = groupPrefix root ++ below path relative := by
    intro k hk
    obtain ⟨hsome, relative, hrelative⟩ := mem_copied.1 hk
    exact ⟨relative, Option.isSome_iff_ne_none.1 hsome, hrelative.trans (hscope relative)⟩
  obtain ⟨hentry, hframe⟩ := copyKeys_spec h (by
    intro k hk l hl heq
    obtain ⟨r, -, rfl⟩ := hkey k hk
    obtain ⟨r', -, rfl⟩ := hkey l hl
    rw [List.drop_left, List.drop_left] at heq
    rw [heq])
  constructor
  · intro relative data hdata
    have hmem := mem_copied.2 ⟨Option.isSome_iff_exists.2 ⟨data, hdata⟩, relative,
      (hscope relative).symm⟩
    have hstored := hentry _ hmem data hdata
    rwa [List.drop_left] at hstored
  · intro k hk
    refine hframe k fun l hl heq => ?_
    obtain ⟨relative, hstored, rfl⟩ := hkey l hl
    rw [List.drop_left] at heq
    exact hk relative hstored heq.symm

/-- A node is copied if and only if all that is stored below it can be encoded. -/
theorem exists_copyBytes_iff {store : StoreMap} {root : PyString} (hpath : path ≠ []) :
    (∃ d', copyBytes I store root path d = .ok d') ↔
      ∀ relative data, store.get (groupPrefix root ++ below path relative) = some data →
        ∃ value, encodeValue I (below path relative) data = .ok value := by
  constructor
  · rintro ⟨d', h⟩ relative data hdata
    obtain ⟨value, hvalue, -⟩ := (copyBytes_below hpath h).1 relative data hdata
    exact ⟨value, hvalue⟩
  · intro h
    rw [copyBytes, if_neg hpath]
    refine exists_copyKeys fun k hk data hdata => ?_
    obtain ⟨-, relative, rfl⟩ := mem_copied.1 hk
    rw [List.append_assoc] at hdata ⊢
    rw [List.drop_left]
    exact h relative data hdata

end Nodes

/-! ## The run -/

section Run

variable {L : ZarrLibrary ε} {store : StoreMap} {root : PyString} {d d' : Document} {m : Member}

/-- The creation of a node changes nothing but what it touches. -/
theorem copyNode_frames (fallback : Bool) (hpath : m.path ≠ []) :
    Transition.Frames (fun (d : Document) key => d.get key) (copyNode I L store root fallback)
      Member.Touches m := by
  intro d d' h key hkey
  show d'.get key = d.get key
  rw [copyNode] at h
  cases hkind : m.kind with
  | group =>
      have hne : key ≠ metadataKey m.path := fun heq => hkey (Or.inl ⟨_, heq, fun _ => rfl⟩)
      simp only [hkind] at h
      split at h
      · cases h
      · cases h
        rw [get_setAll, if_neg hne]
  | array =>
      have hne : ∀ relative, key ≠ below m.path relative := fun relative heq =>
        hkey (Or.inl ⟨relative, heq, fun hgroup => by rw [hkind] at hgroup; cases hgroup⟩)
      have hself : key ≠ m.path := fun heq => hkey (Or.inr ⟨hkind, heq⟩)
      simp only [hkind] at h
      split at h
      · cases h
        exact get_applyWrites_of_not_below hne
      · cases h
      · split at h
        · split at h
          · cases h
          · next document hcopy =>
              cases h
              rw [(copyBytes_below hpath hcopy).2 key fun relative _ => hne relative,
                get_purge_of_not_below hself hne, get_applyWrites_of_not_below hne]
        · cases h

/-- A group sets its metadata. -/
theorem copyNode_group {fallback : Bool} (hkind : m.kind = .group)
    (h : copyNode I L store root fallback d m = .ok d') :
    ∃ values, L.group m.path = .ok values ∧ d'.get (metadataKey m.path)
      = values.getLast?.or (d.get (metadataKey m.path)) := by
  rw [copyNode] at h
  simp only [hkind] at h
  split at h
  · cases h
  · next values hvalues =>
      cases h
      exact ⟨values, hvalues, by rw [get_setAll, if_pos rfl]⟩

/-- An array that is inlined is what its creation wrote. -/
theorem copyNode_done {fallback : Bool} (hkind : m.kind = .array)
    (houtcome : (L.array m.path).outcome = .done)
    (h : copyNode I L store root fallback d m = .ok d') (relative : PyString) :
    d'.get (below m.path relative)
      = written (L.array m.path).writes relative (d.get (below m.path relative)) := by
  rw [copyNode] at h
  simp only [hkind, houtcome] at h
  cases h
  exact get_applyWrites_below

/-- An array that is not inlined is what is stored below it. -/
theorem copyNode_unsupported (hpath : m.path ≠ []) (hkind : m.kind = .array) {reason : PyString}
    (houtcome : (L.array m.path).outcome = .unsupported reason)
    (h : copyNode I L store root true d m = .ok d') (relative : PyString) :
    ((d'.get (below m.path relative)).isSome
        ↔ (store.get (groupPrefix root ++ below m.path relative)).isSome) ∧
      ∀ data, store.get (groupPrefix root ++ below m.path relative) = some data →
        ∃ value, encodeValue I (below m.path relative) data = .ok value ∧
          d'.get (below m.path relative) = some value := by
  rw [copyNode] at h
  simp only [hkind, houtcome, if_true] at h
  split at h
  · cases h
  · next document hcopy =>
      cases h
      obtain ⟨hentry, hframe⟩ := copyBytes_below hpath hcopy
      refine ⟨?_, hentry relative⟩
      cases hdata : store.get (groupPrefix root ++ below m.path relative) with
      | none =>
          rw [hframe _ fun r hr heq => hr (below_inj heq ▸ hdata), get_purge_below]
          exact Iff.rfl
      | some data =>
          obtain ⟨value, -, hvalue⟩ := hentry relative data hdata
          rw [hvalue]
          exact iff_of_true rfl rfl

/-- What has to hold for a node to be created. -/
def ZarrLibrary.Creates (L : ZarrLibrary ε) (I : Interpreter) (store : StoreMap) (root : PyString)
    (m : Member) : Prop :=
  match m.kind with
  | .group => ∃ values, L.group m.path = .ok values
  | .array => (L.array m.path).outcome = .done ∨
      (∃ reason, (L.array m.path).outcome = .unsupported reason) ∧
        ∀ relative data, store.get (groupPrefix root ++ below m.path relative) = some data →
          ∃ value, encodeValue I (below m.path relative) data = .ok value

theorem exists_copyNode_iff (hpath : m.path ≠ []) :
    (∃ d', copyNode I L store root true d m = .ok d') ↔ L.Creates I store root m := by
  rw [copyNode, ZarrLibrary.Creates]
  cases hkind : m.kind with
  | group =>
      cases hvalues : L.group m.path with
      | error e =>
          refine iff_of_false ?_ ?_
          · rintro ⟨d', h⟩
            cases h
          · rintro ⟨values, h⟩
            cases h
      | ok values => exact iff_of_true ⟨_, rfl⟩ ⟨values, rfl⟩
  | array =>
      cases houtcome : (L.array m.path).outcome with
      | done => exact iff_of_true ⟨_, rfl⟩ (Or.inl rfl)
      | raised e =>
          refine iff_of_false ?_ ?_
          · rintro ⟨d', h⟩
            cases h
          · rintro (h | ⟨⟨reason, h⟩, -⟩) <;> cases h
      | unsupported reason =>
          simp only [if_true]
          rw [← exists_copyBytes_iff (I := I)
            (d := purge m.path ((L.array m.path).writes.foldl (applyWrite m.path) d)) hpath]
          cases copyBytes I store root m.path
              (purge m.path ((L.array m.path).writes.foldl (applyWrite m.path) d)) with
          | error e =>
              refine iff_of_false ?_ ?_
              · rintro ⟨d', h⟩
                cases h
              · rintro (h | ⟨-, d', h⟩) <;> cases h
          | ok document => exact iff_of_true ⟨_, rfl⟩ (Or.inr ⟨⟨reason, rfl⟩, _, rfl⟩)

/-- What the creation of the nodes started with, at the root. -/
def ofRoot (values : List PyValue) : Document := setAll (py "zarr.json") values Json.Members.empty

theorem mem_sortedByDepth {members : List Member} : m ∈ sortedByDepth members ↔ m ∈ members :=
  (List.mergeSort_perm _ _).mem_iff

theorem get_ofRoot_eq_none {values : List PyValue} {key : PyString} (h : key ≠ py "zarr.json") :
    (ofRoot values).get key = none := by
  rw [ofRoot, get_setAll, if_neg h]
  rfl

variable {H : SourceTree}

theorem frames_copyNode (m : Member) (hm : m ∈ sortedByDepth H.members) :
    Transition.Frames (fun (d : Document) key => d.get key) (copyNode I L store root true)
      Member.Touches m :=
  copyNode_frames true (H.nonempty m (mem_sortedByDepth.1 hm))

/-- The keys of a node are, after the whole run, what its own creation made of a document
without them. -/
theorem copyInline_node {values : List PyValue}
    (h : (sortedByDepth H.members).foldlM (copyNode I L store root true) (ofRoot values) = .ok d')
    (hm : m ∈ H.members) : ∃ t t', copyNode I L store root true t m = .ok t' ∧
      ∀ key, m.Owns key → t.get key = none ∧ d'.get key = t'.get key := by
  have hnodup : (sortedByDepth H.members).Nodup :=
    (List.mergeSort_perm _ _).nodup_iff.2 (List.Nodup.of_map _ H.nodup)
  obtain ⟨t, t', ht, hview⟩ := Transition.view_foldlM (p := m.Owns) frames_copyNode h hnodup
    (mem_sortedByDepth.2 hm) fun n hn hne key hkey =>
      H.not_touches hm (mem_sortedByDepth.1 hn) hne hkey
  refine ⟨t, t', ht, fun key hkey => ⟨?_, (hview key hkey).2⟩⟩
  refine (hview key hkey).1.trans (get_ofRoot_eq_none ?_)
  rintro rfl
  exact H.root_not_touches hm (Or.inl hkey)

/-- A key that belongs to no node does not come up. -/
theorem copyNode_absent {key : PyString} (hpath : m.path ≠ []) (hkey : ¬ m.Owns key)
    (h : copyNode I L store root true d m = .ok d') (hnone : d.get key = none) :
    d'.get key = none := by
  by_cases htouch : m.kind = .array ∧ key = m.path
  · obtain ⟨hkind, rfl⟩ := htouch
    have hne : ∀ relative, m.path ≠ below m.path relative := fun relative heq =>
      hkey ⟨relative, heq, fun hgroup => by rw [hkind] at hgroup; cases hgroup⟩
    rw [copyNode] at h
    simp only [hkind] at h
    split at h
    · cases h
      rw [get_applyWrites_of_not_below hne, hnone]
    · cases h
    · simp only [if_true] at h
      split at h
      · cases h
      · next document hcopy =>
          cases h
          rw [(copyBytes_below hpath hcopy).2 _ fun relative _ => hne relative, get_purge,
            if_pos (Or.inl rfl)]
  · have hframe := copyNode_frames true hpath d d' h key fun htouches => htouches.elim hkey htouch
    exact hframe.trans hnone

theorem copyInline_absent {values : List PyValue} {key : PyString}
    (h : (sortedByDepth H.members).foldlM (copyNode I L store root true) (ofRoot values) = .ok d')
    (hroot : key ≠ py "zarr.json") (hkey : ∀ m ∈ H.members, ¬ m.Owns key) : d'.get key = none :=
  Transition.foldlM_induct (P := fun d => d.get key = none) h (get_ofRoot_eq_none hroot)
    fun m hm _ _ => copyNode_absent (H.nonempty m (mem_sortedByDepth.1 hm))
      (hkey m (mem_sortedByDepth.1 hm))

end Run

/-! ## The document -/

section Document

variable {L : ZarrLibrary ε} {store : StoreMap} {root : PyString} {source : GroupSource}

theorem fromZarrWith_auto (hopen : openGroup (ε := InlineError ε) L.toZarrPython source = .ok (store, root))
    {d : Document} : fromZarrWith I L .auto source = .ok d ↔
      ∃ values, L.root = .ok values ∧
        (sortedByDepth (L.members store root).members).foldlM (copyNode I L store root true)
          (ofRoot values) = .ok d := by
  rw [fromZarrWith, recreate]
  simp only [hopen]
  cases hroot : L.root with
  | error e =>
      refine iff_of_false ?_ ?_
      · intro h
        cases h
      · rintro ⟨values, h, -⟩
        cases h
  | ok values =>
      constructor
      · intro h
        exact ⟨values, rfl, h⟩
      · rintro ⟨values', hvalues, h⟩
        cases hvalues
        exact h

variable {d : Document} {m : Member} {H : SourceTree} {values : List PyValue}
  (h : (sortedByDepth H.members).foldlM (copyNode I L store root true) (ofRoot values) = .ok d)
  (hm : m ∈ H.members)
include h hm

theorem get_unsupported (hkind : m.kind = .array) {reason : PyString}
    (houtcome : (L.array m.path).outcome = .unsupported reason) (relative : PyString) :
    ((d.get (below m.path relative)).isSome
        ↔ (store.get (groupPrefix root ++ below m.path relative)).isSome) ∧
      ∀ data value, store.get (groupPrefix root ++ below m.path relative) = some data →
        d.get (below m.path relative) = some value →
        decodeValue I (below m.path relative) value
          = if isMetadataKey (below m.path relative) then canonicalForm I data else .ok data := by
  obtain ⟨t, t', ht, hview⟩ := copyInline_node h hm
  have howns : m.Owns (below m.path relative) :=
    ⟨relative, rfl, fun hgroup => by rw [hkind] at hgroup; cases hgroup⟩
  obtain ⟨hkeys, hentry⟩ := copyNode_unsupported (H.nonempty m hm) hkind houtcome ht relative
  rw [(hview _ howns).2]
  refine ⟨hkeys, fun data value hdata hvalue => ?_⟩
  obtain ⟨w, hw, hget⟩ := hentry data hdata
  obtain rfl := Option.some.inj (hvalue.symm.trans hget)
  exact decodeValue_of_encodeValue hw

theorem get_done (hkind : m.kind = .array) (houtcome : (L.array m.path).outcome = .done)
    (relative : PyString) :
    d.get (below m.path relative) = written (L.array m.path).writes relative none := by
  obtain ⟨t, t', ht, hview⟩ := copyInline_node h hm
  have howns : m.Owns (below m.path relative) :=
    ⟨relative, rfl, fun hgroup => by rw [hkind] at hgroup; cases hgroup⟩
  obtain ⟨hbefore, hafter⟩ := hview _ howns
  rw [hafter, copyNode_done hkind houtcome ht, hbefore]

theorem get_group (hkind : m.kind = .group) :
    ∃ values, L.group m.path = .ok values ∧ d.get (metadataKey m.path) = values.getLast? := by
  obtain ⟨t, t', ht, hview⟩ := copyInline_node h hm
  obtain ⟨hbefore, hafter⟩ := hview (metadataKey m.path) ⟨_, rfl, fun _ => rfl⟩
  obtain ⟨values, hvalues, hget⟩ := copyNode_group hkind ht
  refine ⟨values, hvalues, ?_⟩
  rw [hafter, hget, hbefore, Option.or_none]

omit hm in
theorem get_root : d.get (py "zarr.json") = values.getLast? := by
  have hroot := Transition.frame_foldlM frames_copyNode h fun n hn =>
    H.root_not_touches (mem_sortedByDepth.1 hn)
  rw [hroot, ofRoot, get_setAll, if_pos rfl]
  exact Option.or_none

omit h hm in
theorem exists_copyInline_iff : (∃ d, (sortedByDepth H.members).foldlM
      (copyNode I L store root true) (ofRoot values) = .ok d) ↔
    ∀ m ∈ H.members, L.Creates I store root m := by
  rw [Transition.exists_foldlM_iff fun d m hm =>
    exists_copyNode_iff (H.nonempty m (mem_sortedByDepth.1 hm))]
  exact forall_congr' fun m => imp_congr_left mem_sortedByDepth

end Document

/-- Two arrays, one with a path that begins with the other's. -/
def siblings : List Member :=
  [⟨py "a", .array, py "complex64"⟩, ⟨py "ab", .array, py "int8"⟩]

def siblingTree : SourceTree where
  members := siblings
  nodup := by decide
  nonempty := by decide
  no_metadata := by decide
  leaf := by
    have hprefix : ∀ m ∈ siblings, ∀ n ∈ siblings, ¬ (m.path ++ py "/").isPrefixOf n.path = true := by
      decide
    exact fun m hm _ n hn relative heq => hprefix m hm n hn (isPrefixOf_iff_below.2 ⟨relative, heq⟩)

/-- The second array is inlined, the first fails after two writes. -/
def siblingLibrary : ZarrLibrary Empty where
  opensGroup := fun _ => true
  members := fun _ _ => siblingTree
  root := .ok [groupMetadata]
  group := fun _ => .ok [groupMetadata]
  array := fun path =>
    if path = py "a" then
      ⟨[(py "zarr.json", some (.obj [])), (py "c/1", some (.str []))], .unsupported (py "complex")⟩
    else ⟨[(py "zarr.json", some (.obj [])), (py "c/0", some (.arr []))], .done⟩

def siblingStore : StoreMap := .ofList [(py "a/c/0", [0, 1, 2])]

end Python
