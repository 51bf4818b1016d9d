import ZarrInline.Python.Value
import ZarrInline.Text.Sorting

/-!
# Verifying a document against its source

`verify_document` of `convert.py`.  A hierarchy is a group or an array; a group has nodes
below it, each a group or an array.  Element types are arguments, with numpy's comparison
of elements and its test for NaN.

The comparison is driven by the nodes of the source.  It passes over an array in the document
at the path of a group, and takes a group there for an array.  What it misses besides is what
`==` of Python misses: `True` is `1`.  `verifyDocument_sound_iff` says when none of this
happens.
-/

namespace Python

open Numeric (Double)

/-! ## Equality of attributes -/

/-- `==` of floats. -/
def floatEq : Double → Double → Bool
  | .finite m u hu, .finite n v hv => decide ((Double.finite m u hu).toRat = (Double.finite n v hv).toRat)
  | .infinity m, .infinity n => m == n
  | _, _ => false

/-- `==` of numbers: by value, whatever their types. -/
def numberEq : PyAtom → PyAtom → Bool
  | .int i, .int j => i == j
  | .int i, .float x => decide (x.IsFinite ∧ x.toRat = i)
  | .float x, .int i => decide (x.IsFinite ∧ x.toRat = i)
  | .float x, .float y => floatEq x y
  | _, _ => false

/-- Equality of JSON values, in which a truth value may be the number it is in Python. -/
def valueEq (truthIsNumber : Bool) : PyValue → PyValue → Bool :=
  Json.fold {
    null := fun w => match w with
      | .null => true
      | _ => false
    bool := fun b w => match w with
      | .bool c => b == c
      | .num a => truthIsNumber && numberEq (.int b.toNat) a
      | _ => false
    str := fun s w => match w with
      | .str t => s == t
      | _ => false
    num := fun a w => match w with
      | .num c => numberEq a c
      | .bool b => truthIsNumber && numberEq a (.int b.toNat)
      | _ => false
    arr := fun fs w => match w with
      | .arr ys => fs.length == ys.length && (List.zipWith (fun f y => f y) fs ys).all id
      | _ => false
    obj := fun ms w => match w with
      | .obj ns => ms.length == ns.length && ms.all fun m =>
          match Json.lookup m.1 ns with
          | some y => m.2 y
          | none => false
      | _ => false }

/-- The attributes of a node: a dict that was parsed. -/
abbrev Attributes := PyMembers PyValue

/-- `==` of attributes. -/
def dictEq (a b : Attributes) : Bool := valueEq true (.obj a.entries) (.obj b.entries)

/-- The attributes are equal as JSON. -/
def jsonEq (a b : Attributes) : Bool := valueEq false (.obj a.entries) (.obj b.entries)

/-! ## Hierarchies -/

/-- What the source leaves to numpy: the kind of a data type, and `==` and `isnan` of
elements. -/
structure Numpy (δ ε : Type) where
  kind : δ → Char
  eq : ε → ε → Bool
  isnan : ε → Bool

/-- `zarr.Array`: what is read of one. -/
structure ZarrArray (δ ε : Type) where
  attributes : Attributes
  shape : List ℕ
  dtype : δ
  values : List ε
  size : values.length = shape.prod

/-- A node of a hierarchy. -/
inductive Node (δ ε : Type) where
  | group (attributes : Attributes)
  | array (a : ZarrArray δ ε)

/-- `attrs`. -/
def Node.attributes {δ ε : Type} : Node δ ε → Attributes
  | .group attributes => attributes
  | .array a => a.attributes

/-- `zarr.Group`: its attributes, and the nodes below it by their paths, in the order in which
`members` gives them. -/
structure Group (δ ε : Type) where
  attributes : Attributes
  members : PyMembers (Node δ ε)

/-- What a document may hold: a group, or an array alone. -/
inductive Hierarchy (δ ε : Type) where
  | group (g : Group δ ε)
  | array (a : ZarrArray δ ε)

/-! ## `verify_document` -/

/-- The check that a `DocumentMismatchError` reports. -/
inductive Mismatch where
  | rootAttributes
  | members (onlySource onlyDocument : List PyString)
  | attributes (path : PyString)
  | shapes (path : PyString)
  | dtypes (path : PyString)
  | values (path : PyString)

/-- The message, with lists as `repr` shows them. -/
def Mismatch.message (repr : List PyString → PyString) : Mismatch → PyString
  | .rootAttributes => py "root attributes differ"
  | .members onlySource onlyDocument =>
      py "member sets differ: only in source " ++ repr onlySource ++ py ", only in document " ++
        repr onlyDocument
  | .attributes path => path ++ py ": attributes differ"
  | .shapes path => path ++ py ": shapes differ"
  | .dtypes path => path ++ py ": dtypes differ"
  | .values path => path ++ py ": values differ"

/-- What `verify_document` raises. -/
inductive VerifyError where
  /-- `DocumentMismatchError`. -/
  | mismatch (m : Mismatch)
  /-- `AttributeError`. -/
  | attributeError
  /-- `KeyError`. -/
  | keyError (path : PyString)
  /-- What `zarr.open_group` raises for an array. -/
  | notGroup

section

variable {δ ε : Type} (N : Numpy δ ε)

/-- `np.array_equal`. -/
def arrayEqual (equalNan : Bool) (a b : ZarrArray δ ε) : Bool :=
  if a.shape ≠ b.shape then false
  else if equalNan then
    if a.values.map N.isnan ≠ b.values.map N.isnan then false
    else ((a.values.zip b.values).filter fun p => !N.isnan p.1).all fun p => N.eq p.1 p.2
  else (a.values.zip b.values).all fun p => N.eq p.1 p.2

/-- The checks of two arrays. -/
def checkArrays [DecidableEq δ] (path : PyString) (node other : ZarrArray δ ε) : Except VerifyError Unit :=
  if node.shape ≠ other.shape then .error (.mismatch (.shapes path))
  else if node.dtype ≠ other.dtype then .error (.mismatch (.dtypes path))
  else if ¬ arrayEqual N (decide (N.kind node.dtype ∈ ['f', 'c'])) node other then
    .error (.mismatch (.values path))
  else .ok ()

/-- The body of the loop: a group has no `shape`. -/
def checkNode [DecidableEq δ] (path : PyString) (node other : Node δ ε) : Except VerifyError Unit :=
  if ¬ dictEq other.attributes node.attributes then .error (.mismatch (.attributes path))
  else
    match node, other with
    | .group _, _ => .ok ()
    | .array a, .array b => checkArrays N path a b
    | .array _, .group _ => .error .attributeError

/-- The loop over the nodes of the source. -/
def checkNodes [DecidableEq δ] (document : PyMembers (Node δ ε)) : List (PyString × Node δ ε) → Except VerifyError Unit
  | [] => .ok ()
  | (path, node) :: nodes =>
      match document.get path with
      | none => .error (.keyError path)
      | some other =>
          match checkNode N path node other with
          | .ok () => checkNodes document nodes
          | .error e => .error e

/-- `open_document`, of what a document holds. -/
def openDocument : Hierarchy δ ε → Except VerifyError (Group δ ε)
  | .group g => .ok g
  | .array _ => .error .notGroup

/-- The paths of one that the other has not. -/
def onlyIn (a b : PyMembers (Node δ ε)) : List PyString := a.keys.filter fun path => path ∉ b.keys

/-- The checks of two groups. -/
def verifyGroups [DecidableEq δ] (document source : Group δ ε) : Except VerifyError Unit :=
  if ¬ dictEq document.attributes source.attributes then .error (.mismatch .rootAttributes)
  else if onlyIn source.members document.members ≠ [] ∨ onlyIn document.members source.members ≠ [] then
    .error (.mismatch (.members (Text.sortStrings (onlyIn source.members document.members))
      (Text.sortStrings (onlyIn document.members source.members))))
  else checkNodes N document.members source.members.entries

/-- `verify_document`, of the group that `_open_group` gives for the source. -/
def verifyDocument [DecidableEq δ] (document : Hierarchy δ ε) (source : Group δ ε) : Except VerifyError Unit :=
  match openDocument document with
  | .error e => .error e
  | .ok g => verifyGroups N g source

/-! ## What it is to establish -/

/-- Equal elements, NaN equal to NaN. -/
def ElementsAgree (x y : ε) : Prop := N.eq x y = true ∨ N.isnan x = true ∧ N.isnan y = true

/-- The same kind of node with equal attributes and, for arrays, equal shape, data type and
elements. -/
inductive NodesAgree : Node δ ε → Node δ ε → Prop
  | group {a b : Attributes} (hattributes : jsonEq b a = true) : NodesAgree (.group a) (.group b)
  | array {a b : ZarrArray δ ε} (hattributes : jsonEq b.attributes a.attributes = true)
      (hshape : a.shape = b.shape) (hdtype : a.dtype = b.dtype)
      (hvalues : List.Forall₂ (ElementsAgree N) a.values b.values) : NodesAgree (.array a) (.array b)

/-- A group with agreeing attributes, the same paths, and agreeing nodes at every path. -/
structure GroupsAgree (document source : Group δ ε) : Prop where
  attributes : jsonEq document.attributes source.attributes = true
  paths : ∀ path, path ∈ document.members.keys ↔ path ∈ source.members.keys
  nodes : ∀ path node other, source.members.get path = some node →
    document.members.get path = some other → NodesAgree N node other

/-- The document holds the source. -/
def Agrees : Hierarchy δ ε → Group δ ε → Prop
  | .group g, source => GroupsAgree N g source
  | .array _, _ => False

/-- `verify_document` returns only for a document that holds the source, and for any other it
raises `DocumentMismatchError`. -/
def Sound [DecidableEq δ] (document : Hierarchy δ ε) (source : Group δ ε) : Prop :=
  (verifyDocument N document source = .ok () → Agrees N document source) ∧
    (¬ Agrees N document source →
      ∃ m, verifyDocument N document source = .error (.mismatch m))

/-! ## When it does -/

/-- A check of the pair fails. -/
def Caught (node other : Node δ ε) : Prop :=
  dictEq other.attributes node.attributes = false ∨
    ∃ a b, node = .array a ∧ other = .array b ∧
      (a.shape ≠ b.shape ∨ a.dtype ≠ b.dtype ∨
        arrayEqual N (decide (N.kind a.dtype ∈ ['f', 'c'])) a b = false)

/-- A group is asked for the shape of an array. -/
def Crashes (node other : Node δ ε) : Prop :=
  dictEq other.attributes node.attributes = true ∧ ∃ a b, node = .array a ∧ other = .group b

/-- A check fails at a node before which no group is taken for an array. -/
def CaughtFirst (document : PyMembers (Node δ ε)) (nodes : List (PyString × Node δ ε)) : Prop :=
  ∃ before path node after other, nodes = before ++ (path, node) :: after ∧
    document.get path = some other ∧ Caught N node other ∧
    ∀ m ∈ before, ∀ other, document.get m.1 = some other → ¬ Crashes m.2 other

/-- Both are groups, or both are arrays. -/
def SameKind : Node δ ε → Node δ ε → Prop
  | .group _, .group _ => True
  | .array _, .array _ => True
  | _, _ => False

/-- A check of the roots or of the paths fails, or one of the nodes does before a group is
taken for an array; or else no two nodes are of different kinds, and no two dicts of attributes
are equal in Python only. -/
def GroupsTell (document source : Group δ ε) : Prop :=
  dictEq document.attributes source.attributes = false ∨
    (∃ path, ¬ (path ∈ document.members.keys ↔ path ∈ source.members.keys)) ∨
    CaughtFirst N document.members source.members.entries ∨
    jsonEq document.attributes source.attributes = true ∧
      ∀ path node other, source.members.get path = some node →
        document.members.get path = some other →
        SameKind node other ∧ jsonEq other.attributes node.attributes = true

/-- The document is a group that tells itself from the source where they differ. -/
def Tells : Hierarchy δ ε → Group δ ε → Prop
  | .group g, source => GroupsTell N g source
  | .array _, _ => False

variable {N} {path : PyString} {node other : Node δ ε}

theorem not_caught_of_crashes (h : Crashes node other) : ¬ Caught N node other := by
  obtain ⟨hattributes, a, b, rfl, rfl⟩ := h
  rintro (hfalse | ⟨a', b', -, hb, -⟩)
  · rw [hfalse] at hattributes
    cases hattributes
  · cases hb

theorem checkArrays_cases [DecidableEq δ] (path : PyString) (a b : ZarrArray δ ε) :
    (∃ m, checkArrays N path a b = .error (.mismatch m)) ∧
        (a.shape ≠ b.shape ∨ a.dtype ≠ b.dtype ∨
          arrayEqual N (decide (N.kind a.dtype ∈ ['f', 'c'])) a b = false) ∨
      checkArrays N path a b = .ok () ∧ a.shape = b.shape ∧ a.dtype = b.dtype ∧
        arrayEqual N (decide (N.kind a.dtype ∈ ['f', 'c'])) a b = true := by
  unfold checkArrays
  split
  · next hshape => exact Or.inl ⟨⟨_, rfl⟩, Or.inl hshape⟩
  · next hshape =>
      split
      · next hdtype => exact Or.inl ⟨⟨_, rfl⟩, Or.inr (Or.inl hdtype)⟩
      · next hdtype =>
          split
          · next hvalues =>
              exact Or.inl ⟨⟨_, rfl⟩, Or.inr (Or.inr (Bool.not_eq_true _ ▸ hvalues))⟩
          · next hvalues =>
              exact Or.inr ⟨rfl, not_not.1 hshape, not_not.1 hdtype, not_not.1 hvalues⟩

/-- A pair is caught, or the check crashes, or passes. -/
theorem checkNode_cases [DecidableEq δ] (path : PyString) (node other : Node δ ε) :
    (∃ m, checkNode N path node other = .error (.mismatch m)) ∧ Caught N node other ∨
      checkNode N path node other = .error .attributeError ∧ Crashes node other ∨
      checkNode N path node other = .ok () ∧ ¬ Caught N node other ∧ ¬ Crashes node other := by
  unfold checkNode
  cases hattributes : dictEq other.attributes node.attributes with
  | false => exact Or.inl ⟨⟨_, rfl⟩, Or.inl hattributes⟩
  | true =>
      have hnot : ¬ dictEq other.attributes node.attributes = false := by
        rw [hattributes]
        exact Bool.noConfusion
      cases node with
      | group a =>
          refine Or.inr (Or.inr ⟨rfl, ?_, ?_⟩)
          · rintro (hfalse | ⟨a', b', ha, -⟩)
            · exact hnot hfalse
            · cases ha
          · rintro ⟨-, a', b', ha, -⟩
            cases ha
      | array a =>
          cases other with
          | group b => exact Or.inr (Or.inl ⟨rfl, hattributes, a, b, rfl, rfl⟩)
          | array b =>
              rcases checkArrays_cases (N := N) path a b with ⟨hm, hdiffer⟩ | ⟨hok, hs, hd, hv⟩
              · exact Or.inl ⟨hm, Or.inr ⟨a, b, rfl, rfl, hdiffer⟩⟩
              · refine Or.inr (Or.inr ⟨hok, ?_, ?_⟩)
                · rintro (hfalse | ⟨a', b', ha, hb, hdiffer⟩)
                  · exact hnot hfalse
                  · cases ha
                    cases hb
                    rcases hdiffer with h | h | h
                    · exact h hs
                    · exact h hd
                    · rw [hv] at h
                      cases h
                · rintro ⟨-, a', b', -, hb⟩
                  cases hb

/-- The first node decides, unless it passes. -/
theorem caughtFirst_cons {document : PyMembers (Node δ ε)} {nodes : List (PyString × Node δ ε)}
    (hother : document.get path = some other) :
    CaughtFirst N document ((path, node) :: nodes) ↔
      Caught N node other ∨ ¬ Crashes node other ∧ CaughtFirst N document nodes := by
  constructor
  · rintro ⟨before, path', node', after, other', hsplit, hget, hcaught, hbefore⟩
    cases before with
    | nil =>
        cases hsplit
        rw [hother] at hget
        cases hget
        exact Or.inl hcaught
    | cons m before =>
        cases hsplit
        obtain ⟨hfirst, hrest⟩ := List.forall_mem_cons.1 hbefore
        exact Or.inr ⟨hfirst other hother, before, path', node', after, other', rfl, hget, hcaught, hrest⟩
  · rintro (hcaught | ⟨hcrash, before, path', node', after, other', rfl, hget, hcaught, hbefore⟩)
    · exact ⟨[], path, node, nodes, other, rfl, hother, hcaught, by simp⟩
    · refine ⟨(path, node) :: before, path', node', after, other', rfl, hget, hcaught, ?_⟩
      refine List.forall_mem_cons.2 ⟨fun o ho => ?_, hbefore⟩
      rw [hother] at ho
      cases ho
      exact hcrash

/-- The loop ends at the first node that does not pass. -/
theorem checkNodes_cases [DecidableEq δ] {document : PyMembers (Node δ ε)} {nodes : List (PyString × Node δ ε)}
    (hpaths : ∀ m ∈ nodes, ∃ other, document.get m.1 = some other) :
    (∃ m, checkNodes N document nodes = .error (.mismatch m)) ∧ CaughtFirst N document nodes ∨
      (checkNodes N document nodes = .error .attributeError ∧ ¬ CaughtFirst N document nodes ∧
        ∃ m ∈ nodes, ∃ other, document.get m.1 = some other ∧ Crashes m.2 other) ∨
      (checkNodes N document nodes = .ok () ∧ ¬ CaughtFirst N document nodes ∧
        ∀ m ∈ nodes, ∀ other, document.get m.1 = some other →
          ¬ Caught N m.2 other ∧ ¬ Crashes m.2 other) := by
  induction nodes with
  | nil =>
      refine Or.inr (Or.inr ⟨rfl, ?_, by simp⟩)
      rintro ⟨before, path, node, after, other, hsplit, -⟩
      cases before <;> cases hsplit
  | cons m nodes ih =>
      obtain ⟨path, node⟩ := m
      obtain ⟨⟨other, hother⟩, hrest⟩ := List.forall_mem_cons.1 hpaths
      replace hother : document.get path = some other := hother
      rw [caughtFirst_cons hother]
      simp only [checkNodes, hother]
      rcases checkNode_cases (N := N) path node other with
        ⟨⟨e, he⟩, hcaught⟩ | ⟨he, hcrash⟩ | ⟨hok, hcaught, hcrash⟩
      · rw [he]
        exact Or.inl ⟨⟨e, rfl⟩, Or.inl hcaught⟩
      · rw [he]
        refine Or.inr (Or.inl ⟨rfl, ?_, (path, node), by simp, other, hother, hcrash⟩)
        rintro (hcaught | ⟨hnot, -⟩)
        · exact not_caught_of_crashes hcrash hcaught
        · exact hnot hcrash
      · rw [hok]
        have hpass : (Caught N node other ∨ ¬ Crashes node other ∧ CaughtFirst N document nodes) ↔
            CaughtFirst N document nodes := by simp [hcaught, hcrash]
        rw [hpass]
        rcases ih hrest with ⟨hm, hfirst⟩ | ⟨he, hfirst, m, hm, hcrashes⟩ | ⟨hok, hfirst, hall⟩
        · exact Or.inl ⟨hm, hfirst⟩
        · exact Or.inr (Or.inl ⟨he, hfirst, m, List.mem_cons_of_mem _ hm, hcrashes⟩)
        · refine Or.inr (Or.inr ⟨hok, hfirst, List.forall_mem_cons.2 ⟨fun o ho => ?_, hall⟩⟩)
          rw [hother] at ho
          cases ho
          exact ⟨hcaught, hcrash⟩

/-- Lists with equal images pair elements with equal images. -/
theorem eq_of_mem_zip {α β : Type} {f : α → β} {xs ys : List α} {x y : α}
    (h : xs.map f = ys.map f) (hmem : (x, y) ∈ xs.zip ys) : f x = f y := by
  induction xs generalizing ys with
  | nil => cases hmem
  | cons x' xs ih =>
      cases ys with
      | nil => cases hmem
      | cons y' ys =>
          obtain ⟨hhead, htail⟩ := List.cons.inj h
          rcases List.mem_cons.1 hmem with hpair | hmem
          · cases hpair
            exact hhead
          · exact ih htail hmem

/-- Equal arrays agree at every element. -/
theorem elementsAgree_of_arrayEqual {equalNan : Bool} {a b : ZarrArray δ ε}
    (h : arrayEqual N equalNan a b = true) :
    List.Forall₂ (ElementsAgree N) a.values b.values := by
  unfold arrayEqual at h
  split at h
  · cases h
  · next hshape =>
      have hlen : a.values.length = b.values.length := by
        rw [a.size, b.size, not_not.1 hshape]
      refine List.forall₂_iff_zip.2 ⟨hlen, fun {x y} hxy => ?_⟩
      split at h
      · split at h
        · cases h
        · next hnan =>
            have hboth := eq_of_mem_zip (not_not.1 hnan) hxy
            cases hx : N.isnan x with
            | true => exact Or.inr ⟨hx, hboth ▸ hx⟩
            | false =>
                refine Or.inl (List.all_eq_true.1 h (x, y) (List.mem_filter.2 ⟨hxy, ?_⟩))
                rw [hx]
                rfl
      · exact Or.inl (List.all_eq_true.1 h (x, y) hxy)

/-- A pair that passes agrees if and only if its nodes are of one kind and its attributes are
equal as JSON. -/
theorem nodesAgree_iff (hcaught : ¬ Caught N node other) :
    NodesAgree N node other ↔
      SameKind node other ∧ jsonEq other.attributes node.attributes = true := by
  cases node with
  | group a =>
      cases other with
      | group b =>
          constructor
          · rintro ⟨h⟩
            exact ⟨trivial, h⟩
          · exact fun h => .group h.2
      | array b =>
          refine iff_of_false (fun h => ?_) fun h => h.1
          cases h
  | array a =>
      cases other with
      | group b =>
          refine iff_of_false (fun h => ?_) fun h => h.1
          cases h
      | array b =>
          constructor
          · intro h
            cases h with
            | array hattributes => exact ⟨trivial, hattributes⟩
          · intro h
            rw [Caught, not_or] at hcaught
            have hequal : ¬ (a.shape ≠ b.shape ∨ a.dtype ≠ b.dtype ∨
                arrayEqual N (decide (N.kind a.dtype ∈ ['f', 'c'])) a b = false) :=
              fun hdiffer => hcaught.2 ⟨a, b, rfl, rfl, hdiffer⟩
            rw [not_or, not_or, not_not, not_not, Bool.not_eq_false] at hequal
            obtain ⟨hshape, hdtype, hvalues⟩ := hequal
            exact .array h.2 hshape hdtype (elementsAgree_of_arrayEqual hvalues)

theorem onlyIn_eq_nil_iff {a b : PyMembers (Node δ ε)} :
    onlyIn a b = [] ↔ ∀ path ∈ a.keys, path ∈ b.keys := by
  simp [onlyIn, List.filter_eq_nil_iff]

/-- The checks of two groups fail, crash or pass. -/
theorem verifyGroups_cases [DecidableEq δ] (document source : Group δ ε) :
    (∃ m, verifyGroups N document source = .error (.mismatch m)) ∧
        (dictEq document.attributes source.attributes = false ∨
          (∃ path, ¬ (path ∈ document.members.keys ↔ path ∈ source.members.keys)) ∨
          CaughtFirst N document.members source.members.entries) ∨
      (dictEq document.attributes source.attributes = true ∧
        (∀ path, path ∈ document.members.keys ↔ path ∈ source.members.keys) ∧
        ¬ CaughtFirst N document.members source.members.entries) ∧
        (verifyGroups N document source = .error .attributeError ∧
            (∃ path node other, source.members.get path = some node ∧
              document.members.get path = some other ∧ Crashes node other) ∨
          verifyGroups N document source = .ok () ∧
            ∀ path node other, source.members.get path = some node →
              document.members.get path = some other → ¬ Caught N node other) := by
  unfold verifyGroups
  cases hroot : dictEq document.attributes source.attributes with
  | false => exact Or.inl ⟨⟨_, rfl⟩, Or.inl rfl⟩
  | true =>
      simp only [not_true_eq_false, if_false]
      split
      · next hdiffer =>
          refine Or.inl ⟨⟨_, rfl⟩, Or.inr (Or.inl ?_)⟩
          rw [← not_and_or, onlyIn_eq_nil_iff, onlyIn_eq_nil_iff] at hdiffer
          rw [← not_forall]
          exact fun h => hdiffer ⟨fun path => (h path).2, fun path => (h path).1⟩
      · next hsame =>
          rw [not_or, not_not, not_not, onlyIn_eq_nil_iff, onlyIn_eq_nil_iff] at hsame
          have hpaths : ∀ path, path ∈ document.members.keys ↔ path ∈ source.members.keys :=
            fun path => ⟨hsame.2 path, hsame.1 path⟩
          have hother : ∀ m ∈ source.members.entries,
              ∃ other, document.members.get m.1 = some other := fun m hm =>
            Option.isSome_iff_exists.1 (Json.Members.get_isSome_iff.2
              (hsame.1 m.1 (List.mem_map_of_mem hm)))
          rcases checkNodes_cases (N := N) hother with
            ⟨hm, hfirst⟩ | ⟨he, hfirst, m, hm, other, hget, hcrash⟩ | ⟨hok, hfirst, hall⟩
          · exact Or.inl ⟨hm, Or.inr (Or.inr hfirst)⟩
          · exact Or.inr ⟨⟨trivial, hpaths, hfirst⟩, Or.inl ⟨he, m.1, m.2, other,
              Json.Members.get_of_mem hm, hget, hcrash⟩⟩
          · refine Or.inr ⟨⟨trivial, hpaths, hfirst⟩, Or.inr ⟨hok, fun path node other hnode hother => ?_⟩⟩
            exact (hall (path, node) (Json.Members.get_eq_some_iff.1 hnode) other hother).1

/-- `verify_document` is sound for a document and a source if and only if the document is a
group, and a check fails before a group is taken for an array, or else the nodes at every path
are of one kind and have attributes that are equal as JSON. -/
theorem verifyDocument_sound_iff [DecidableEq δ] (N : Numpy δ ε) (document : Hierarchy δ ε)
    (source : Group δ ε) : Sound N document source ↔ Tells N document source := by
  cases document with
  | array a =>
      refine iff_of_false (fun h => ?_) id
      obtain ⟨m, hm⟩ := h.2 id
      cases hm
  | group g =>
      show (verifyGroups N g source = .ok () → GroupsAgree N g source) ∧
          (¬ GroupsAgree N g source → ∃ m, verifyGroups N g source = .error (.mismatch m)) ↔
        GroupsTell N g source
      rcases verifyGroups_cases (N := N) g source with
        ⟨⟨m, hm⟩, hchecks⟩ | ⟨⟨hroot, hpaths, hfirst⟩, hcrash | hok⟩
      · refine iff_of_true ⟨fun hok => ?_, fun _ => ⟨m, hm⟩⟩ ?_
        · rw [hm] at hok
          cases hok
        · rcases hchecks with h | h | h
          · exact Or.inl h
          · exact Or.inr (Or.inl h)
          · exact Or.inr (Or.inr (Or.inl h))
      · obtain ⟨he, path, node, other, hnode, hother, -, a, b, rfl, rfl⟩ := hcrash
        refine iff_of_false (fun h => ?_) ?_
        · have hnot : ¬ GroupsAgree N g source := fun hg => by
            cases hg.nodes path _ _ hnode hother
          obtain ⟨m, hm⟩ := h.2 hnot
          rw [he] at hm
          cases hm
        · rintro (h | ⟨p, hp⟩ | h | ⟨-, h⟩)
          · rw [hroot] at h
            cases h
          · exact hp (hpaths p)
          · exact hfirst h
          · exact (h path _ _ hnode hother).1
      · obtain ⟨hok, hall⟩ := hok
        constructor
        · intro h
          have hagree := h.1 hok
          refine Or.inr (Or.inr (Or.inr ⟨hagree.attributes, fun path node other hnode hother => ?_⟩))
          exact (nodesAgree_iff (hall path node other hnode hother)).1
            (hagree.nodes path node other hnode hother)
        · rintro (h | ⟨p, hp⟩ | h | ⟨hattributes, h⟩)
          · rw [hroot] at h
            cases h
          · exact absurd (hpaths p) hp
          · exact absurd h hfirst
          · have hagree : GroupsAgree N g source := ⟨hattributes, hpaths,
              fun path node other hnode hother =>
                (nodesAgree_iff (hall path node other hnode hother)).2
                  (h path node other hnode hother)⟩
            exact ⟨fun _ => hagree, fun hnot => absurd hagree hnot⟩

/-! ## Where it is not -/

/-- Integers: every element is equal to itself only, and none is NaN. -/
def int64 : Numpy String ℤ := ⟨fun _ => 'i', fun i j => i == j, fun _ => false⟩

/-- An array with one element. -/
def oneElement : ZarrArray String ℤ := ⟨.empty, [1], "int64", [7], rfl⟩

/-- A group with a node at the path `a`. -/
def groupWith (node : Node String ℤ) : Group String ℤ := ⟨.empty, .ofList [(py "a", node)]⟩

/-- A group with one attribute, `flag`. -/
def flagged (value : PyValue) : Group String ℤ := ⟨.ofList [(py "flag", value)], .empty⟩

/-- An array at the path of a group is passed over, a group at the path of an array is no
mismatch but an `AttributeError`, and the attribute `True` is the attribute `1`. -/
theorem not_sound_kinds :
    (verifyDocument int64 (.group (groupWith (.array oneElement))) (groupWith (.group .empty))
          = .ok () ∧
        ¬ Sound int64 (.group (groupWith (.array oneElement))) (groupWith (.group .empty))) ∧
      (verifyDocument int64 (.group (groupWith (.group .empty))) (groupWith (.array oneElement))
          = .error .attributeError ∧
        ¬ Sound int64 (.group (groupWith (.group .empty))) (groupWith (.array oneElement))) ∧
      verifyDocument int64 (.group (flagged (.num (.int 1)))) (flagged (.bool true)) = .ok () ∧
        ¬ Sound int64 (.group (flagged (.num (.int 1)))) (flagged (.bool true)) := by
  refine ⟨⟨rfl, fun h => ?_⟩, ⟨rfl, fun h => ?_⟩, rfl, fun h => ?_⟩
  · have hnodes : NodesAgree int64 (.group .empty) (.array oneElement) :=
      (h.1 rfl).nodes (py "a") _ _ rfl rfl
    cases hnodes
  · obtain ⟨m, hm⟩ := h.2 fun hagree => by
      have hnodes : NodesAgree int64 (.array oneElement) (.group .empty) :=
        hagree.nodes (py "a") _ _ rfl rfl
      cases hnodes
    cases hm
  · have hattributes : jsonEq (flagged (.num (.int 1))).attributes (flagged (.bool true)).attributes = true :=
      (h.1 rfl).attributes
    cases hattributes

end

end Python
