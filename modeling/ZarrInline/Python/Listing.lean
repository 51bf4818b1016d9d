import ZarrInline.Backed.KeyMap
import ZarrInline.Python.Conversion
import ZarrInline.Text.Directory

/-!
# Reading parts of the Python store and listing it

The rest of `store.py`: byte ranges, and the generators that list keys.  A generator takes the
lock once, when it is first asked for a name, and goes on with the keys there were then.

`list_dir` gives the names right below a directory.  A name is that of a key, or is on the way
to keys, or both (`mem_childNames_iff`).
-/

namespace Python

variable {β ε : Type}

/-! ## Byte ranges -/

/-- `ByteRequest`. -/
inductive ByteRequest where
  | range (start stop : ℤ)
  | offset (offset : ℤ)
  | suffix (suffix : ℤ)

/-- The index that a bound of a slice stands for: a negative one counts from the end. -/
def sliceIndex (len : ℕ) (i : ℤ) : ℕ := if i < 0 then (i + len).toNat else min i.toNat len

/-- `data[start:stop]`. -/
def slice (data : Bytes) (start stop : ℤ) : Bytes :=
  (data.take (sliceIndex data.length stop)).drop (sliceIndex data.length start)

/-- `_apply_byte_range`. -/
def applyByteRange (data : Bytes) : Option ByteRequest → Bytes
  | none => data
  | some (.range start stop) => slice data start stop
  | some (.offset offset) => slice data offset data.length
  | some (.suffix suffix) => slice data (max 0 (data.length - suffix)) data.length

/-- `get`, with a byte range. -/
def Store.getRange (I : Interpreter) (s : Store β) (key : PyString) (byteRange : Option ByteRequest) :
    Except (StoreError ε) (Option Bytes) :=
  (s.get I key).map fun data => data.map fun bytes => applyByteRange bytes byteRange

/-- `get_partial_values`, with nothing between its calls of `get`. -/
def Store.getPartialValues (I : Interpreter) (s : Store β)
    (keyRanges : List (PyString × Option ByteRequest)) :
    Except (StoreError ε) (List (Option Bytes)) :=
  keyRanges.mapM fun kr => s.getRange I kr.1 kr.2

/-! ## Calls -/

/-- The calls that return at once. -/
inductive Call where
  | op (op : Op)
  | getRange (key : PyString) (byteRange : Option ByteRequest)
  | getPartialValues (keyRanges : List (PyString × Option ByteRequest))

/-- What a call returns or raises. -/
inductive Answer (ε : Type) where
  | reply (r : Reply ε)
  | values (r : Except (StoreError ε) (List (Option Bytes)))

/-- The answer of `get`. -/
def Answer.ofGet : Except (StoreError ε) (Option Bytes) → Answer ε
  | .ok data => .reply (.bytes data)
  | .error e => .reply (.failed e)

/-- The store with all its calls. -/
def callMachine (I : Interpreter) (B : Backing β ε) : Transition.Machine (Store β) Call (Answer ε) where
  step := fun s call =>
    match call with
    | .op op => (((storeMachine I B).step s op).1, .reply ((storeMachine I B).step s op).2)
    | .getRange key byteRange => (s, .ofGet (s.getRange I key byteRange))
    | .getPartialValues keyRanges => (s, .values (s.getPartialValues I keyRanges))

/-! ## Listing -/

/-- The separator of keys. -/
def slash : ℕ := '/'.toNat

/-- The calls that return a generator. -/
inductive ListRequest where
  | list
  | listPrefix (dir : PyString)
  | listDir (dir : PyString)

/-- The prefix of the keys below a directory. -/
def dirPrefix (dir : PyString) : PyString :=
  if dir ≠ [] ∧ dir.getLast? ≠ some slash then dir ++ [slash] else dir

/-- `remainder.split("/", 1)[0]`, for a key below the directory. -/
def childName (dir key : PyString) : PyString := (key.drop dir.length).takeWhile (· ≠ slash)

/-- A generator that has its keys: `list` and `list_prefix` go on with `rest`, and `list_dir`
skips the names it has `seen`. -/
inductive Generator where
  | keys (rest : List PyString)
  | children (dir : PyString) (seen rest : List PyString)

/-- The body of a generator up to its first `yield`, under the lock. -/
def ListRequest.begin (s : Store β) : ListRequest → Generator
  | .list => .keys s.keys
  | .listPrefix dir => .keys (s.keys.filter fun key => dir.isPrefixOf key)
  | .listDir dir => .children (dirPrefix dir) [] s.keys

/-- The loop of `list_dir` up to its next `yield`. -/
def nextChild (dir : PyString) (seen : List PyString) : List PyString → Option PyString × Generator
  | [] => (none, .children dir seen [])
  | key :: rest =>
      if dir.isPrefixOf key ∧ childName dir key ≠ [] ∧ childName dir key ∉ seen then
        (some (childName dir key), .children dir (childName dir key :: seen) rest)
      else nextChild dir seen rest

/-- `__anext__`. -/
def Generator.next : Generator → Option PyString × Generator
  | .keys [] => (none, .keys [])
  | .keys (key :: rest) => (some key, .keys rest)
  | .children dir seen rest => nextChild dir seen rest

/-! ## What a generator gives -/

/-- The names that a loop of `list_dir` gives. -/
def childNames (dir : PyString) : List PyString → List PyString → List PyString
  | _, [] => []
  | seen, key :: rest =>
      if dir.isPrefixOf key ∧ childName dir key ≠ [] ∧ childName dir key ∉ seen then
        childName dir key :: childNames dir (childName dir key :: seen) rest
      else childNames dir seen rest

/-- The names that a generator gives. -/
def Generator.names : Generator → List PyString
  | .keys rest => rest
  | .children dir seen rest => childNames dir seen rest

theorem nextChild_names (dir : PyString) (seen rest : List PyString) :
    (nextChild dir seen rest).1 = (childNames dir seen rest).head? ∧
      (nextChild dir seen rest).2.names = (childNames dir seen rest).tail := by
  induction rest with
  | nil => exact ⟨rfl, rfl⟩
  | cons key rest ih =>
      rw [nextChild, childNames]
      split
      · exact ⟨rfl, rfl⟩
      · exact ih

theorem Generator.next_names (g : Generator) :
    g.next.1 = g.names.head? ∧ g.next.2.names = g.names.tail := by
  cases g with
  | keys rest => cases rest <;> exact ⟨rfl, rfl⟩
  | children dir seen rest => exact nextChild_names dir seen rest

/-! ## The names right below a directory -/

variable {dir child key : PyString} {seen rest : List PyString}

/-- A key is below the directory through a name: it is the name's, or goes on below it. -/
def IsThrough (dir child key : PyString) : Prop :=
  key = dir ++ child ∨ dir ++ child ++ [slash] <+: key

theorem childName_eq_iff (hdir : dir <+: key) :
    childName dir key = child ↔ slash ∉ child ∧ IsThrough dir child key := by
  obtain ⟨tail, rfl⟩ := hdir
  rw [childName, List.drop_left]
  constructor
  · rintro rfl
    refine ⟨Text.sep_notMem_takeWhile, ?_⟩
    have hsplit : tail.takeWhile (· ≠ slash) ++ tail.dropWhile (· ≠ slash) = tail := List.takeWhile_append_dropWhile
    cases hdrop : tail.dropWhile (· ≠ slash) with
    | nil =>
        rw [hdrop, List.append_nil] at hsplit
        exact .inl (congrArg (dir ++ ·) hsplit.symm)
    | cons c after =>
        have hc : c = slash := by
          have hhead := List.head?_dropWhile_not (· ≠ slash) tail
          rw [hdrop] at hhead
          simpa using hhead
        rw [hdrop, hc] at hsplit
        refine .inr ⟨after, ?_⟩
        conv_rhs => rw [← hsplit]
        simp
  · rintro ⟨hchild, heq | ⟨after, hafter⟩⟩
    · obtain rfl := List.append_cancel_left heq
      exact List.takeWhile_eq_self_iff.2 fun c hc => by simpa using fun heq : c = slash => hchild (heq ▸ hc)
    · have htail : tail = child ++ slash :: after :=
        List.append_cancel_left (hafter.symm.trans (by simp) : dir ++ tail = dir ++ (child ++ slash :: after))
      rw [htail, List.takeWhile_append_of_pos fun c hc => by simpa using fun heq : c = slash => hchild (heq ▸ hc)]
      simp

/-- A loop gives the names that it has not seen. -/
theorem mem_childNames : child ∈ childNames dir seen rest ↔
    (child ≠ [] ∧ child ∉ seen) ∧ ∃ key ∈ rest, dir <+: key ∧ childName dir key = child := by
  induction rest generalizing seen with
  | nil => simp [childNames]
  | cons key rest ih =>
      have hkeys : (∃ k ∈ key :: rest, dir <+: k ∧ childName dir k = child) ↔
          (dir <+: key ∧ childName dir key = child) ∨ ∃ k ∈ rest, dir <+: k ∧ childName dir k = child :=
        by simp
      rw [childNames, hkeys]
      split
      · next hnew =>
          obtain ⟨hdir, hne, hseen⟩ := hnew
          rw [List.mem_cons, ih, List.mem_cons, not_or]
          constructor
          · rintro (rfl | ⟨⟨hchild, -, hnot⟩, hrest⟩)
            · exact ⟨⟨hne, hseen⟩, .inl ⟨List.isPrefixOf_iff_prefix.1 hdir, rfl⟩⟩
            · exact ⟨⟨hchild, hnot⟩, .inr hrest⟩
          · rintro ⟨⟨hchild, hnot⟩, ⟨-, heq⟩ | hrest⟩
            · exact .inl heq.symm
            · rcases eq_or_ne child (childName dir key) with heq | hother
              · exact .inl heq
              · exact .inr ⟨⟨hchild, hother, hnot⟩, hrest⟩
      · next hold =>
          rw [ih]
          refine and_congr_right fun hchild => ⟨.inr, ?_⟩
          rintro (⟨hdir, rfl⟩ | hrest)
          · exact absurd ⟨List.isPrefixOf_iff_prefix.2 hdir, hchild⟩ hold
          · exact hrest

theorem nodup_childNames : (childNames dir seen rest).Nodup := by
  induction rest generalizing seen with
  | nil => exact List.nodup_nil
  | cons key rest ih =>
      rw [childNames]
      split
      · exact List.nodup_cons.2 ⟨fun h => (mem_childNames.1 h).1.2 List.mem_cons_self, ih⟩
      · exact ih

/-- The names that `list_dir` gives: those through which a live key is below the directory. -/
theorem mem_listDir_iff {s : Store β} : child ∈ (ListRequest.begin s (.listDir dir)).names ↔
    child ≠ [] ∧ slash ∉ child ∧ ∃ key ∈ s.keys, IsThrough (dirPrefix dir) child key := by
  have hbelow : ∀ key, IsThrough (dirPrefix dir) child key → dirPrefix dir <+: key := by
    rintro key (rfl | hpre)
    · exact List.prefix_append _ _
    · exact ((List.prefix_append _ _).trans (List.prefix_append _ _)).trans hpre
  refine mem_childNames.trans ?_
  rw [and_iff_left List.not_mem_nil]
  refine and_congr_right fun _ => ?_
  constructor
  · rintro ⟨key, hkey, hdir, hname⟩
    obtain ⟨hchild, hthrough⟩ := (childName_eq_iff hdir).1 hname
    exact ⟨hchild, key, hkey, hthrough⟩
  · rintro ⟨hchild, key, hkey, hthrough⟩
    exact ⟨key, hkey, hbelow key hthrough, (childName_eq_iff (hbelow key hthrough)).2 ⟨hchild, hthrough⟩⟩

end Python
