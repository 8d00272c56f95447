import FlutterScaffold.Path.Basic

/-!
# File trees

A file tree holds what stands at each place: a directory, a file with its bytes, a symbolic link
with its target, or a device. A place is the list of names that leads from the entry up to the root,
so the parent of a place is its tail. All but directories are numbered objects, and one object may
stand at several places: its bytes are kept under its number and show at all of them.

`slot?_change` says that a change of a name shows at its own place and below it only, and
`get?_rewrite` that new bytes show wherever the object stands.
-/

namespace FlutterScaffold.Disk

/-- A place of a tree: its name, the name of its directory, and so on up to the root. -/
abbrev Place := List Text

/-- A place as a path from the root. -/
def pathOf (place : Place) : Path := Byte.slash :: List.intercalate Path.separator place.reverse

/-- Something that can be written to but keeps nothing. -/
inductive Device where
  /-- Takes every byte, and reads as empty. -/
  | null
  /-- Has no room for a single byte. -/
  | full
  deriving DecidableEq, Repr

/-- What stands at a place. -/
inductive Entry where
  | directory
  | file (content : Text)
  | link (target : Path)
  | device (device : Device)
  deriving DecidableEq, Repr

/-- What an object is; the bytes of a file, which can change, are kept elsewhere. -/
inductive Kind where
  | file
  | link (target : Path)
  | device (device : Device)
  deriving DecidableEq, Repr

/-- What a name stands for: a directory of its own, or an object, which may have other names. -/
inductive Slot where
  | directory
  | object (number : Nat) (kind : Kind)
  deriving DecidableEq, Repr

/-- The slot of an entry whose object gets a number. -/
def Entry.slot (number : Nat) : Entry → Slot
  | .directory => .directory
  | .file _ => .object number .file
  | .link target => .object number (.link target)
  | .device kept => .object number (.device kept)

/-- The names in a directory, each with what it stands for and the names inside of that. -/
inductive Listing where
  | nil
  | cons (name : Text) (slot : Slot) (inside more : Listing)
  deriving DecidableEq, Repr

/-- A slot with the names inside of it, of which only a directory has any. -/
abbrev Node := Slot × Listing

/-- A number above that of the object in a slot. -/
def Slot.bound : Slot → Nat
  | .directory => 0
  | .object number _ => number + 1

namespace Listing

/-- What a name stands for. -/
def find? (name : Text) : Listing → Option Node
  | nil => none
  | cons other slot inside more => if other = name then some (slot, inside) else more.find? name

/-- The listing without a name. -/
def without (name : Text) : Listing → Listing
  | nil => nil
  | cons other slot inside more =>
    if other = name then more.without name else cons other slot inside (more.without name)

/-- The listing in which a name stands for something else, or for nothing any more. -/
def set (name : Text) (value : Option Node) (listing : Listing) : Listing :=
  match value with
  | none => listing.without name
  | some (slot, inside) => cons name slot inside (listing.without name)

/-- The places of a listing that stands at a place. -/
def places (here : Place) : Listing → List Place
  | nil => []
  | cons name _ inside more => (name :: here) :: (inside.places (name :: here) ++ more.places here)

/-- The names of a listing, without what is inside of them. -/
def names : Listing → List Text
  | nil => []
  | cons name _ _ more => name :: more.names

/-- A number above those of all objects in a listing. -/
def bound : Listing → Nat
  | nil => 0
  | cons _ slot inside more => max slot.bound (max inside.bound more.bound)

private theorem find?_without (name other : Text) (listing : Listing) :
    (listing.without name).find? other = if other = name then none else listing.find? other := by
  induction listing with
  | nil => simp [without, find?]
  | cons key slot inside more _ ih =>
    by_cases hk : key = name <;> by_cases ho : other = name <;> by_cases hko : key = other <;>
      simp_all [without, find?]

/-- A name shows what it was set to, and any other name what it showed before. -/
theorem find?_set (name other : Text) (value : Option Node) (listing : Listing) :
    (listing.set name value).find? other = if other = name then value else listing.find? other := by
  unfold set
  cases value with
  | none => exact find?_without name other listing
  | some v =>
    by_cases ho : other = name
    · simp [find?, ho]
    · simp [find?, ho, Ne.symm ho, find?_without]

/-- What a name stands for is bounded with the listing. -/
theorem bound_le_of_find? {listing : Listing} {name : Text} {node : Node}
    (h : listing.find? name = some node) :
    node.1.bound ≤ listing.bound ∧ node.2.bound ≤ listing.bound := by
  induction listing with
  | nil => cases h
  | cons other slot inside more _ ih =>
    rw [find?] at h
    split at h
    · obtain rfl := Option.some.inj h
      simp only [bound]
      omega
    · obtain ⟨hslot, hinside⟩ := ih h
      simp only [bound]
      omega

end Listing

namespace Node

/-- What a path of names leads to from a node, outermost name first. -/
def at? : List Text → Option Node → Option Node
  | [], node => node
  | name :: rest, node => at? rest (node.bind fun found => found.2.find? name)

/-- The node with something else at the end of a path of names. Nothing changes when nothing stands
above that end. -/
def setAt (value : Option Node) : List Text → Option Node → Option Node
  | [], _ => value
  | _ :: _, none => none
  | name :: rest, some (slot, inside) =>
    some (slot, inside.set name (setAt value rest (inside.find? name)))

/-- A walk down a node goes on where its first part ends. -/
theorem at?_append (path more : List Text) (node : Option Node) :
    at? (path ++ more) node = at? more (at? path node) := by
  induction path generalizing node with
  | nil => rfl
  | cons name rest ih => exact ih _

/-- Nothing leads on from nothing. -/
theorem at?_none (path : List Text) : at? path none = none := by
  induction path with
  | nil => rfl
  | cons name rest ih => exact ih

/-- A change shows at the end of its path when something stands above that end. -/
theorem at?_setAt_self {path : List Text} {name : Text} {node : Option Node} (value : Option Node)
    (h : (at? path node).isSome) :
    at? (path ++ [name]) (setAt value (path ++ [name]) node) = value := by
  induction path generalizing node with
  | nil =>
    cases node with
    | none => cases h
    | some found => simp [at?, setAt, Listing.find?_set]
  | cons first rest ih =>
    cases node with
    | none => simp [at?, at?_none] at h
    | some found => simpa [at?, setAt, Listing.find?_set] using ih (by simpa [at?] using h)

/-- A change shows nowhere but at the end of its path and below. -/
theorem at?_setAt_of_not_prefix {path other : List Text} (node value : Option Node)
    (h : ¬ path <+: other) :
    (at? other (setAt value path node)).map (·.1) = (at? other node).map (·.1) := by
  induction path generalizing node other with
  | nil => exact absurd List.nil_prefix h
  | cons name rest ih =>
    cases node with
    | none => rfl
    | some found =>
      cases other with
      | nil => rfl
      | cons first more =>
        by_cases hn : first = name
        · subst hn
          have : ¬ rest <+: more := fun hp => h (List.cons_prefix_cons.mpr ⟨rfl, hp⟩)
          simpa [at?, setAt, Listing.find?_set] using ih (found.2.find? first) this
        · simp [at?, setAt, Listing.find?_set, hn]

/-- What a path leads to is bounded with the node that it starts from. -/
theorem bound_le_of_at? {path : List Text} {node found : Node}
    (h : at? path (some node) = some found) :
    found.1.bound ≤ max node.1.bound node.2.bound ∧
      found.2.bound ≤ max node.1.bound node.2.bound := by
  induction path generalizing node with
  | nil =>
    obtain rfl := Option.some.inj h
    omega
  | cons name rest ih =>
    change at? rest (node.2.find? name) = some found at h
    cases hname : node.2.find? name with
    | none => simp [hname, at?_none] at h
    | some inner =>
      rw [hname] at h
      have hinner := Listing.bound_le_of_find? hname
      have hfound := ih h
      omega

end Node

/-- A file tree: the names in its root, and the bytes of files by their numbers. -/
structure Tree where
  of ::
  root : Listing := .nil
  contents : List (Nat × Text) := []
  deriving DecidableEq, Repr

/-- The directory of the devices, with the devices in it. -/
def devices : Listing :=
  .cons (lit "dev") .directory
    (.cons (lit "null") (.object 1 (.device .null)) .nil
      (.cons (lit "full") (.object 0 (.device .full)) .nil .nil)) .nil

namespace Tree

/-- A tree whose files, if there are any, are empty. -/
def mk (root : Listing) : Tree := { root := root }

/-- The root as a node. -/
def top (tree : Tree) : Option Node := some (.directory, tree.root)

/-- What the name of a place stands for, with the names inside of it. -/
def node? (tree : Tree) (place : Place) : Option Node := Node.at? place.reverse tree.top

/-- What the name of a place stands for. -/
def slot? (tree : Tree) (place : Place) : Option Slot := (tree.node? place).map (·.1)

/-- The bytes under a number. -/
def content (tree : Tree) (number : Nat) : Text := (tree.contents.lookup number).getD []

/-- What a slot holds. -/
def entryOf (tree : Tree) : Slot → Entry
  | .directory => .directory
  | .object number .file => .file (tree.content number)
  | .object _ (.link target) => .link target
  | .object _ (.device device) => .device device

/-- What stands at a place. -/
def get? (tree : Tree) (place : Place) : Option Entry := (tree.slot? place).map tree.entryOf

/-- The names inside of a place. -/
def inside (tree : Tree) (place : Place) : Listing :=
  match tree.node? place with
  | some (_, names) => names
  | none => .nil

/-- The tree in which the name of a place below the root stands for something else. -/
def change (tree : Tree) (place : Place) (value : Option Node) : Tree :=
  match Node.setAt value place.reverse tree.top with
  | some (_, root) => { tree with root := root }
  | none => tree

/-- The tree with bytes under a number. -/
def store (tree : Tree) (number : Nat) (content : Text) : Tree :=
  { tree with contents := (number, content) :: tree.contents.filter (·.1 != number) }

/-- A number that no object of a tree has. -/
def fresh (tree : Tree) : Nat := tree.root.bound

/-- The tree with the bytes of an entry under a number, if it has any. -/
def hold (tree : Tree) (number : Nat) : Entry → Tree
  | .file content => tree.store number content
  | _ => tree

/-- The tree with a new entry at a place, in the stead of what stood there. -/
def put (tree : Tree) (place : Place) (entry : Entry) : Tree :=
  (tree.hold tree.fresh entry).change place (some (entry.slot tree.fresh, .nil))

/-- The tree with other bytes in the file at a place, whatever its names. -/
def rewrite (tree : Tree) (place : Place) (content : Text) : Tree :=
  match tree.slot? place with
  | some (.object number .file) => tree.store number content
  | _ => tree

/-- The tree in which a place stands for an object as well, in the stead of what stood there. -/
def share (tree : Tree) (place : Place) (slot : Slot) : Tree :=
  tree.change place (some (slot, .nil))

/-- The tree in which something stands at a place and at all above it, directories where nothing
did. -/
def reach (tree : Tree) : Place → Tree
  | [] => tree
  | name :: above =>
    let tree := tree.reach above
    if (tree.get? (name :: above)).isSome then tree else tree.put (name :: above) .directory

/-- The tree without a place and all below it. -/
def erase (tree : Tree) (place : Place) : Tree := tree.change place none

/-- The tree in which what stood at a place stands at another one. -/
def move (tree : Tree) (old new : Place) : Tree :=
  match tree.slot? old with
  | some slot => (tree.erase old).share new slot
  | none => tree

/-- One object stands at two places. -/
def SameObject (tree : Tree) (place other : Place) : Prop :=
  tree.slot? place = tree.slot? other ∧ tree.slot? place ≠ none ∧
    tree.slot? place ≠ some .directory

instance (tree : Tree) (place other : Place) : Decidable (tree.SameObject place other) :=
  inferInstanceAs (Decidable (_ ∧ _ ∧ _))

/-- Whether anything stands in the directory at a place. -/
def hasChildren (tree : Tree) (place : Place) : Bool := tree.inside place != .nil

/-- The places strictly below a place. -/
def placesBelow (tree : Tree) (place : Place) : List Place := (tree.inside place).places place

/-! ## Changes of names -/

/-- A place is found in the listing of its parent. -/
theorem node?_cons (tree : Tree) (name : Text) (place : Place) :
    tree.node? (name :: place) = (tree.inside place).find? name := by
  unfold inside node?
  rw [List.reverse_cons, Node.at?_append]
  cases Node.at? place.reverse tree.top <;> rfl

/-- A change at a place other than the root is a change below the top. -/
private theorem top_change (tree : Tree) {place : Place} (value : Option Node) (h : place ≠ []) :
    (tree.change place value).top = Node.setAt value place.reverse tree.top := by
  unfold change top
  cases hp : place.reverse with
  | nil => exact absurd (List.reverse_eq_nil_iff.mp hp) h
  | cons name rest => rfl

@[simp] theorem contents_change (tree : Tree) (place : Place) (value : Option Node) :
    (tree.change place value).contents = tree.contents := by
  unfold change
  split <;> rfl

/-- What becomes of the names depends on the names only. -/
theorem root_change {tree tree' : Tree} (h : tree'.root = tree.root) (place : Place)
    (value : Option Node) : (tree'.change place value).root = (tree.change place value).root := by
  rw [change, change, top, top, h]
  split
  · rfl
  · exact h

/-- A change of a name changes no bytes. -/
theorem content_change (tree : Tree) (place : Place) (value : Option Node) :
    (tree.change place value).content = tree.content := by
  funext number
  rw [content, content, contents_change]

/-- A change of the slots leaves what the slots stand for. -/
theorem entryOf_change (tree : Tree) (place : Place) (value : Option Node) :
    (tree.change place value).entryOf = tree.entryOf := by
  funext slot
  unfold entryOf
  rw [content_change]

/-- A change of a name shows at its place, and changes nothing elsewhere but below it. -/
theorem slot?_change (tree : Tree) {place : Place} (value : Option Node) (other : Place)
    (hd : (tree.slot? place.tail).isSome) (hp : place ≠ [])
    (h : other = place ∨ ¬ place <:+ other) :
    (tree.change place value).slot? other =
      if other = place then value.map (·.1) else tree.slot? other := by
  unfold slot? node? at hd ⊢
  rw [top_change tree value hp]
  split
  · rename_i ho
    subst ho
    match other, hp with
    | name :: above, _ =>
      rw [List.reverse_cons, Node.at?_setAt_self value (by simpa using hd)]
  · rename_i ho
    have hs : ¬ place <:+ other := h.resolve_left ho
    exact Node.at?_setAt_of_not_prefix _ _ fun hr => hs (List.reverse_prefix.mp hr)

/-- Below a changed place stands what stands inside of the new value. -/
theorem node?_change_append (tree : Tree) {name : Text} {above : Place} (value : Option Node)
    (hd : (tree.slot? above).isSome) (more : Place) :
    (tree.change (name :: above) value).node? (more ++ name :: above) =
      Node.at? more.reverse value := by
  unfold slot? node? at hd
  rw [node?, top_change tree value (List.cons_ne_nil name above), List.reverse_append,
    List.reverse_cons, Node.at?_append, Node.at?_setAt_self value (by simpa using hd)]

/-! ## Changes of bytes -/

@[simp] theorem slot?_store (tree : Tree) (number : Nat) (content : Text) :
    (tree.store number content).slot? = tree.slot? := rfl

@[simp] theorem root_hold (tree : Tree) (number : Nat) (entry : Entry) :
    (tree.hold number entry).root = tree.root := by
  cases entry <;> rfl

@[simp] theorem slot?_hold (tree : Tree) (number : Nat) (entry : Entry) :
    (tree.hold number entry).slot? = tree.slot? := by
  cases entry <;> rfl

/-- Bytes stay under the other numbers. -/
theorem content_store (tree : Tree) (number other : Nat) (content : Text) :
    (tree.store number content).content other =
      if other = number then content else tree.content other := by
  have hother (l : List (Nat × Text)) (h : other ≠ number) :
      (l.filter (·.1 != number)).lookup other = l.lookup other := by
    induction l with
    | nil => rfl
    | cons pair l ih =>
      rw [List.filter_cons]
      split
      · rw [List.lookup_cons, List.lookup_cons, ih]
      · rename_i hsame
        obtain rfl : pair.1 = number := by simpa using hsame
        rw [List.lookup_cons, ih, beq_false_of_ne h]
  unfold Tree.content store
  rw [List.lookup_cons]
  split
  · rename_i heq
    simp [beq_iff_eq.mp heq]
  · rename_i hne
    have h : other ≠ number := by simpa using hne
    rw [if_neg h, hother _ h]

/-- The bytes under one number show in the slots of that file only. -/
theorem entryOf_store (tree : Tree) (number : Nat) (content : Text) (slot : Slot) :
    (tree.store number content).entryOf slot =
      if slot = .object number .file then .file content else tree.entryOf slot := by
  match slot with
  | .directory => rfl
  | .object other (.link target) => simp [entryOf]
  | .object other (.device device) => simp [entryOf]
  | .object other .file =>
    simp only [entryOf, content_store, Slot.object.injEq, and_true]
    split <;> rfl

/-- What holds an entry under a number shows it in the slot with that number. -/
theorem entryOf_hold_self (tree : Tree) (number : Nat) (entry : Entry) :
    (tree.hold number entry).entryOf (entry.slot number) = entry := by
  cases entry with
  | file content => simp [hold, Entry.slot, entryOf_store]
  | _ => rfl

/-- It changes no slot with a smaller number. -/
theorem entryOf_hold_of_bound (tree : Tree) {number : Nat} (entry : Entry) {slot : Slot}
    (h : slot.bound ≤ number) : (tree.hold number entry).entryOf slot = tree.entryOf slot := by
  cases entry with
  | file content =>
    rw [hold, entryOf_store, if_neg]
    rintro rfl
    exact absurd h (Nat.not_succ_le_self number)
  | _ => rfl

/-- The numbers of all objects are below a fresh one. -/
theorem bound_le_fresh {tree : Tree} {place : Place} {slot : Slot}
    (h : tree.slot? place = some slot) : slot.bound ≤ tree.fresh := by
  obtain ⟨node, hnode, rfl⟩ := Option.map_eq_some_iff.mp h
  have hbound := (Node.bound_le_of_at? hnode).1
  simpa [Slot.bound, fresh] using hbound

/-- The places of an object are those whose name stands for it. -/
theorem sameObject_iff {tree : Tree} {place other : Place} {number : Nat} {kind : Kind}
    (h : tree.slot? place = some (.object number kind)) :
    tree.SameObject other place ↔ tree.slot? other = some (.object number kind) := by
  rw [SameObject, h]
  refine ⟨And.left, fun heq => ⟨heq, ?_, ?_⟩⟩ <;> simp [heq]

/-- An object shows the same at all of its places. -/
theorem SameObject.get?_eq {tree : Tree} {place other : Place} (h : tree.SameObject other place) :
    tree.get? other = tree.get? place := congrArg (Option.map tree.entryOf) h.1

/-- A file stands in a slot of its own kind. -/
theorem exists_slot?_of_file {tree : Tree} {place : Place} {content : Text}
    (h : tree.get? place = some (.file content)) :
    ∃ number, tree.slot? place = some (.object number .file) := by
  obtain ⟨slot, hslot, hentry⟩ := Option.map_eq_some_iff.mp h
  match slot, hentry with
  | .object number .file, _ => exact ⟨number, hslot⟩

/-- New bytes show at every place of the object that they are put into. -/
theorem get?_rewrite {tree : Tree} {place : Place} {old : Text}
    (h : tree.get? place = some (.file old)) (new : Text) (other : Place) :
    (tree.rewrite place new).get? other =
      if tree.SameObject other place then some (.file new) else tree.get? other := by
  obtain ⟨number, hslot⟩ := exists_slot?_of_file h
  simp only [sameObject_iff hslot]
  rw [rewrite, hslot]
  unfold get?
  rw [slot?_store]
  cases tree.slot? other with
  | none => rfl
  | some slot =>
    simp only [Option.map_some, entryOf_store, Option.some.injEq]
    split <;> rfl

@[simp] theorem slot?_rewrite (tree : Tree) (place : Place) (content : Text) :
    (tree.rewrite place content).slot? = tree.slot? := by
  unfold rewrite
  split <;> rfl

/-! ## New entries -/

/-- A new entry shows in its slot. -/
theorem entryOf_put_self (tree : Tree) (place : Place) (entry : Entry) :
    (tree.put place entry).entryOf (entry.slot tree.fresh) = entry := by
  rw [put, entryOf_change, entryOf_hold_self]

/-- The bytes of a new file stand under its number. -/
theorem content_put_file (tree : Tree) (place : Place) (content : Text) (number : Nat) :
    (tree.put place (.file content)).content number =
      if number = tree.fresh then content else tree.content number := by
  rw [put, content_change, hold, content_store]

/-- A new entry changes nothing in the slots that there are. -/
theorem entryOf_put (tree : Tree) (place : Place) (entry : Entry) {other : Place} {slot : Slot}
    (h : tree.slot? other = some slot) :
    (tree.put place entry).entryOf slot = tree.entryOf slot := by
  rw [put, entryOf_change, entryOf_hold_of_bound tree entry (bound_le_fresh h)]

end Tree

end FlutterScaffold.Disk
