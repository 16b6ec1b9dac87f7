/-
# The tree of types

The types of atoms form a tree under the root `Atom`, which can grow but never shrinks.  Each
type knows its parent and its children.  A type and all its ancestors are its *lineage*; one type
is a kind of another if the other stands in its lineage.

Four types are there from the beginning: `Atom`, below it `Node` and `Link`, and below `Node` the
type of pattern variables.
-/
import TypedHypergraph.Content
import TypedHypergraph.Error

namespace TypedHypergraph

/-- A declared type.  Only the root has no parent. -/
structure TypeEntry where
  id : TypeId
  name : String
  parent : Option TypeId
  deriving DecidableEq, Repr

/-- The declared types, in the order of their declaration. -/
structure TypeTree where
  entries : Array TypeEntry
  /-- For each type the types declared directly under it, oldest first. -/
  offspring : Array (List TypeId)
  byName : Std.TreeMap String TypeId

namespace TypeTree

/-! ## Growth -/

/-- The tree without any type. -/
def bare : TypeTree := ⟨#[], #[], ∅⟩

/-- The identifier that the next declared type gets: the number of the types so far.  It does not
wrap around, as one of 32 bits would after 2^32 types. -/
def nextId (t : TypeTree) : TypeId := ⟨t.entries.size⟩

/-- Append a type whose name is new. -/
def push (t : TypeTree) (name : String) (parent : Option TypeId) : TypeTree :=
  let offspring := t.offspring.push []
  { entries := t.entries.push ⟨t.nextId, name, parent⟩
    offspring :=
      match parent with
      | some p => offspring.modify p.index (· ++ [t.nextId])
      | none => offspring
    byName := t.byName.insert name t.nextId }

/-- The tree that holds the four types of the beginning. -/
def builtin : TypeTree :=
  (((bare.push "Atom" none).push "Node" (some .atom)).push "Link" (some .atom)).push
    "VariableNode" (some .node)

/-! ## Reading -/

/-- The type that has a name. -/
def get? (t : TypeTree) (name : String) : Option TypeId := t.byName[name]?

/-- The type of a name that has to be declared. -/
def resolve (t : TypeTree) (name : String) : Except Refusal TypeId :=
  match t.get? name with
  | some id => .ok id
  | none => .error (.typeUndeclared name)

/-- The name of a type. -/
def name? (t : TypeTree) (id : TypeId) : Option String := t.entries[id.index]?.map (·.name)

/-- The parent of a type, which the root lacks. -/
def parent? (t : TypeTree) (id : TypeId) : Option TypeId := t.entries[id.index]?.bind (·.parent)

/-- Whether a type is declared. -/
def contains (t : TypeTree) (id : TypeId) : Bool := decide (id.index < t.entries.size)

/-- The types declared directly under a type, oldest first. -/
def children (t : TypeTree) (id : TypeId) : List TypeId := t.offspring[id.index]?.getD []

/-- The number of declared types. -/
def size (t : TypeTree) : Nat := t.entries.size

/-! ## Declaring -/

/-- Declare a type under a parent, which is the root if none is named.  To declare a type again
under the same parent gives the type that is there; another parent is refused. -/
def declare (t : TypeTree) (name : String) (parent : Option String) :
    Except Refusal (TypeId × TypeTree) := do
  if name.isEmpty || Limits.typeNameBytes < name.utf8ByteSize then
    throw (.invalidAtom .typeNameLength)
  let parentId ←
    match parent with
    | some p => t.resolve p
    | none => pure .atom
  match t.get? name with
  | some id =>
    if t.parent? id = some parentId then
      return (id, t)
    else
      throw (.typeConflict name ((t.parent? id).bind t.name?))
  | none => return (t.nextId, t.push name (some parentId))

/-! ## Lineage -/

/-- A type and its first ancestors, youngest first, as many as the fuel allows. -/
def climb (t : TypeTree) : Nat → TypeId → List TypeId
  | 0, _ => []
  | fuel + 1, id =>
    id ::
      match t.parent? id with
      | some p => climb t fuel p
      | none => []

/-- A type and all its ancestors, youngest first.  Parents are declared before their children, so
a lineage has at most as many members as there are types. -/
def lineage (t : TypeTree) (id : TypeId) : List TypeId := t.climb (t.size + 1) id

/-- Whether a type is another one or descends from it. -/
def isA (t : TypeTree) (id ancestor : TypeId) : Bool := decide (ancestor ∈ t.lineage id)

/-- The types of a queue with all their descendants, generation by generation, as many as the
fuel allows. -/
def gather (t : TypeTree) : Nat → List TypeId → List TypeId
  | 0, _ => []
  | _ + 1, [] => []
  | fuel + 1, id :: queue => id :: gather t fuel (queue ++ t.children id)

/-- A type and all its descendants, in the order of declaration; nothing for a type that is not
declared. -/
def subtypes (t : TypeTree) (id : TypeId) : List TypeId :=
  if t.contains id then (t.gather t.size [id]).mergeSort (fun a b => decide (a ≤ b)) else []

/-- Whether atoms of a type can have a name. -/
def allowsNodes (t : TypeTree) (id : TypeId) : Bool := !t.isA id .link && !t.isA id .variableNode

/-- Whether atoms of a type can have members. -/
def allowsLinks (t : TypeTree) (id : TypeId) : Bool := !t.isA id .node

end TypeTree

/-! ## Declarations -/

/-- A type to be declared: its name and the name of its parent. -/
structure TypeDeclaration where
  name : String
  parent : Option String
  deriving DecidableEq, Repr

namespace TypeTree

/-- The name of the parent of an entry, looked up among all entries. -/
def parentName (entries : List TypeEntry) (entry : TypeEntry) : Option String :=
  (entry.parent.bind fun p => entries.find? (·.id = p)).map (·.name)

/-- All types as the declarations that made them; the root stands first and has no parent. -/
def declarations (t : TypeTree) : List TypeDeclaration :=
  let entries := t.entries.toList
  entries.map fun e => ⟨e.name, parentName entries e⟩

/-! ## Outline -/

/-- The lines of a type and of its descendants, one generation for each unit of fuel. -/
def outlineFrom (entries : List TypeEntry) : Nat → Nat → TypeEntry → List String
  | 0, _, _ => []
  | fuel + 1, level, entry =>
    (String.join (List.replicate level "  ") ++ entry.name) ::
      (entries.filter (·.parent = some entry.id)).flatMap
        (fun child => outlineFrom entries fuel (level + 1) child)

/-- One line for each type, parents before children and indented by two blanks for each
ancestor. -/
def outline (t : TypeTree) : List String :=
  let entries := t.entries.toList
  (entries.filter (·.parent = none)).flatMap (outlineFrom entries entries.length 0)

end TypeTree

end TypedHypergraph
