/-
# Storing atoms

A description is first *resolved*: its types are looked up, and all that can be wrong with it is
found, before anything is stored.  Then its parts are stored from the leaves upward.  An atom that
is there already is found again by its content, so that a graph holds every content at most once.

The checks of one part come in a fixed order (depth, type name, kind of type, length of the name
or number of members), and a part is checked before its members, the members from left to right.
The first fault met is the one that is reported.
-/
import TypedHypergraph.Description
import TypedHypergraph.Graph.Basic

namespace TypedHypergraph

/-- What storing found or made. -/
structure Stored where
  handle : Handle
  /-- Whether the atom is new. -/
  created : Bool
  deriving DecidableEq, Repr

/-- A description whose types and handles have been looked up. -/
inductive Resolved
  | node (type : TypeId) (name : String)
  | link (type : TypeId) (members : List Resolved)
  | stored (handle : Handle)
  deriving Repr

namespace Graph

variable {digest : Content → UInt64}

/-! ## Checks -/

/-- The name of a type for a message. -/
def nameOfType (g : Graph digest) (type : TypeId) : String := (g.types.name? type).getD "?"

/-- Nodes of variable types and of link types are refused. -/
def checkNodeType (g : Graph digest) (type : TypeId) : Except Refusal Unit :=
  if g.types.isA type .variableNode then .error (.invalidAtom .variableType)
  else if g.types.allowsNodes type then .ok ()
  else .error (.invalidAtom (.linkType (g.nameOfType type)))

/-- Links of node types are refused. -/
def checkLinkType (g : Graph digest) (type : TypeId) : Except Refusal Unit :=
  if g.types.allowsLinks type then .ok ()
  else .error (.invalidAtom (.nodeType (g.nameOfType type)))

/-- Names that are too long are refused. -/
def checkName (name : String) : Except Refusal Unit :=
  if Limits.nodeNameBytes < name.utf8ByteSize then
    .error (.invalidAtom (.nameLength name.utf8ByteSize))
  else .ok ()

/-- Links with too many members are refused. -/
def checkArity (members : Nat) : Except Refusal Unit :=
  if Limits.arity < members then .error (.invalidAtom (.arity members)) else .ok ()

/-- The first handle of a list under which nothing is stored is refused. -/
def checkMembers (g : Graph digest) : List Handle → Except Refusal Unit
  | [] => .ok ()
  | h :: rest => if g.contains h then g.checkMembers rest else .error (.notFound h)

/-- Whether a content could be stored: its type is declared and suits it, and its members are
there. -/
def checkContent (g : Graph digest) (c : Content) : Except Refusal Unit := do
  unless g.types.contains c.type do
    throw (.typeIdUndeclared c.type)
  match c with
  | .node type name =>
    g.checkNodeType type
    checkName name
  | .link type members =>
    g.checkLinkType type
    checkArity members.length
    g.checkMembers members

/-! ## Resolving -/

mutual

/-- Look up the types and handles of a part of a description that stands at a given depth. -/
def resolve (g : Graph digest) (depth : Nat) : Description → Except Refusal Resolved
  | .node typeName name => do
    if Limits.depth < depth then
      throw (.invalidAtom .depth)
    let type ← g.types.resolve typeName
    g.checkNodeType type
    checkName name
    return .node type name
  | .link typeName members => do
    if Limits.depth < depth then
      throw (.invalidAtom .depth)
    let type ← g.types.resolve typeName
    g.checkLinkType type
    checkArity members.length
    return .link type (← g.resolveAll (depth + 1) members)
  | .stored h => do
    if Limits.depth < depth then
      throw (.invalidAtom .depth)
    unless g.contains h do
      throw (.notFound h)
    return .stored h

/-- Resolve descriptions that stand side by side, from left to right. -/
def resolveAll (g : Graph digest) (depth : Nat) :
    List Description → Except Refusal (List Resolved)
  | [] => return []
  | d :: rest => do
    let r ← g.resolve depth d
    let rs ← g.resolveAll depth rest
    return r :: rs

end

/-! ## Storing -/

/-- Find the atom with a content, or store it under the next handle. -/
def intern (g : Graph digest) (c : Content) : Stored × Graph digest :=
  match g.lookup c with
  | some h => (⟨h, false⟩, g)
  | none =>
    let h : Handle := ⟨g.nextHandle⟩
    (⟨h, true⟩,
      { types := g.types
        atoms := g.atoms.insert h ⟨c, none⟩
        byType := g.byType.insert c.type h
        byDigest := g.byDigest.insert (digest c) h
        incidence := (g.incidence.register h).addLink h c.members
        nextHandle := min (g.nextHandle + 1) Limits.lastHandle })

mutual

/-- Store a resolved description, members before the link that contains them. -/
def store (g : Graph digest) : Resolved → Stored × Graph digest
  | .node type name => g.intern (.node type name)
  | .link type members =>
    let (handles, g) := g.storeAll members
    g.intern (.link type handles)
  | .stored h => (⟨h, false⟩, g)

/-- Store resolved descriptions from left to right and give their handles. -/
def storeAll (g : Graph digest) : List Resolved → List Handle × Graph digest
  | [] => ([], g)
  | r :: rest =>
    let (outcome, g) := g.store r
    let (handles, g) := g.storeAll rest
    (outcome.handle :: handles, g)

end

/-- Store what a description says.  A truth value that comes with it is merged into the atom of
the whole description, new or not. -/
def insert (d : Description) (truth : Option Truth) : Update digest Stored := fun g =>
  match g.resolve 0 d with
  | .error refusal => .error refusal g
  | .ok resolved =>
    let (outcome, g) := g.store resolved
    match truth with
    | none => .ok outcome g
    | some observation =>
      match revise outcome.handle observation g with
      | .ok _ g => .ok outcome g
      | .error refusal g => .error refusal g

/-- Store an atom by its content. -/
def insertContent (c : Content) : Update digest Stored := fun g =>
  match g.checkContent c with
  | .error refusal => .error refusal g
  | .ok () =>
    let (outcome, g) := g.intern c
    .ok outcome g

/-- Store a node by the name of its type. -/
def addNode (typeName name : String) : Update digest Handle := do
  return (← insert (.node typeName name) none).handle

/-- Store a link over stored atoms. -/
def addLink (typeName : String) (members : List Handle) : Update digest Handle := do
  let type ← MonadExcept.ofExcept ((← get).types.resolve typeName)
  return (← insertContent (.link type members)).handle

end Graph

end TypedHypergraph
