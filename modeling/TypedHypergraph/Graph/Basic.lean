/-
# Graphs

A typed hypergraph holds atoms under handles.  Handles are given out in ascending order and never
used again.  Beside the atoms it keeps three indices, by type, by digest of the content and by
member, which every change of the atoms brings up to date.

The digest by which contents are looked up is a parameter of the type of graphs: nothing in the
library depends on which function it is, nor on unequal contents having unequal digests.

An operation that may change a graph is an `Update`: it ends in a new graph and either a result
or a refusal.
-/
import TypedHypergraph.Content
import TypedHypergraph.Truth
import TypedHypergraph.TypeTree
import TypedHypergraph.Index.TypeBuckets
import TypedHypergraph.Index.DigestBuckets
import TypedHypergraph.Index.Incidence

namespace TypedHypergraph

/-- What a graph holds under a handle.  Without a truth value nothing is known of the atom.  The
digest of the content is computed where it is asked for and not held beside it: the content of a
record never changes, so a digest that is held would always be the one that is computed. -/
structure Record where
  content : Content
  truth : Option Truth

/-- A store of atoms: the types, the atoms by their handles, and three indices over the atoms by
type, by digest of the content, and by member. Handles are given out in ascending order. -/
structure Graph (digest : Content → UInt64) where
  types : TypeTree
  atoms : Std.TreeMap Handle Record
  byType : TypeBuckets
  byDigest : DigestBuckets
  incidence : Incidence
  /-- The number of the next atom. -/
  nextHandle : Nat

/-- An operation on a graph that can be refused. -/
abbrev Update (digest : Content → UInt64) (α : Type) := EStateM Refusal (Graph digest) α

namespace Graph

variable {digest : Content → UInt64}

/-- The graph without atoms, with the types of the beginning. -/
def empty : Graph digest := ⟨.builtin, ∅, .empty, .empty, .empty, 0⟩

/-! ## Single atoms -/

/-- The content of the atom under a handle. -/
def content? (g : Graph digest) (h : Handle) : Option Content := g.atoms[h]?.map (·.content)

/-- Whether there is an atom under a handle. -/
def contains (g : Graph digest) (h : Handle) : Bool := g.atoms.contains h

/-- The atom under a handle. -/
def atom (g : Graph digest) (h : Handle) : Except Refusal Atom :=
  match g.content? h with
  | some content => .ok ⟨h, content⟩
  | none => .error (.notFound h)

/-- The links that contain an atom, ascending. -/
def incoming (g : Graph digest) (h : Handle) : Except Refusal (List Handle) :=
  match g.incidence.get? h with
  | some links => .ok links
  | none => .error (.notFound h)

/-- The truth value of an atom; nothing if it is not known or there is no such atom. -/
def truth? (g : Graph digest) (h : Handle) : Option Truth := g.atoms[h]?.bind (·.truth)

/-- The truth value of a stored atom, if it is known. -/
def truth (g : Graph digest) (h : Handle) : Except Refusal (Option Truth) :=
  match g.atoms[h]? with
  | some record => .ok record.truth
  | none => .error (.notFound h)

/-! ## All atoms -/

/-- The handles of all atoms, ascending. -/
def handles (g : Graph digest) : List Handle := g.atoms.keys

/-- The number of atoms. -/
def size (g : Graph digest) : Nat := g.atoms.size

/-- All handles with what is held under them, ascending. -/
def records (g : Graph digest) : List (Handle × Record) := g.atoms.toList

/-! ## By content -/

/-- The handle of the atom with a content, if it is stored. -/
def lookup (g : Graph digest) (c : Content) : Option Handle :=
  (g.byDigest.candidates (digest c)).find? fun h => g.content? h = some c

/-- The handle of a node, if it is stored; the type has to be declared. -/
def findNode (g : Graph digest) (typeName name : String) : Except Refusal (Option Handle) := do
  let type ← g.types.resolve typeName
  return g.lookup (.node type name)

/-- The handle of a link, if it is stored; the type has to be declared. -/
def findLink (g : Graph digest) (typeName : String) (members : List Handle) :
    Except Refusal (Option Handle) := do
  let type ← g.types.resolve typeName
  return g.lookup (.link type members)

/-! ## By type -/

/-- The handles of the atoms of a type, ascending, on demand with those of its subtypes. -/
def handlesOfType (g : Graph digest) (type : TypeId) (withSubtypes : Bool) : List Handle :=
  if withSubtypes then g.byType.union (g.types.subtypes type)
  else (g.byType.bucket? type).getD []

/-- The number of atoms of exactly a type. -/
def countOfType (g : Graph digest) (type : TypeId) : Nat := g.byType.count type

/-- The handles of the atoms of a named type, ascending. -/
def ofTypeNamed (g : Graph digest) (typeName : String) (withSubtypes : Bool) :
    Except Refusal (List Handle) := do
  let type ← g.types.resolve typeName
  return g.handlesOfType type withSubtypes

/-! ## Types -/

/-- Declare a type under a parent, which is the root if none is named. -/
def declareType (name : String) (parent : Option String) : Update digest TypeId := fun g =>
  match g.types.declare name parent with
  | .ok (type, types) => .ok type { g with types }
  | .error refusal => .error refusal g

/-! ## Truth values -/

/-- Put a truth value, or its absence, into the place of an atom. -/
def setTruth (g : Graph digest) (h : Handle) (value : Option Truth) : Graph digest :=
  { g with atoms := g.atoms.modify h fun record => { record with truth := value } }

/-- Merge an observation into the truth value of an atom and give the value that it then has. -/
def revise (h : Handle) (observation : Truth) : Update digest Truth := fun g =>
  match g.truth h with
  | .ok place =>
    let value := TruthValue.absorb place observation
    .ok value (g.setTruth h (some value))
  | .error refusal => .error refusal g

/-- Overwrite or clear the truth value of an atom and give the one it had before. -/
def replace (h : Handle) (value : Option Truth) : Update digest (Option Truth) := fun g =>
  match g.truth h with
  | .ok place => .ok place (g.setTruth h value)
  | .error refusal => .error refusal g

end Graph

end TypedHypergraph
