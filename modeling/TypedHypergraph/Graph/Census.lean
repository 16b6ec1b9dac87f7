/-
# Census

Counts over all atoms of a graph.
-/
import TypedHypergraph.Graph.Basic

namespace TypedHypergraph

/-- Counts over a whole graph. -/
structure Census where
  atoms : Nat
  nodes : Nat
  links : Nat
  /-- The number of declared types. -/
  types : Nat
  /-- The number of atoms whose truth value is known. -/
  known : Nat
  /-- The most members that a link has. -/
  maxArity : Nat
  /-- How many atoms in a million are links, rounded down; none in an empty graph. -/
  density : Nat
  /-- For the name of each type that has atoms, their number. -/
  perType : Std.TreeMap String Nat

namespace Census

variable {digest : Content → UInt64}

/-- The counts of no atoms. -/
def start (types : Nat) : Census := ⟨0, 0, 0, types, 0, 0, 0, ∅⟩

/-- Count one atom, given the name of its type. -/
def count (c : Census) (typeName : String) (record : Record) : Census :=
  { c with
    atoms := c.atoms + 1
    nodes := if record.content.isLink then c.nodes else c.nodes + 1
    links := if record.content.isLink then c.links + 1 else c.links
    known := if record.truth.isSome then c.known + 1 else c.known
    maxArity := max c.maxArity record.content.members.length
    perType := c.perType.alter typeName fun n => some (n.getD 0 + 1) }

/-- Links per million atoms.  The product stays at the greatest number that can be written. -/
def perMillion (links atoms : Nat) : Nat :=
  if atoms = 0 then 0 else min (links * 1000000) Limits.lastCount / atoms

/-- Count all atoms of a graph. -/
def ofGraph (g : Graph digest) : Census :=
  let counted := g.records.foldl
    (fun c (_, record) => c.count ((g.types.name? record.content.type).getD "?") record)
    (start g.types.size)
  { counted with density := perMillion counted.links counted.atoms }

end Census

end TypedHypergraph
