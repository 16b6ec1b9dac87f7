/-
# Incidence

For each atom the links that have it among their members, ascending.  Every stored atom has an
entry, even if no link contains it, so that a missing entry means an unknown handle.
-/
import TypedHypergraph.Handle

namespace TypedHypergraph

/-- The index by member: for each atom the links that contain it. -/
structure Incidence where
  links : Std.TreeMap Handle (Std.TreeSet Handle)

namespace Incidence

/-- The index over no atoms. -/
def empty : Incidence := ⟨∅⟩

/-- Start an entry; one that is there already is kept. -/
def register (i : Incidence) (h : Handle) : Incidence :=
  ⟨i.links.alter h fun entry => some (entry.getD ∅)⟩

/-- Drop an entry with all that it holds. -/
def unregister (i : Incidence) (h : Handle) : Incidence := ⟨i.links.erase h⟩

/-- Record a link in the entry of one of its members. -/
def attach (i : Incidence) (link member : Handle) : Incidence :=
  ⟨i.links.alter member fun entry => some ((entry.getD ∅).insert link)⟩

/-- Drop a link from the entry of one of its members, if there is such an entry. -/
def detach (i : Incidence) (link member : Handle) : Incidence :=
  ⟨i.links.modify member (·.erase link)⟩

/-- Record a link in the entries of all its members. -/
def addLink (i : Incidence) (link : Handle) (members : List Handle) : Incidence :=
  members.foldl (·.attach link ·) i

/-- Drop a link from the entries of all its members. -/
def removeLink (i : Incidence) (link : Handle) (members : List Handle) : Incidence :=
  members.foldl (·.detach link ·) i

/-- The links that contain an atom; nothing for an unknown handle. -/
def get? (i : Incidence) (h : Handle) : Option (List Handle) := i.links[h]?.map (·.toList)

/-- Whether the index knows of an atom. -/
def contains (i : Incidence) (h : Handle) : Bool := i.links.contains h

/-- The number of links that contain an atom. -/
def degree (i : Incidence) (h : Handle) : Nat := (i.links[h]?.map (·.size)).getD 0

/-- The number of entries. -/
def size (i : Incidence) : Nat := i.links.size

/-- Whether the index knows of no atom. -/
def isEmpty (i : Incidence) : Bool := i.links.isEmpty

/-- All entries, in the order of handles. -/
def toList (i : Incidence) : List (Handle × List Handle) :=
  i.links.toList.map fun (h, links) => (h, links.toList)

end Incidence

end TypedHypergraph
