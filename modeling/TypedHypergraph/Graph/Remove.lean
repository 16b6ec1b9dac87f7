/-
# Removing atoms

An atom that a link contains cannot be removed alone.  With a *cascade* the atom goes together
with every link that contains it, directly or through other links.  A link is younger than all
its members, so that the youngest of the atoms that are to go is never contained in another one:
in descending order they can be removed one by one.
-/
import TypedHypergraph.Graph.Basic

namespace TypedHypergraph

namespace Graph

variable {digest : Content → UInt64}

/-- Drop a stored atom from the atoms and from all indices. -/
def drop (g : Graph digest) (h : Handle) (c : Content) : Graph digest :=
  { g with
    atoms := g.atoms.erase h
    byType := g.byType.erase c.type h
    byDigest := g.byDigest.erase (digest c) h
    incidence := (g.incidence.removeLink h c.members).unregister h }

/-- Remove an atom that no link contains. -/
def remove (h : Handle) : Update digest Atom := fun g =>
  match g.incidence.get? h with
  | none => .error (.notFound h) g
  | some (referrer :: more) => .error (.stillReferenced h (referrer :: more)) g
  | some [] =>
    match g.content? h with
    | none => .error (.notFound h) g
    | some c => .ok ⟨h, c⟩ (g.drop h c)

/-- The atoms seen so far together with all links that are reached from a queue of atoms, taking
as many atoms from the queue as the fuel allows. -/
def closure (g : Graph digest) :
    Nat → Std.TreeSet Handle → List Handle → Std.TreeSet Handle
  | 0, seen, _ => seen
  | _ + 1, seen, [] => seen
  | fuel + 1, seen, h :: queue =>
    let fresh := ((g.incidence.get? h).getD []).filter fun link => !seen.contains link
    closure g fuel (seen.insertMany fresh) (queue ++ fresh)

/-- An atom and all links that contain it, directly or through other links, youngest first.  No
atom comes into the queue twice, so that the number of atoms bounds the search. -/
def dependents (g : Graph digest) (h : Handle) : List Handle :=
  (g.closure g.size (Std.TreeSet.empty.insert h) [h]).toList.reverse

/-- Remove atoms one after the other, up to the first that cannot be removed. -/
def removeAll : List Handle → Update digest Unit
  | [] => pure ()
  | h :: rest => do
    let _ ← remove h
    removeAll rest

/-- Remove an atom with all links that contain it, directly or through other links, and give the
removed handles, youngest first. -/
def removeCascade (h : Handle) : Update digest (List Handle) := do
  let g ← get
  unless g.contains h do
    throw (.notFound h)
  let doomed := g.dependents h
  removeAll doomed
  return doomed

end Graph

end TypedHypergraph
