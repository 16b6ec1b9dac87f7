/-
# Audit

Whether the indices of a graph say the same as its atoms.  The audit names every place where they
do not; a graph that was made by the operations of the library has none.
-/
import TypedHypergraph.Graph.Basic

namespace TypedHypergraph

/-- A place where an index and the atoms disagree. -/
inductive Incoherence
  | missingFromTypes (handle : Handle)
  | missingFromDigests (handle : Handle)
  | missingFromIncidence (handle : Handle)
  | missingFromMember (link member : Handle)
  | unknownMember (link member : Handle)
  | staleInTypes (handle : Handle)
  | digestCount (indexed atoms : Nat)
  | unknownInIncidence (handle : Handle)
  | wronglyIncident (link member : Handle)
  deriving DecidableEq, Repr

namespace Graph

variable {digest : Content → UInt64}

/-- What the indices lack about one atom.  Whether the digest under which the atom was filed is
still the digest of its content is not asked: both are computed from the one content that the atom
has from its insertion on, so that question has only one answer. -/
def auditAtom (g : Graph digest) (h : Handle) (c : Content) : List Incoherence :=
  (if g.byType.contains c.type h then [] else [.missingFromTypes h]) ++
  (if h ∈ g.byDigest.candidates (digest c) then [] else [.missingFromDigests h]) ++
  (if g.incidence.contains h then [] else [.missingFromIncidence h]) ++
  c.members.flatMap fun member =>
    match g.incidence.get? member with
    | some links => if h ∈ links then [] else [.missingFromMember h member]
    | none => [.unknownMember h member]

/-- What the index by type holds too much. -/
def auditTypes (g : Graph digest) : List Incoherence :=
  g.byType.toList.flatMap fun (type, handles) =>
    handles.flatMap fun h =>
      if (g.content? h).map (·.type) = some type then [] else [.staleInTypes h]

/-- What the index by member holds too much. -/
def auditIncidence (g : Graph digest) : List Incoherence :=
  g.incidence.toList.flatMap fun (h, links) =>
    (if g.contains h then [] else [.unknownInIncidence h]) ++
    links.flatMap fun link =>
      if h ∈ ((g.content? link).map (·.members)).getD [] then [] else [.wronglyIncident link h]

/-- All places where an index and the atoms disagree.  A stale digest cannot be among them, see
`auditAtom`. -/
def audit (g : Graph digest) : List Incoherence :=
  (g.records.flatMap fun (h, record) => g.auditAtom h record.content) ++
  g.auditTypes ++
  (if g.byDigest.size = g.size then [] else [.digestCount g.byDigest.size g.size]) ++
  g.auditIncidence

end Graph

end TypedHypergraph
