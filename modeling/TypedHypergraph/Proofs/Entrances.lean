/-
# Ways to store an atom

A node, or a link over stored atoms, can be stored in three ways: by a call that names its type
(`addNode`, `addLink`), by a description, or by its content once the name of its type has been
looked up.  Contents and descriptions are checked in different places.  On what both can say they
find the same fault first (`resolve_node_eq`, `resolve_link_eq`), and they store the same atom, so
that it makes no difference which way is taken (`Graph.WaysAgree`).
-/
import TypedHypergraph.Proofs.Run

namespace TypedHypergraph

namespace Graph

variable {digest : Content → UInt64} {g : Graph digest}

/-! ## The checks agree -/

/-- A node is checked alike as a description and as a content. -/
theorem resolve_node_eq (ht : g.types.WellFormed) {typeName : String} {type : TypeId}
    (named : g.types.get? typeName = some type) (name : String) :
    g.resolve 0 (.node typeName name)
      = (g.checkContent (.node type name)).map fun _ => .node type name := by
  have declared : g.types.contains (Content.node type name).type := ht.contains_of_get? named
  have shallow : ¬ Limits.depth < 0 := Nat.not_lt_zero _
  rw [resolve, checkContent, if_neg shallow, if_pos declared, TypeTree.resolve_eq_ok.mpr named]
  dsimp only [bind, Except.bind]
  cases g.checkNodeType type with
  | error refusal => rfl
  | ok _ => cases checkName name <;> rfl

/-- Handles in a description are checked as the members of a content are. -/
theorem resolveAll_stored {depth : Nat} (shallow : depth ≤ Limits.depth) (members : List Handle) :
    g.resolveAll depth (members.map .stored)
      = (g.checkMembers members).map fun _ => members.map .stored := by
  induction members with
  | nil => rfl
  | cons m members ih =>
    rw [List.map_cons, resolveAll, resolve, ih, checkMembers, if_neg (not_lt.mpr shallow)]
    by_cases stored : g.contains m
    · rw [if_pos stored, if_pos stored]
      cases g.checkMembers members <;> rfl
    · rw [if_neg stored, if_neg stored]
      rfl

/-- A link over stored atoms is checked alike as a description and as a content. -/
theorem resolve_link_eq (ht : g.types.WellFormed) {typeName : String} {type : TypeId}
    (named : g.types.get? typeName = some type) (members : List Handle) :
    g.resolve 0 (.link typeName (members.map .stored))
      = (g.checkContent (.link type members)).map fun _ => .link type (members.map .stored) := by
  have declared : g.types.contains (Content.link type members).type := ht.contains_of_get? named
  have shallow : ¬ Limits.depth < 0 := Nat.not_lt_zero _
  rw [resolve, checkContent, if_neg shallow, if_pos declared, TypeTree.resolve_eq_ok.mpr named,
    resolveAll_stored (by decide), List.length_map]
  dsimp only [bind, Except.bind]
  cases g.checkLinkType type with
  | error refusal => rfl
  | ok _ =>
    cases checkArity members.length with
    | error refusal => rfl
    | ok _ => cases g.checkMembers members <;> rfl

/-- A link without a declared type is refused for that, whatever its members are. -/
theorem resolve_link_undeclared {typeName : String} {refusal : Refusal}
    (undeclared : g.types.resolve typeName = .error refusal) (members : List Description) :
    g.resolve 0 (.link typeName members) = .error refusal := by
  have shallow : ¬ Limits.depth < 0 := Nat.not_lt_zero _
  rw [resolve, if_neg shallow, undeclared]
  rfl

/-! ## The same is stored -/

/-- Storing references gives the atoms they refer to and changes nothing. -/
theorem storeAll_stored (members : List Handle) :
    g.storeAll (members.map .stored) = (members, g) := by
  induction members with
  | nil => rfl
  | cons m members ih =>
    rw [List.map_cons, storeAll, store]
    dsimp only
    rw [ih]

/-- Storing a link over references is interning it. -/
theorem store_link_stored (type : TypeId) (members : List Handle) :
    g.store (.link type (members.map .stored)) = g.intern (.link type members) := by
  rw [store, storeAll_stored]

/-- What is checked alike and stored alike is inserted alike. -/
theorem insert_eq_insertContent {d : Description} {r : Resolved} {c : Content}
    (checks : g.resolve 0 d = (g.checkContent c).map fun _ => r)
    (stores : g.store r = g.intern c) : insert d none g = insertContent c g := by
  rw [insert, insertContent, checks]
  cases g.checkContent c with
  | error refusal => rfl
  | ok _ =>
    dsimp only [Except.map]
    rw [stores]

/-! ## All ways agree -/

/-- An operation that only tells the handle of what it stores. -/
def handed (u : Update digest Stored) : Update digest Handle := do
  return (← u).handle

/-- Two operations that do the same hand out the same. -/
theorem handed_congr {u v : Update digest Stored} (same : u g = v g) :
    handed u g = handed v g := by
  simp only [handed, bind, EStateM.bind, same]

/-- A call, a description and a content are ways to store the same atom.  Each of them ends in the
same graph, with the same handle or the same refusal; where it is told whether the atom is new,
this is told alike. -/
structure WaysAgree (g : Graph digest) (call : Update digest Handle) (d : Description)
    (typeName : String) (content : TypeId → Content) : Prop where
  call : call g = handed (insert d none) g
  content : ∀ type : TypeId, g.types.resolve typeName = .ok type →
    insertContent (content type) g = insert d none g

/-- **The ways to store an atom agree** in every reachable graph, for nodes and for links over any
handles, whatever is wrong with them. -/
theorem Reachable.waysAgree (hg : g.Reachable) (typeName name : String) (members : List Handle) :
    g.WaysAgree (addNode typeName name) (.node typeName name) typeName (.node · name) ∧
    g.WaysAgree (addLink typeName members) (.link typeName (members.map .stored)) typeName
      (.link · members) := by
  have ht := hg.typesMakeSense.wellFormed
  have node : ∀ type, g.types.resolve typeName = .ok type →
      insertContent (.node type name) g = insert (.node typeName name) none g := by
    intro type named
    have checks := resolve_node_eq ht (TypeTree.resolve_eq_ok.mp named) name
    exact (insert_eq_insertContent checks (by rw [store])).symm
  have link : ∀ type, g.types.resolve typeName = .ok type →
      insertContent (.link type members) g
        = insert (.link typeName (members.map .stored)) none g := by
    intro type named
    have checks := resolve_link_eq ht (TypeTree.resolve_eq_ok.mp named) members
    exact (insert_eq_insertContent checks (store_link_stored type members)).symm
  refine ⟨⟨rfl, node⟩, ⟨?_, link⟩⟩
  unfold addLink
  rw [get_bind]
  cases named : g.types.resolve typeName with
  | error refusal =>
    have refused : insert (.link typeName (members.map .stored)) none g = .error refusal g := by
      rw [insert, resolve_link_undeclared named]
    simp only [handed, bind, EStateM.bind, refused]
    rfl
  | ok type => exact handed_congr (link type named)

/-- A link over two unknown handles, a node of a type of links, and a node that is there already. -/
theorem waysAgree_of_faults :
    let g := (empty : Graph fun _ => 0).run [.declareType "Pair" (some "Link"), .addNode "Node" "a"]
    let unknown : List Handle := [⟨0⟩, ⟨9⟩, ⟨8⟩]
    g.Reachable ∧
    g.WaysAgree (addNode "Pair" "a") (.node "Pair" "a") "Pair" (.node · "a") ∧
    g.WaysAgree (addLink "Pair" unknown) (.link "Pair" (unknown.map .stored)) "Pair"
      (.link · unknown) ∧
    g.WaysAgree (addNode "Node" "a") (.node "Node" "a") "Node" (.node · "a") := by
  intro g unknown
  have reachable : g.Reachable := ⟨_, rfl⟩
  obtain ⟨node, link⟩ := Reachable.waysAgree reachable "Pair" "a" unknown
  exact ⟨reachable, node, link, (Reachable.waysAgree reachable "Node" "a" []).1⟩

end Graph

end TypedHypergraph
