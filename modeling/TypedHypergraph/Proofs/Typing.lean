/-
# Stored atoms are well typed

Descriptions and contents are checked in different places before they are stored, and types are
declared at any time in between.  Still, every stored content is one that `checkContent` accepts,
in the graph as it is now (`Reachable.accepting`): the lineage of a registered type never changes,
and a link keeps its members from being removed.

What the checks ask for holds therefore of all stored atoms (`Graph.WellTyped`).  Since variables
stand below the nodes, no atom has the type of a variable.
-/
import TypedHypergraph.Proofs.ContentAddressing

namespace TypedHypergraph

namespace Graph

variable {digest : Content → UInt64} {g g' : Graph digest}

/-! ## Accepted contents -/

/-- The name of a node is accepted exactly if it is no longer than it may be. -/
theorem checkName_eq_ok {name : String} :
    checkName name = .ok () ↔ name.utf8ByteSize ≤ Limits.nodeNameBytes := by
  rw [checkName, Guards.ite_error_eq_ok, not_lt]
  simp

/-- A content that was accepted is accepted again after types were declared, as long as its members
are stored. -/
theorem checkContent_of_extends (types : g.types.Extends g'.types) (hg : g.types.WellFormed)
    (hg' : g'.types.WellFormed) {c : Content} (accepted : g.checkContent c = .ok ())
    (stored : ∀ m ∈ c.members, g'.contains m) : g'.checkContent c = .ok () := by
  cases c with
  | node type name =>
    obtain ⟨declared, suits, short⟩ := checkContent_node_eq_ok.mp accepted
    exact checkContent_node_eq_ok.mpr
      ⟨types.contains declared, checkNodeType_of_extends types hg hg' declared suits, short⟩
  | link type members =>
    obtain ⟨declared, suits, few, -⟩ := checkContent_link_eq_ok.mp accepted
    exact checkContent_link_eq_ok.mpr
      ⟨types.contains declared, checkLinkType_of_extends types hg hg' declared suits, few, stored⟩

/-- Every stored content would be accepted if it came now. -/
def Accepting (g : Graph digest) : Prop :=
  ∀ (h : Handle) (c : Content), g.content? h = some c → g.checkContent c = .ok ()

/-- **An elementary change** stores only what is accepted. -/
theorem Accepting.change (types : TypesMakeSense g) (covered : g.Covered) (h : Change g g')
    (accepting : g.Accepting) : g'.Accepting := by
  intro x c hc
  -- whether the content is new or old, it was accepted before the change
  have before : g.checkContent c = .ok () := by
    cases h with
    | declare _ => exact accepting x c hc
    | @intern new accepted =>
      cases hl : g.lookup new with
      | some found =>
        rw [intern_of_found hl] at hc
        exact accepting x c hc
      | none =>
        rw [intern_of_new hl, content?_append] at hc
        split at hc
        · cases hc
          exact accepted
        · exact accepting x c hc
    | drop _ _ => exact accepting x c (content?_drop_eq_some.mp hc).1
    | setTruth _ _ =>
      rw [content?_setTruth] at hc
      exact accepting x c hc
  exact checkContent_of_extends (extends_of_change h) types.wellFormed (types.change h).wellFormed
    before ((covered.change h).member x c hc)

/-- **Every reachable graph** accepts all contents that it has. -/
theorem Reachable.accepting (hg : g.Reachable) : g.Accepting := by
  have kept : TypesMakeSense g ∧ g.Covered ∧ g.Accepting := by
    apply hg.changes.invariant (P := fun g => TypesMakeSense g ∧ g.Covered ∧ g.Accepting)
    · rintro g₁ g₂ step ⟨types, covered, accepting⟩
      exact ⟨types.change step, covered.change step, accepting.change types covered step⟩
    · refine ⟨typesMakeSense_empty, covered_empty, ?_⟩
      intro h c hc
      rw [content?_empty] at hc
      cases hc
  exact kept.2.2

/-! ## Types that suit -/

/-- Variables stand below the nodes, whatever types have been declared. -/
theorem TypesMakeSense.isA_node_of_isA_variableNode (hg : TypesMakeSense g) {type : TypeId}
    (isVariable : g.types.isA type .variableNode) : g.types.isA type .node := by
  have child : g.types.parent? .variableNode = some .node :=
    hg.builtin.parent? (by decide : TypeTree.builtin.contains .variableNode)
  have below : g.types.isA .variableNode .node :=
    hg.wellFormed.isA_iff.mpr (Relation.ReflTransGen.single child)
  exact hg.wellFormed.isA_trans isVariable below

/-- The types of all stored atoms are registered and suit them, no name is too long, no link has
too many members, and every stored content is accepted. -/
structure WellTyped (g : Graph digest) : Prop where
  declared : ∀ (h : Handle) (c : Content), g.content? h = some c → g.types.contains c.type
  node : ∀ (h : Handle) (type : TypeId) (name : String), g.content? h = some (.node type name) →
    name.utf8ByteSize ≤ 65536 ∧ ¬ g.types.isA type .link ∧ ¬ g.types.isA type .variableNode
  link : ∀ (h : Handle) (type : TypeId) (members : List Handle),
    g.content? h = some (.link type members) →
      members.length ≤ 1024 ∧ ¬ g.types.isA type .node
  noVariable : ∀ (h : Handle) (c : Content), g.content? h = some c →
    ¬ g.types.isA c.type .variableNode
  accepted : ∀ (h : Handle) (c : Content), g.content? h = some c → g.checkContent c = .ok ()

/-- A graph whose atoms would all be accepted again is well-typed. -/
theorem Accepting.wellTyped (types : TypesMakeSense g) (accepting : g.Accepting) :
    g.WellTyped := by
  have node : ∀ (h : Handle) (type : TypeId) (name : String),
      g.content? h = some (.node type name) → name.utf8ByteSize ≤ 65536 ∧
        ¬ g.types.isA type .link ∧ ¬ g.types.isA type .variableNode := by
    intro h type name hc
    obtain ⟨-, suits, short⟩ := checkContent_node_eq_ok.mp (accepting h _ hc)
    exact ⟨checkName_eq_ok.mp short, TypeTree.allowsNodes_iff.mp (checkNodeType_eq_ok.mp suits).2⟩
  have link : ∀ (h : Handle) (type : TypeId) (members : List Handle),
      g.content? h = some (.link type members) →
        members.length ≤ 1024 ∧ ¬ g.types.isA type .node := by
    intro h type members hc
    obtain ⟨-, suits, few, -⟩ := checkContent_link_eq_ok.mp (accepting h _ hc)
    exact ⟨few, TypeTree.allowsLinks_iff.mp (checkLinkType_eq_ok.mp suits)⟩
  refine ⟨?declared, node, link, ?noVariable, accepting⟩
  case declared =>
    intro h c hc
    cases c with
    | node type name => exact (checkContent_node_eq_ok.mp (accepting h _ hc)).1
    | link type members => exact (checkContent_link_eq_ok.mp (accepting h _ hc)).1
  case noVariable =>
    intro h c hc isVariable
    cases c with
    | node type name => exact (node h type name hc).2.2 isVariable
    | link type members =>
      exact (link h type members hc).2 (types.isA_node_of_isA_variableNode isVariable)

/-! ## Every reachable graph -/

/-- Declaring types, accepted or refused, leaves all contents as they are. -/
theorem content?_run_declarations (declarations : List TypeDeclaration) (h : Handle) :
    (g.run (declarations.map fun d => .declareType d.name d.parent)).content? h
      = g.content? h := by
  induction declarations generalizing g with
  | nil => rfl
  | cons d declarations ih =>
    have first : (g.apply (.declareType d.name d.parent)).content? h = g.content? h := by
      rw [apply, after, declareType]
      cases g.types.declare d.name d.parent <;> rfl
    rw [← first]
    exact ih

/-- **The atoms of every reachable graph are well typed**, whichever operations stored them and
whichever types were declared before, in between or `later`. -/
theorem Reachable.atomsWellTyped (hg : g.Reachable) (later : List TypeDeclaration) :
    let g' := g.run (later.map fun d => .declareType d.name d.parent)
    (∀ h : Handle, g'.content? h = g.content? h) ∧ g'.WellTyped := by
  intro g'
  have reachable : g'.Reachable := hg.run _
  exact ⟨content?_run_declarations later, reachable.accepting.wellTyped reachable.typesMakeSense⟩

/-- Nodes and links of declared types, after attempts to store a variable, a node as a link and a
link as a node, and before types are declared below theirs. -/
theorem atomsWellTyped_of_declarations :
    let g := (empty : Graph fun _ => 0).run
      [.declareType "Word" (some "Node"), .declareType "Name" (some "VariableNode"),
        .declareType "Pair" (some "Link"), .addNode "Word" "a", .addNode "Name" "x",
        .insert (.link "Pair" [.node "Word" "b", .stored ⟨0⟩]) none, .addNode "Pair" "c",
        .insertContent (.link ⟨4⟩ [⟨0⟩]), .insertContent (.link ⟨5⟩ [])]
    let later : List TypeDeclaration := [⟨"Noun", some "Word"⟩, ⟨"Word", some "Link"⟩]
    let g' := g.run (later.map fun d => .declareType d.name d.parent)
    g.handles = [⟨0⟩, ⟨1⟩, ⟨2⟩] ∧ g'.types.size = 8 ∧
      (∀ h : Handle, g'.content? h = g.content? h) ∧ g'.WellTyped :=
  ⟨by decide +kernel, by decide +kernel, Reachable.atomsWellTyped ⟨_, rfl⟩ _⟩

end Graph

end TypedHypergraph
