/-
# What is accepted for storing

The checks of `resolve` and `checkContent`, read backwards: what holds of a description or of a
content that is accepted.  A resolved description *fits* a graph if every part of it could be
stored there (`Resolved.Fits`); resolving yields only such descriptions (`resolve_fits`), and
they still fit after the graph has got more atoms (`Resolved.Fits.mono`).
-/
import TypedHypergraph.Graph.Insert
import TypedHypergraph.Proofs.Guards
import TypedHypergraph.Proofs.TypeGrowth

namespace TypedHypergraph

namespace Graph

variable {digest : Content → UInt64} {g : Graph digest}

/-! ## Single checks -/

/-- The members of a link are few enough exactly if there are at most as many as a link may have. -/
theorem checkArity_eq_ok {members : Nat} :
    checkArity members = .ok () ↔ members ≤ Limits.arity := by
  rw [checkArity, Guards.ite_error_eq_ok, not_lt]
  simp

/-- The members of a link are accepted exactly if all of them are stored. -/
theorem checkMembers_eq_ok {members : List Handle} :
    g.checkMembers members = .ok () ↔ ∀ m ∈ members, g.contains m := by
  induction members with
  | nil => simp [checkMembers]
  | cons m members ih =>
    rw [checkMembers]
    by_cases hm : g.contains m
    · simp [hm, ih]
    · simp [hm]

/-- A type is accepted for nodes exactly if it allows nodes and is no type of pattern variables. -/
theorem checkNodeType_eq_ok {type : TypeId} :
    g.checkNodeType type = .ok () ↔
      ¬ g.types.isA type .variableNode ∧ g.types.allowsNodes type := by
  rw [checkNodeType, Guards.ite_error_eq_ok]
  by_cases hn : g.types.allowsNodes type <;> simp [hn]

/-- A type is accepted for links exactly if it allows links. -/
theorem checkLinkType_eq_ok {type : TypeId} :
    g.checkLinkType type = .ok () ↔ g.types.allowsLinks type := by
  rw [checkLinkType]
  by_cases hl : g.types.allowsLinks type <;> simp [hl]

/-- A node content is accepted exactly if its type is registered and suits it and its name is not
too long. -/
theorem checkContent_node_eq_ok {type : TypeId} {name : String} :
    g.checkContent (.node type name) = .ok () ↔
      g.types.contains type ∧ g.checkNodeType type = .ok () ∧ checkName name = .ok () := by
  unfold checkContent
  simp only [Guards.ite_pass_eq_ok, Guards.bind_eq_ok, Guards.exists_unit]
  rfl

/-- A link content is accepted exactly if its type is registered and suits it, it has not too many
members and all of them are stored. -/
theorem checkContent_link_eq_ok {type : TypeId} {members : List Handle} :
    g.checkContent (.link type members) = .ok () ↔
      g.types.contains type ∧ g.checkLinkType type = .ok () ∧ members.length ≤ Limits.arity ∧
        ∀ m ∈ members, g.contains m := by
  unfold checkContent
  simp only [Guards.ite_pass_eq_ok, Guards.bind_eq_ok, Guards.exists_unit, checkArity_eq_ok,
    checkMembers_eq_ok]
  rfl

/-- The members of an accepted content are stored. -/
theorem contains_of_checkContent {c : Content} (h : g.checkContent c = .ok ()) :
    ∀ m ∈ c.members, g.contains m := by
  cases c with
  | node type name => simp [Content.members]
  | link type members => exact (checkContent_link_eq_ok.mp h).2.2.2

/-! ## Resolving, read backwards -/

/-- A node resolves exactly if it is not too deep, its type is declared and for nodes, and its name
is short enough. -/
theorem resolve_node_eq_ok {depth : Nat} {typeName name : String} {r : Resolved} :
    g.resolve depth (.node typeName name) = .ok r ↔
      depth ≤ Limits.depth ∧ ∃ type, g.types.get? typeName = some type ∧
        g.checkNodeType type = .ok () ∧ checkName name = .ok () ∧ r = .node type name := by
  unfold resolve
  simp only [Guards.ite_throw_eq_ok, Guards.bind_eq_ok, Guards.exists_unit, Guards.pure_eq_ok,
    TypeTree.resolve_eq_ok, not_lt, eq_comm (b := r)]

/-- A link resolves exactly if it is not too deep, its type is declared and for links, its members
are few enough and all of them resolve one level down. -/
theorem resolve_link_eq_ok {depth : Nat} {typeName : String} {members : List Description}
    {r : Resolved} :
    g.resolve depth (.link typeName members) = .ok r ↔
      depth ≤ Limits.depth ∧ ∃ type rs, g.types.get? typeName = some type ∧
        g.checkLinkType type = .ok () ∧ members.length ≤ Limits.arity ∧
        g.resolveAll (depth + 1) members = .ok rs ∧ r = .link type rs := by
  unfold resolve
  simp only [Guards.ite_throw_eq_ok, Guards.bind_eq_ok, Guards.exists_unit, Guards.pure_eq_ok,
    TypeTree.resolve_eq_ok, checkArity_eq_ok, not_lt, eq_comm (b := r), exists_and_left]

/-- A reference resolves exactly if it is not too deep and the atom is stored. -/
theorem resolve_stored_eq_ok {depth : Nat} {h : Handle} {r : Resolved} :
    g.resolve depth (.stored h) = .ok r ↔
      depth ≤ Limits.depth ∧ g.contains h ∧ r = .stored h := by
  unfold resolve
  simp only [Guards.ite_throw_eq_ok, Guards.ite_pass_eq_ok, Guards.pure_eq_ok, not_lt,
    eq_comm (b := r)]

/-- No descriptions resolve to nothing. -/
theorem resolveAll_nil_eq_ok {depth : Nat} {rs : List Resolved} :
    g.resolveAll depth [] = .ok rs ↔ rs = [] := by
  rw [resolveAll, Guards.pure_eq_ok, eq_comm]

/-- Several descriptions resolve exactly if each of them does, in order. -/
theorem resolveAll_cons_eq_ok {depth : Nat} {d : Description} {ds : List Description}
    {rs : List Resolved} :
    g.resolveAll depth (d :: ds) = .ok rs ↔
      ∃ r rest, g.resolve depth d = .ok r ∧ g.resolveAll depth ds = .ok rest ∧ rs = r :: rest := by
  rw [resolveAll]
  simp only [Guards.bind_eq_ok, Guards.pure_eq_ok, eq_comm (b := rs), exists_and_left]

/-- Each description gives one resolved description. -/
theorem length_resolveAll {depth : Nat} :
    ∀ {ds : List Description} {rs : List Resolved}, g.resolveAll depth ds = .ok rs →
      rs.length = ds.length := by
  intro ds
  induction ds with
  | nil =>
    intro rs h
    rw [resolveAll_nil_eq_ok.mp h]
    rfl
  | cons d ds ih =>
    intro rs h
    obtain ⟨r, rest, -, hrest, rfl⟩ := resolveAll_cons_eq_ok.mp h
    rw [List.length_cons, List.length_cons, ih hrest]

end Graph

/-! ## Fitting descriptions -/

section Fits

variable {digest : Content → UInt64}

mutual

/-- All parts of a resolved description could be stored in a graph. -/
def Resolved.Fits (g : Graph digest) : Resolved → Prop
  | .node type name =>
    g.types.contains type ∧ g.checkNodeType type = .ok () ∧ Graph.checkName name = .ok ()
  | .link type members =>
    g.types.contains type ∧ g.checkLinkType type = .ok () ∧ members.length ≤ Limits.arity ∧
      Resolved.FitAll g members
  | .stored h => g.contains h

/-- All parts of several resolved descriptions could be stored in a graph. -/
def Resolved.FitAll (g : Graph digest) : List Resolved → Prop
  | [] => True
  | r :: rest => Resolved.Fits g r ∧ Resolved.FitAll g rest

end

mutual

/-- What fits a graph fits one with the same types and more atoms. -/
theorem Resolved.Fits.mono {g g' : Graph digest} (types : g'.types = g.types)
    (kept : ∀ h, g.contains h → g'.contains h) :
    ∀ r : Resolved, r.Fits g → r.Fits g'
  | .node type name, h => by
    rw [Resolved.Fits, Graph.checkNodeType, Graph.nameOfType] at h ⊢
    rw [types]
    exact h
  | .link type members, h => by
    rw [Resolved.Fits, Graph.checkLinkType, Graph.nameOfType] at h ⊢
    rw [types]
    exact ⟨h.1, h.2.1, h.2.2.1, Resolved.FitAll.mono types kept members h.2.2.2⟩
  | .stored h, hc => by
    rw [Resolved.Fits] at hc ⊢
    exact kept h hc

theorem Resolved.FitAll.mono {g g' : Graph digest} (types : g'.types = g.types)
    (kept : ∀ h, g.contains h → g'.contains h) :
    ∀ rs : List Resolved, Resolved.FitAll g rs → Resolved.FitAll g' rs
  | [], _ => trivial
  | r :: rest, h => by
    rw [Resolved.FitAll] at h ⊢
    exact ⟨Resolved.Fits.mono types kept r h.1, Resolved.FitAll.mono types kept rest h.2⟩

end

mutual

/-- **Resolving** yields a description that fits the graph. -/
theorem Graph.resolve_fits {g : Graph digest} (ht : g.types.WellFormed) :
    ∀ (d : Description) {depth : Nat} {r : Resolved}, g.resolve depth d = .ok r → r.Fits g
  | .node typeName name, depth, r, h => by
    obtain ⟨-, type, htype, hnode, hname, rfl⟩ := Graph.resolve_node_eq_ok.mp h
    exact ⟨ht.contains_of_get? htype, hnode, hname⟩
  | .link typeName members, depth, r, h => by
    obtain ⟨-, type, rs, htype, hlink, harity, hrs, rfl⟩ := Graph.resolve_link_eq_ok.mp h
    refine ⟨ht.contains_of_get? htype, hlink, ?_, Graph.resolveAll_fits ht members hrs⟩
    rw [Graph.length_resolveAll hrs]
    exact harity
  | .stored m, depth, r, h => by
    obtain ⟨-, hm, rfl⟩ := Graph.resolve_stored_eq_ok.mp h
    exact hm

/-- **Several descriptions** that resolve give atoms that fit the graph. -/
theorem Graph.resolveAll_fits {g : Graph digest} (ht : g.types.WellFormed) :
    ∀ (ds : List Description) {depth : Nat} {rs : List Resolved},
      g.resolveAll depth ds = .ok rs → Resolved.FitAll g rs
  | [], depth, rs, h => by
    rw [Graph.resolveAll_nil_eq_ok.mp h]
    trivial
  | d :: ds, depth, rs, h => by
    obtain ⟨r, rest, hr, hrest, rfl⟩ := Graph.resolveAll_cons_eq_ok.mp h
    exact ⟨Graph.resolve_fits ht d hr, Graph.resolveAll_fits ht ds hrest⟩

end

end Fits

end TypedHypergraph
