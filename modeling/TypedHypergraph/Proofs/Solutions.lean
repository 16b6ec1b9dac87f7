/-
# Solutions of a pattern

What it means that atoms solve a pattern, said without any search: each clause, evaluated under the
atoms of the variables, is a stored atom, the variables keep to the types written at their
occurrences, and the constraints hold (`Pattern.Solution`).

In a covered graph a term denotes at most one atom (`Term.denotes_unique`), so that the atoms of
the clauses of a solution are determined by those of its variables.
-/
import TypedHypergraph.Proofs.Covering
import TypedHypergraph.Search.Checks

namespace TypedHypergraph

variable {digest : Content → UInt64}

/-! ## Terms -/

namespace Term

mutual

/-- The occurrences of variables in a term, from left to right. -/
def occurrences : Term → List Variable
  | .stored _ => []
  | .node _ _ => []
  | .var v => [v]
  | .link _ members => allOccurrences members

/-- All occurrences of variables in several terms, from left to right. -/
def allOccurrences : List Term → List Variable
  | [] => []
  | term :: rest => term.occurrences ++ allOccurrences rest

end

mutual

/-- With atoms for the names of its variables, a term denotes an atom: a link does if it has exactly
its type and its members are what the members of the term denote. -/
def Denotes (g : Graph digest) (values : String → Option Handle) : Term → Handle → Prop
  | .stored m, h => m = h ∧ g.contains h
  | .node typeName name, h =>
    ∃ type, g.types.get? typeName = some type ∧ g.content? h = some (.node type name)
  | .var v, h => values v.name = some h
  | .link typeName members, h =>
    ∃ type hs, g.types.get? typeName = some type ∧ DenoteAll g values members hs ∧
      g.content? h = some (.link type hs)

/-- Terms denote atoms one by one. -/
def DenoteAll (g : Graph digest) (values : String → Option Handle) : List Term → List Handle → Prop
  | [], hs => hs = []
  | term :: rest, hs =>
    ∃ h more, Denotes g values term h ∧ DenoteAll g values rest more ∧ hs = h :: more

end

mutual

/-- **A term denotes at most one atom**, since no content is stored twice. -/
theorem denotes_unique {g : Graph digest} (hg : g.Covered) {values : String → Option Handle} :
    ∀ (term : Term) {h h' : Handle}, term.Denotes g values h → term.Denotes g values h' → h = h'
  | .stored m, h, h', hd, hd' => by
    rw [Denotes] at hd hd'
    rw [← hd.1, ← hd'.1]
  | .node typeName name, h, h', hd, hd' => by
    rw [Denotes] at hd hd'
    obtain ⟨type, ht, hc⟩ := hd
    obtain ⟨type', ht', hc'⟩ := hd'
    rw [ht, Option.some.injEq] at ht'
    subst ht'
    exact hg.unique h h' _ hc hc'
  | .var v, h, h', hd, hd' => by
    rw [Denotes] at hd hd'
    rw [hd, Option.some.injEq] at hd'
    exact hd'
  | .link typeName members, h, h', hd, hd' => by
    rw [Denotes] at hd hd'
    obtain ⟨type, hs, ht, hall, hc⟩ := hd
    obtain ⟨type', hs', ht', hall', hc'⟩ := hd'
    rw [ht, Option.some.injEq] at ht'
    subst ht'
    -- both atoms are links of one type with the same members
    rw [← denoteAll_unique hg members hall hall'] at hc'
    exact hg.unique h h' _ hc hc'

/-- Several terms denote at most one list of atoms. -/
theorem denoteAll_unique {g : Graph digest} (hg : g.Covered) {values : String → Option Handle} :
    ∀ (terms : List Term) {hs hs' : List Handle}, DenoteAll g values terms hs →
      DenoteAll g values terms hs' → hs = hs'
  | [], hs, hs', hd, hd' => by
    rw [DenoteAll] at hd hd'
    rw [hd, hd']
  | term :: rest, hs, hs', hd, hd' => by
    rw [DenoteAll] at hd hd'
    obtain ⟨h, more, hh, hmore, rfl⟩ := hd
    obtain ⟨h', more', hh', hmore', rfl⟩ := hd'
    rw [denotes_unique hg term hh hh', denoteAll_unique hg rest hmore hmore']

end

/-- What a term denotes is stored, if the variables stand for stored atoms. -/
theorem contains_of_denotes {g : Graph digest} {values : String → Option Handle}
    (stored : ∀ name h, values name = some h → g.contains h) {term : Term} {h : Handle}
    (hd : term.Denotes g values h) : g.contains h := by
  cases term with
  | stored m =>
    rw [Denotes] at hd
    exact hd.2
  | node typeName name =>
    rw [Denotes] at hd
    obtain ⟨type, -, hc⟩ := hd
    exact Graph.contains_of_content? hc
  | var v =>
    rw [Denotes] at hd
    exact stored v.name h hd
  | link typeName members =>
    rw [Denotes] at hd
    obtain ⟨type, hs, -, -, hc⟩ := hd
    exact Graph.contains_of_content? hc

/-- What several terms denote is stored if the values of the variables are. -/
theorem contains_of_denoteAll {g : Graph digest} {values : String → Option Handle}
    (stored : ∀ name h, values name = some h → g.contains h) {terms : List Term}
    {hs : List Handle} (hd : DenoteAll g values terms hs) : ∀ h ∈ hs, g.contains h := by
  induction terms generalizing hs with
  | nil =>
    rw [DenoteAll] at hd
    rw [hd]
    simp
  | cons term rest ih =>
    rw [DenoteAll] at hd
    obtain ⟨h, more, hh, hmore, rfl⟩ := hd
    rw [List.forall_mem_cons]
    exact ⟨contains_of_denotes stored hh, ih hmore⟩

end Term

/-! ## Constraints -/

/-- The atom that a constraint looks at, given the atoms of the variables and of the clauses. -/
def Target.atom? (values : String → Option Handle) (groundings : List Handle) :
    Target → Option Handle
  | .var name => values name
  | .clause index => groundings[index]?

/-- What a condition says. -/
def Condition.Holds (g : Graph digest) (values : String → Option Handle)
    (groundings : List Handle) : Condition → Prop
  | .truthAtLeast target minStrength minConfidence =>
    ∃ h value, target.atom? values groundings = some h ∧ g.truth? h = some value ∧
      value.meets minStrength minConfidence
  | .typeIs target typeName withSubtypes =>
    ∃ h c type, target.atom? values groundings = some h ∧ g.content? h = some c ∧
      g.types.get? typeName = some type ∧
      (c.type = type ∨ withSubtypes ∧ g.types.isA c.type type)
  | .distinct a b => ∃ x y, values a = some x ∧ values b = some y ∧ x ≠ y

/-- What a constraint says.  A predicate is asked about the atoms of its targets. -/
def Constraint.Holds (g : Graph digest) (values : String → Option Handle)
    (groundings : List Handle) : Constraint → Prop
  | .condition c => c.Holds g values groundings
  | .predicate p => ∃ atoms, List.Forall₂
      (fun target atom => (target.atom? values groundings).bind g.seen? = some atom)
      p.targets atoms ∧ p.test atoms

/-! ## Patterns -/

/-- The occurrences of variables in a pattern. -/
def Pattern.occurrences (p : Pattern) : List Variable := Term.allOccurrences p.clauses

/-- An atom may stand at an occurrence of a variable. -/
def Variable.Allows (g : Graph digest) (v : Variable) (h : Handle) : Prop :=
  ∃ c, g.content? h = some c ∧ ∀ typeName, v.typeName = some typeName →
    ∃ type, g.types.get? typeName = some type ∧ g.types.isA c.type type

/-- **A solution of a pattern**: an atom for each of its variables, by name, and one for each of
its clauses.  A pattern without clauses has no solution. -/
structure Pattern.Solution (g : Graph digest) (p : Pattern) (values : String → Option Handle)
    (groundings : List Handle) : Prop where
  nonempty : p.clauses ≠ []
  /-- There are no values but those of variables. -/
  named : ∀ name h, values name = some h → ∃ v ∈ p.occurrences, v.name = name
  allowed : ∀ v ∈ p.occurrences, ∃ h, values v.name = some h ∧ v.Allows g h
  clauses : Term.DenoteAll g values p.clauses groundings
  constraints : ∀ c ∈ p.constraints, c.Holds g values groundings

namespace Pattern.Solution

variable {g : Graph digest} {p : Pattern} {values : String → Option Handle}
  {groundings groundings' : List Handle}

/-- The variables stand for stored atoms. -/
theorem contains (h : p.Solution g values groundings) (name : String) (a : Handle)
    (ha : values name = some a) : g.contains a := by
  obtain ⟨v, hv, rfl⟩ := h.named name a ha
  obtain ⟨b, hb, c, hc, -⟩ := h.allowed v hv
  rw [ha, Option.some.injEq] at hb
  rw [hb]
  exact Graph.contains_of_content? hc

/-- The atoms of the variables determine those of the clauses. -/
theorem groundings_unique (hg : g.Covered) (h : p.Solution g values groundings)
    (h' : p.Solution g values groundings') : groundings = groundings' :=
  Term.denoteAll_unique hg p.clauses h.clauses h'.clauses

end Pattern.Solution

end TypedHypergraph
