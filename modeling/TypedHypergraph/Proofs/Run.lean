/-
# Runs

An *action* is a call of one of the operations that can change a graph.  A graph is *reachable*
if some list of actions leads to it from the empty graph, whichever of them were refused.

Every action is a sequence of elementary changes (`changes_apply`), and so is every run
(`changes_run`); this is how the invariants of the elementary changes become invariants of all
reachable graphs.
-/
import TypedHypergraph.Proofs.Observing

namespace TypedHypergraph

/-- A call of an operation that can change a graph. -/
inductive Action
  | declareType (name : String) (parent : Option String)
  | insert (d : Description) (truth : Option Truth)
  | addNode (typeName name : String)
  | addLink (typeName : String) (members : List Handle)
  | insertContent (c : Content)
  | remove (h : Handle)
  | removeCascade (h : Handle)
  | revise (h : Handle) (observation : Truth)
  | replace (h : Handle) (value : Option Truth)

namespace Graph

variable {digest : Content → UInt64} {g : Graph digest}

/-- The graph in which an operation ends, whether it was accepted or refused. -/
def after {α : Type} (u : Update digest α) (g : Graph digest) : Graph digest :=
  match u g with
  | .ok _ g' => g'
  | .error _ g' => g'

/-- The graph after an action. -/
def apply (g : Graph digest) : Action → Graph digest
  | .declareType name parent => after (declareType name parent) g
  | .insert d truth => after (insert d truth) g
  | .addNode typeName name => after (addNode typeName name) g
  | .addLink typeName members => after (addLink typeName members) g
  | .insertContent c => after (insertContent c) g
  | .remove h => after (remove h) g
  | .removeCascade h => after (removeCascade h) g
  | .revise h observation => after (revise h observation) g
  | .replace h value => after (replace h value) g

/-- The graph after a list of actions. -/
def run (g : Graph digest) (actions : List Action) : Graph digest := actions.foldl apply g

/-- A graph that comes out of the empty one by some actions. -/
def Reachable (g : Graph digest) : Prop :=
  ∃ actions, (empty : Graph digest).run actions = g

/-- A reachable graph stays reachable over a run. -/
theorem Reachable.run (hg : g.Reachable) (actions : List Action) : (g.run actions).Reachable := by
  obtain ⟨before, rfl⟩ := hg
  exact ⟨before ++ actions, List.foldl_append⟩

/-! ## Actions are elementary changes -/

/-- A declaration of a type is a change. -/
theorem changes_declareType (name : String) (parent : Option String) :
    Changes g (after (declareType name parent) g) := by
  unfold after declareType
  cases hd : g.types.declare name parent with
  | error refusal => exact .refl
  | ok result => exact .single (.declare hd)

/-- A revision of a truth value is a change. -/
theorem changes_revise (h : Handle) (observation : Truth) :
    Changes g (after (revise h observation) g) := by
  rw [after, revise_eq]
  by_cases hh : g.contains h
  · rw [if_pos hh]
    exact changes_observe hh (some observation)
  · rw [if_neg hh]
    exact .refl

/-- A replacement of a truth value is a change. -/
theorem changes_replace (h : Handle) (value : Option Truth) :
    Changes g (after (replace h value) g) := by
  rw [after, replace_eq]
  by_cases hh : g.contains h
  · rw [if_pos hh]
    exact .single (.setTruth hh value)
  · rw [if_neg hh]
    exact .refl

/-- Inserting an accepted content is a change, and a refused one changes nothing. -/
theorem changes_insertContent (c : Content) : Changes g (after (insertContent c) g) := by
  unfold after insertContent
  cases hc : g.checkContent c with
  | error refusal => exact .refl
  | ok _ => exact .single (.intern hc)

/-- An insertion is a row of changes. -/
theorem changes_insert (ht : g.types.WellFormed) (d : Description) (truth : Option Truth) :
    Changes g (after (insert d truth) g) := by
  rw [after, insert_eq ht]
  cases hr : g.resolve 0 d with
  | error refusal => exact .refl
  | ok r =>
    obtain ⟨storing, stored⟩ := stores_store r g (resolve_fits ht d hr)
    exact storing.changes.trans (changes_observe stored truth)

/-- Only the result of an operation is different if it is mapped. -/
theorem after_map {α β : Type} (u : Update digest α) (f : α → β) :
    after (do return f (← u)) g = after u g := by
  unfold after
  simp only [bind, EStateM.bind, pure, EStateM.pure]
  cases u g <;> rfl

/-- Adding a node is a row of changes. -/
theorem changes_addNode (ht : g.types.WellFormed) (typeName name : String) :
    Changes g (after (addNode typeName name) g) := by
  rw [addNode, after_map]
  exact changes_insert ht _ none

/-- An operation that first looks at the graph sees the graph as it is. -/
theorem get_bind {α : Type} (k : Graph digest → Update digest α) (g : Graph digest) :
    (get >>= k) g = k g g := rfl

/-- An operation may look at the graph before it goes on. -/
theorem after_get_bind {α : Type} (k : Graph digest → Update digest α) (g : Graph digest) :
    after (get >>= k) g = after (k g) g := rfl

/-- Adding a link comes down to inserting its content, if its type is declared. -/
theorem after_addLink (g : Graph digest) (typeName : String) (members : List Handle) :
    after (addLink typeName members) g =
      match g.types.resolve typeName with
      | .error _ => g
      | .ok type => after (insertContent (.link type members)) g := by
  cases ht : g.types.resolve typeName with
  | error refusal =>
    unfold addLink
    rw [after_get_bind, ht]
    rfl
  | ok type =>
    dsimp only
    rw [← after_map (insertContent (.link type members)) Stored.handle]
    unfold addLink
    rw [after_get_bind, ht]
    rfl

/-- Adding a link is a row of changes. -/
theorem changes_addLink (typeName : String) (members : List Handle) :
    Changes g (after (addLink typeName members) g) := by
  rw [after_addLink]
  cases g.types.resolve typeName with
  | error refusal => exact .refl
  | ok type => exact changes_insertContent _

/-- A removal is a row of changes. -/
theorem changes_remove (h : Handle) : Changes g (after (remove h) g) := by
  unfold after remove
  cases hi : g.incidence.get? h with
  | none => exact .refl
  | some links =>
    cases links with
    | cons referrer more => exact .refl
    | nil =>
      cases hc : g.content? h with
      | none => exact .refl
      | some c => exact .single (.drop hc hi)

/-- Removing several atoms is a row of changes. -/
theorem changes_removeAll (hs : List Handle) : Changes g (after (removeAll hs) g) := by
  induction hs generalizing g with
  | nil => exact .refl
  | cons h hs ih =>
    have first := changes_remove (g := g) h
    unfold after at first ih ⊢
    simp only [removeAll, bind, EStateM.bind]
    cases hr : remove h g with
    | error refusal g₁ =>
      rw [hr] at first
      exact first
    | ok removed g₁ =>
      rw [hr] at first
      exact first.trans ih

/-- A cascade from a stored atom comes down to removing its dependents. -/
theorem after_removeCascade (g : Graph digest) (h : Handle) :
    after (removeCascade h) g
      = if g.contains h then after (removeAll (g.dependents h)) g else g := by
  by_cases hc : g.contains h
  · rw [if_pos hc, ← after_map (removeAll (g.dependents h)) (fun _ => g.dependents h)]
    unfold removeCascade
    rw [after_get_bind, if_pos hc]
  · rw [if_neg hc]
    unfold removeCascade
    rw [after_get_bind, if_neg hc]
    rfl

/-- A cascade is a row of changes. -/
theorem changes_removeCascade (h : Handle) : Changes g (after (removeCascade h) g) := by
  rw [after_removeCascade]
  split
  · exact changes_removeAll _
  · exact .refl

/-- **An action** is a sequence of elementary changes. -/
theorem changes_apply (ht : g.types.WellFormed) (a : Action) : Changes g (g.apply a) := by
  cases a with
  | declareType name parent => exact changes_declareType name parent
  | insert d truth => exact changes_insert ht d truth
  | addNode typeName name => exact changes_addNode ht typeName name
  | addLink typeName members => exact changes_addLink typeName members
  | insertContent c => exact changes_insertContent c
  | remove h => exact changes_remove h
  | removeCascade h => exact changes_removeCascade h
  | revise h observation => exact changes_revise h observation
  | replace h value => exact changes_replace h value

/-- **A run** is a sequence of elementary changes. -/
theorem changes_run (hg : TypesMakeSense g) (actions : List Action) :
    Changes g (g.run actions) := by
  induction actions generalizing g with
  | nil => exact .refl
  | cons a actions ih =>
    have first := changes_apply hg.wellFormed a
    exact first.trans (ih (hg.changes first))

/-- A reachable graph has come about by changes from the empty one. -/
theorem Reachable.changes (hg : g.Reachable) : Changes empty g := by
  obtain ⟨actions, rfl⟩ := hg
  exact changes_run typesMakeSense_empty actions

/-- In a reachable graph the types of all atoms make sense. -/
theorem Reachable.typesMakeSense (hg : g.Reachable) : TypesMakeSense g :=
  typesMakeSense_empty.changes hg.changes

end Graph

end TypedHypergraph
