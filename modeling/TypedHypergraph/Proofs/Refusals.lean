/-
# Refused actions

An operation is *atomic* at a graph if it leaves the graph as it is whenever it refuses
(`Graph.Atomic`).  Most operations check everything before they change anything.  Two of them
could be refused halfway and never are: an insertion, since the atom whose truth value is revised
was stored just before, and a cascade, since no removal in its course is refused.

Only the cascade asks for handles to be left.  A handle that is given out at the end of the supply
is given out again, and its entry may then tell of a link that is there no more.

As a consequence, the refused actions of a list make no difference to a run (`run_accepted`).
-/
import TypedHypergraph.Proofs.Cascade
import TypedHypergraph.Proofs.Insertion

namespace TypedHypergraph

/-- The operation that an action calls, without its result. -/
def Action.call {digest : Content → UInt64} : Action → Update digest Unit
  | .declareType name parent => do let _ ← Graph.declareType name parent
  | .insert d truth => do let _ ← Graph.insert d truth
  | .addNode typeName name => do let _ ← Graph.addNode typeName name
  | .addLink typeName members => do let _ ← Graph.addLink typeName members
  | .insertContent c => do let _ ← Graph.insertContent c
  | .remove h => do let _ ← Graph.remove h
  | .removeCascade h => do let _ ← Graph.removeCascade h
  | .revise h observation => do let _ ← Graph.revise h observation
  | .replace h value => do let _ ← Graph.replace h value

namespace Graph

variable {digest : Content → UInt64} {g g' : Graph digest}

/-! ## Atomic operations -/

/-- An operation that is refused leaves the graph as it is. -/
def Atomic {α : Type} (u : Update digest α) (g : Graph digest) : Prop :=
  ∀ (refusal : Refusal) (g' : Graph digest), u g = .error refusal g' → g' = g

/-- Only the result of an operation is different if it is mapped. -/
theorem Atomic.map {α β : Type} {u : Update digest α} (atomic : Atomic u g) (f : α → β) :
    Atomic (do return f (← u)) g := by
  intro refusal g' refused
  simp only [bind, EStateM.bind, pure, EStateM.pure] at refused
  cases hu : u g with
  | ok a g₁ =>
    rw [hu] at refused
    cases refused
  | error r g₁ =>
    rw [hu] at refused
    cases refused
    exact atomic _ _ hu

/-- A declaration of a type that is refused leaves the graph as it is. -/
theorem atomic_declareType (name : String) (parent : Option String) :
    Atomic (declareType name parent) g := by
  intro refusal g' refused
  unfold declareType at refused
  split at refused <;> cases refused
  rfl

/-- A revision that is refused leaves the graph as it is. -/
theorem atomic_revise (h : Handle) (observation : Truth) : Atomic (revise h observation) g := by
  intro refusal g' refused
  rw [revise_eq] at refused
  split at refused <;> cases refused
  rfl

/-- A replacement of a truth value that is refused leaves the graph as it is. -/
theorem atomic_replace (h : Handle) (value : Option Truth) : Atomic (replace h value) g := by
  intro refusal g' refused
  rw [replace_eq] at refused
  split at refused <;> cases refused
  rfl

/-- An insertion of a content that is refused leaves the graph as it is. -/
theorem atomic_insertContent (c : Content) : Atomic (insertContent c) g := by
  intro refusal g' refused
  unfold insertContent at refused
  split at refused <;> cases refused
  rfl

/-- **An insertion** is refused for its description only, before anything is stored. -/
theorem atomic_insert (ht : g.types.WellFormed) (d : Description) (truth : Option Truth) :
    Atomic (insert d truth) g := by
  intro refusal g' refused
  rw [insert_eq ht] at refused
  split at refused <;> cases refused
  rfl

/-- Adding a node leaves the graph as it is if it is refused. -/
theorem atomic_addNode (ht : g.types.WellFormed) (typeName name : String) :
    Atomic (addNode typeName name) g :=
  (atomic_insert ht (.node typeName name) none).map (·.handle)

/-- Adding a link leaves the graph as it is if it is refused. -/
theorem atomic_addLink (typeName : String) (members : List Handle) :
    Atomic (addLink typeName members) g := by
  intro refusal g' refused
  unfold addLink at refused
  rw [get_bind] at refused
  cases hn : g.types.resolve typeName with
  | error undeclared =>
    rw [hn] at refused
    cases refused
    rfl
  | ok type =>
    rw [hn] at refused
    exact (atomic_insertContent (.link type members)).map (·.handle) refusal g' refused

/-- A removal that is refused leaves the graph as it is. -/
theorem atomic_remove (h : Handle) : Atomic (remove h) g := by
  intro refusal g' refused
  unfold remove at refused
  split at refused
  · cases refused
    rfl
  · cases refused
    rfl
  · split at refused <;> cases refused
    rfl

/-- **A cascade** is refused for an unknown atom only, before anything is removed. -/
theorem Coherent.atomic_removeCascade (hg : g.Coherent) (h : Handle) :
    Atomic (removeCascade h) g := by
  intro refusal g' refused
  by_cases stored : g.contains h
  · obtain ⟨removed, g₁, accepted, -⟩ := hg.cascadesExactly.stored h stored
    rw [accepted] at refused
    cases refused
  · rw [removeCascade_unknown stored] at refused
    cases refused
    rfl

/-- **Every action** is atomic. -/
theorem atomic_call (ht : g.types.WellFormed) (a : Action)
    (coherent : ∀ h, a = .removeCascade h → g.Coherent) : Atomic a.call g := by
  cases a with
  | declareType name parent => exact (atomic_declareType name parent).map _
  | insert d truth => exact (atomic_insert ht d truth).map _
  | addNode typeName name => exact (atomic_addNode ht typeName name).map _
  | addLink typeName members => exact (atomic_addLink typeName members).map _
  | insertContent c => exact (atomic_insertContent c).map _
  | remove h => exact (atomic_remove h).map _
  | removeCascade h => exact ((coherent h rfl).atomic_removeCascade h).map _
  | revise h observation => exact (atomic_revise h observation).map _
  | replace h value => exact (atomic_replace h value).map _

/-- **A refused action changes nothing**, neither atoms and truth values nor indices, types and the
supply of handles.  Only a cascade takes several removals, and asks for `HandlesLeft` so that none
of them is refused behind another. -/
theorem Reachable.eq_of_refused (hg : g.Reachable) (a : Action) {refusal : Refusal}
    (refused : a.call g = .error refusal g')
    (room : ∀ h, a = .removeCascade h → g.HandlesLeft) : g' = g :=
  atomic_call hg.typesMakeSense.wellFormed a (fun h ha => hg.coherent (room h ha)) refusal g'
    refused

/-- A description with an unknown handle deep inside is refused, and so is a cascade from this
handle. -/
theorem eq_of_refused_of_unknown :
    let g := (empty : Graph fun _ => 0).run [.addNode "Node" "a", .addLink "Link" [⟨0⟩, ⟨0⟩]]
    let d := Description.link "Link" [.node "Node" "b", .link "Link" [.stored ⟨0⟩, .stored ⟨2⟩]]
    let insertion := Action.insert d (some ⟨1, 1⟩)
    let cascade := Action.removeCascade ⟨2⟩
    insertion.call g = .error (.notFound ⟨2⟩) (g.apply insertion) ∧ g.apply insertion = g ∧
      cascade.call g = .error (.notFound ⟨2⟩) (g.apply cascade) ∧
        g.HandlesLeft ∧ g.apply cascade = g := by
  intro g d insertion cascade
  have first : insertion.call g = .error (.notFound ⟨2⟩) (g.apply insertion) := rfl
  have second : cascade.call g = .error (.notFound ⟨2⟩) (g.apply cascade) := rfl
  have room : g.HandlesLeft := by decide +kernel
  refine ⟨first, ?_, second, room, ?_⟩
  · exact Reachable.eq_of_refused ⟨_, rfl⟩ insertion first nofun
  · exact Reachable.eq_of_refused ⟨_, rfl⟩ cascade second fun _ _ => room

/-! ## Runs without refusals -/

/-- An action leads to the graph in which its call ends. -/
theorem apply_eq_after_call (g : Graph digest) (a : Action) : g.apply a = after a.call g := by
  cases a <;> exact (after_map _ _).symm

theorem run_cons (g : Graph digest) (a : Action) (actions : List Action) :
    g.run (a :: actions) = (g.apply a).run actions := rfl

/-- The actions of a list that are accepted when their turn comes. -/
def accepted (g : Graph digest) : List Action → List Action
  | [] => []
  | a :: actions =>
    match a.call g with
    | .ok _ g' => a :: accepted g' actions
    | .error _ g' => accepted g' actions

/-- **A run** does what it does through its accepted actions alone. -/
theorem run_accepted (hg : g.Reachable) (actions : List Action)
    (room : (g.run actions).HandlesLeft) :
    g.run (g.accepted actions) = g.run actions := by
  induction actions generalizing g with
  | nil => rfl
  | cons a actions ih =>
    have rest : (g.apply a).run ((g.apply a).accepted actions) = g.run (a :: actions) :=
      ih (hg.run [a]) room
    rw [← rest]
    cases hc : a.call g with
    | ok _ g₁ =>
      have ends : g.apply a = g₁ := by rw [apply_eq_after_call, after, hc]
      rw [accepted, hc, ends]
      dsimp only
      rw [run_cons, ends]
    | error refusal g₁ =>
      have ends : g.apply a = g₁ := by rw [apply_eq_after_call, after, hc]
      have whole := changes_run hg.typesMakeSense (a :: actions)
      have coherent := hg.coherent (room_of_changes whole room)
      have same := atomic_call hg.typesMakeSense.wellFormed a (fun _ _ => coherent) _ _ hc
      rw [accepted, hc, ends, same]

end Graph

end TypedHypergraph
