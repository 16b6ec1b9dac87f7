/-
# What the operations of the server do

An operation of the server either calls one operation of the graph (`Operation.action?`) and ends
as that ends, or leaves the graph alone.  What is known of the actions of a graph is therefore known
of the operations of the server:

* `Operation.performed` : from a reachable graph they end in a reachable graph; one that fails does
  so for a reason of the graph and leaves it as it is;
* `Graph.Reachable.describe_eq` : the type of a stored atom has a name to be shown by;
* `Graph.truth_of_change` : the truth value that a change answers is the one that is stored then.
-/
import TypedHypergraph.Proofs.Refusals
import TypedHypergraph.Proofs.Typing
import TypedHypergraph.Service.Operation

namespace TypedHypergraph

variable {digest : Content → UInt64} {g g' : Graph digest} {α : Type}

/-! ## Steps one after the other -/

namespace Step

variable {ε σ β : Type}

/-- A step after another one begins where that one ends, if it does not fail. -/
theorem bind_apply (x : EStateM ε σ α) (k : α → EStateM ε σ β) (s : σ) :
    (x >>= k) s =
      match x s with
      | .ok a s' => k a s'
      | .error e s' => .error e s' := by
  simp only [bind, EStateM.bind]
  cases x s <;> rfl

/-- Two steps succeed exactly if the first one does, and then the second. -/
theorem bind_eq_ok {x : EStateM ε σ α} {k : α → EStateM ε σ β} {s s' : σ} {b : β} :
    (x >>= k) s = .ok b s' ↔ ∃ a s₁, x s = .ok a s₁ ∧ k a s₁ = .ok b s' := by
  rw [bind_apply]
  cases x s <;> simp

/-- Two steps fail exactly if the first one does, or the second behind it. -/
theorem bind_eq_error {x : EStateM ε σ α} {k : α → EStateM ε σ β} {s s' : σ} {e : ε} :
    (x >>= k) s = .error e s' ↔
      x s = .error e s' ∨ ∃ a s₁, x s = .ok a s₁ ∧ k a s₁ = .error e s' := by
  rw [bind_apply]
  cases x s <;> simp

end Step

/-! ## Steps of the server -/

namespace Serving

/-- A change of the graph ends as it does without the server. -/
theorem update_map (u : Update digest α) (f : α → Reply) (g : Graph digest) :
    (do return f (← Serving.update u) : Serving digest Reply) g =
      match u g with
      | .ok a g' => .ok (f a) g'
      | .error refusal g' => .error (.store refusal) g' := by
  rw [Step.bind_apply, Serving.update, EStateM.adaptExcept]
  cases u g <;> rfl

/-- A look leaves the graph as it is. -/
theorem view_map (v : Graph digest → Except Refusal α) (f : α → Reply) (g : Graph digest) :
    (do return f (← Serving.view v) : Serving digest Reply) g =
      match v g with
      | .ok a => .ok (f a) g
      | .error refusal => .error (.store refusal) g := by
  have looked : Serving.view v g
      = (MonadExcept.ofExcept ((v g).mapError .store) : Serving digest α) g := rfl
  rw [Step.bind_apply, looked]
  cases v g <;> rfl

end Serving

/-! ## Operations as actions -/

/-- The action by which a truth value is changed; none if the observation is no truth value. -/
def TruthChange.action? (c : TruthChange) (h : Handle) : Option Action :=
  match c.truth with
  | none => some (.replace h none)
  | some o =>
    match o.toTruth with
    | .ok value => some (if c.replace then .replace h (some value) else .revise h value)
    | .error _ => none

namespace Operation

/-- The action of the graph that an operation calls; none if it only looks at the graph, or if it
comes with an observation that is no truth value. -/
def action? : Operation → Option Action
  | .declareType d => some (.declareType d.name d.parent)
  | .insert i =>
    match i.truth.mapM Observation.toTruth with
    | .ok observation => some (.insert i.atom observation)
    | .error _ => none
  | .remove h cascade => some (if cascade then .removeCascade h else .remove h)
  | .changeTruth h c => c.action? h
  | _ => none

/-- An operation ends as an action ends: accepted or refused alike, in the same graph. -/
def EndsAs (r : EStateM.Result Failure (Graph digest) Reply)
    (a : EStateM.Result Refusal (Graph digest) Unit) : Prop :=
  match a with
  | .ok _ g' => ∃ reply, r = .ok reply g'
  | .error refusal g' => r = .error (.store refusal) g'

/-- An update that is replied to ends as the action that does the same. -/
theorem endsAs_update {u : Update digest α} {a : Update digest Unit} (f : α → Reply)
    (same : (do let _ ← u : Update digest Unit) = a) (g : Graph digest) :
    EndsAs ((do return f (← Serving.update u) : Serving digest Reply) g) (a g) := by
  rw [Serving.update_map, ← same, Step.bind_apply]
  cases u g with
  | ok a g' => exact ⟨f a, rfl⟩
  | error refusal g' => rfl

/-- An insertion whose observation is a truth value stores the atom with it. -/
theorem insertion_run {i : Insertion} {observation : Option Truth}
    (known : i.truth.mapM Observation.toTruth = .ok observation) :
    (i.run : Update digest Stored) = Graph.insert i.atom observation := by
  unfold Insertion.run
  rw [known]
  rfl

/-- A removal does what the action for it does. -/
theorem removal_call (h : Handle) (cascade : Bool) :
    (do let _ ← removal h cascade : Update digest Unit)
      = (if cascade then Action.removeCascade h else Action.remove h).call := by
  cases cascade with
  | true => rfl
  | false =>
    unfold removal
    simp only [Bool.false_eq_true, if_false, bind_assoc, pure_bind]
    rfl

/-- A change of a truth value does what the action for it does. -/
theorem truthChange_call {c : TruthChange} {h : Handle} {a : Action}
    (calls : c.action? h = some a) :
    (do let _ ← c.run h : Update digest Unit) = a.call := by
  unfold TruthChange.action? at calls
  unfold TruthChange.run
  cases ht : c.truth with
  | none =>
    simp only [ht, Option.some.injEq] at calls
    subst calls
    simp only [bind_assoc, pure_bind]
    rfl
  | some o =>
    simp only [ht] at calls
    cases hv : o.toTruth with
    | error refusal => simp [hv] at calls
    | ok value =>
      simp only [hv, Option.some.injEq] at calls
      subst calls
      have given : (MonadExcept.ofExcept (.ok value : Except Refusal Truth) : Update digest Truth)
        = pure value := rfl
      simp only [hv, given, pure_bind]
      cases c.replace with
      | true =>
        simp only [if_true, bind_assoc, pure_bind]
        rfl
      | false =>
        simp only [Bool.false_eq_true, if_false, bind_assoc, pure_bind]
        rfl

/-- **An operation** that calls an action ends as the action ends. -/
theorem endsAs_of_action {op : Operation} {a : Action} (calls : op.action? = some a)
    (caps : Caps) (g : Graph digest) : EndsAs (op.perform caps g) (a.call g) := by
  cases op with
  | declareType d =>
    cases calls
    exact endsAs_update (.declared d.name) rfl g
  | insert i =>
    unfold action? at calls
    cases ht : i.truth.mapM Observation.toTruth with
    | error refusal => simp [ht] at calls
    | ok observation =>
      simp only [ht, Option.some.injEq] at calls
      subst calls
      apply endsAs_update .stored
      rw [insertion_run ht]
      rfl
  | remove h cascade =>
    cases calls
    exact endsAs_update .removed (removal_call h cascade) g
  | changeTruth h c => exact endsAs_update (.truth h) (truthChange_call calls) g
  | _ => cases calls

end Operation

/-! ## Operations that only look -/

/-- **A stored atom** of a reachable graph can always be described, since its type is declared. -/
theorem Graph.Reachable.describe_eq (hg : g.Reachable) (h : Handle) :
    (∃ view, g.describe h = .ok view) ∨ g.describe h = .error (.store (.notFound h)) := by
  unfold Graph.describe Graph.atom
  cases hc : g.content? h with
  | none => exact .inr rfl
  | some c =>
    have declared := (hg.accepting.wellTyped hg.typesMakeSense).declared h c hc
    obtain ⟨name, hname⟩ := (g.types.contains_iff_name? c.type).mp declared
    have stored := Graph.contains_of_content? hc
    have known : g.truth h = .ok (g.truth? h) := by rw [Graph.truth_eq, if_pos stored]
    refine .inl ⟨⟨⟨h, c⟩, name, g.truth? h⟩, ?_⟩
    simp only [Except.mapError, bind, Except.bind, hname, known]
    rfl

namespace Operation

/-- An operation ends in the graph in which it began, and fails only for a reason of the graph. -/
def Looks (r : EStateM.Result Failure (Graph digest) Reply) (g : Graph digest) : Prop :=
  (∃ reply, r = .ok reply g) ∨ ∃ refusal, r = .error (.store refusal) g

/-- A view of the graph only looks. -/
theorem looks_view (v : Graph digest → Except Refusal α) (f : α → Reply) (g : Graph digest) :
    Looks ((do return f (← Serving.view v) : Serving digest Reply) g) g := by
  rw [Serving.view_map]
  cases v g with
  | ok a => exact .inl ⟨f a, rfl⟩
  | error refusal => exact .inr ⟨refusal, rfl⟩

/-- An update that never changes the graph only looks. -/
theorem looks_update {u : Update digest α} {x : Except Refusal α} (f : α → Reply)
    (given : u g = (MonadExcept.ofExcept x : Update digest α) g) :
    Looks ((do return f (← Serving.update u) : Serving digest Reply) g) g := by
  rw [Serving.update_map, given]
  cases x with
  | ok a => exact .inl ⟨f a, rfl⟩
  | error refusal => exact .inr ⟨refusal, rfl⟩

/-- **An operation** that calls no action leaves a reachable graph as it is. -/
theorem looks_of_no_action (hg : g.Reachable) {op : Operation} (calls : op.action? = none)
    (caps : Caps) : Looks (op.perform caps g) g := by
  cases op with
  | health => exact .inl ⟨_, rfl⟩
  | census => exact .inl ⟨_, rfl⟩
  | listTypes => exact .inl ⟨_, rfl⟩
  | declareType d => cases calls
  | atomsOfType typeName withSubtypes => exact looks_view _ _ g
  | insert i =>
    -- only what is out of range calls no action, and it is refused before anything is done
    unfold action? at calls
    cases ht : i.truth.mapM Observation.toTruth with
    | ok observation => simp [ht] at calls
    | error refusal =>
      refine looks_update (x := .error refusal) .stored ?_
      unfold Insertion.run
      rw [ht]
      rfl
  | atom h =>
    rcases hg.describe_eq h with ⟨view, hview⟩ | hview
    · refine .inl ⟨.atom view, ?_⟩
      show (do return .atom (← MonadExcept.ofExcept (g.describe h)) : Serving digest Reply) g = _
      rw [hview]
      rfl
    · refine .inr ⟨.notFound h, ?_⟩
      show (do return .atom (← MonadExcept.ofExcept (g.describe h)) : Serving digest Reply) g = _
      rw [hview]
      rfl
  | remove h cascade => cases calls
  | incoming h => exact looks_view _ _ g
  | truth h => exact looks_view _ _ g
  | changeTruth h c =>
    unfold action? TruthChange.action? at calls
    cases ht : c.truth with
    | none => simp [ht] at calls
    | some o =>
      simp only [ht] at calls
      cases hv : o.toTruth with
      | ok value => simp [hv] at calls
      | error refusal =>
        refine looks_update (x := .error refusal) (.truth h) ?_
        unfold TruthChange.run
        rw [ht]
        simp only [hv]
        rfl
  | inquire i => exact looks_update (x := g.answer i caps) .answer rfl

/-! ## All operations -/

/-- Only a removal with all that depends on the atom calls a cascade. -/
theorem eq_of_cascade {op : Operation} {h : Handle} (calls : op.action? = some (.removeCascade h)) :
    op = .remove h true := by
  cases op with
  | remove h' cascade =>
    cases cascade with
    | true =>
      cases calls
      rfl
    | false => cases calls
  | insert i =>
    unfold action? at calls
    cases ht : i.truth.mapM Observation.toTruth with
    | ok observation => simp [ht] at calls
    | error refusal => simp [ht] at calls
  | changeTruth h' c =>
    have calls : c.action? h' = some (.removeCascade h) := calls
    unfold TruthChange.action? at calls
    cases ht : c.truth with
    | none => simp [ht] at calls
    | some o =>
      cases hv : o.toTruth with
      | error refusal => simp [ht, hv] at calls
      | ok value => cases hr : c.replace <;> simp [ht, hv, hr] at calls
  | _ => cases calls

/-- What an operation can end in: an operation that calls no action leaves the graph as it is, and
so does one that is refused; only a cascade asks for handles to be left. -/
inductive Performed (op : Operation) (g : Graph digest) :
    EStateM.Result Failure (Graph digest) Reply → Prop
  | done (reply : Reply) (g' : Graph digest) (reachable : g'.Reachable)
    (same : op.action? = none → g' = g) : Performed op g (.ok reply g')
  | refused (refusal : Refusal) (g' : Graph digest) (reachable : g'.Reachable)
    (same : (∀ h, op = .remove h true → g.HandlesLeft) → g' = g) :
    Performed op g (.error (.store refusal) g')

/-- **Every operation** on a reachable graph ends in a reachable graph; if it fails, it fails for a
reason of the graph. -/
theorem performed (hg : g.Reachable) (op : Operation) (caps : Caps) :
    Performed op g (op.perform caps g) := by
  cases calls : op.action? with
  | none =>
    rcases looks_of_no_action hg calls caps with ⟨reply, hr⟩ | ⟨refusal, hr⟩
    · rw [hr]
      exact .done reply g hg fun _ => rfl
    · rw [hr]
      exact .refused refusal g hg fun _ => rfl
  | some a =>
    have ends := endsAs_of_action calls caps g
    have reachable : (Graph.after a.call g).Reachable := by
      rw [← Graph.apply_eq_after_call]
      exact hg.run [a]
    unfold EndsAs at ends
    unfold Graph.after at reachable
    cases hc : a.call g with
    | ok _ g' =>
      rw [hc] at ends reachable
      obtain ⟨reply, hr⟩ := ends
      rw [hr]
      exact .done reply g' reachable fun looks => by rw [calls] at looks; cases looks
    | error refusal g' =>
      rw [hc] at ends reachable
      rw [show op.perform caps g = .error (.store refusal) g' from ends]
      refine .refused refusal g' reachable fun room => ?_
      have coherent : ∀ h, a = .removeCascade h → g.Coherent := by
        rintro h rfl
        exact hg.coherent (room h (eq_of_cascade calls))
      exact Graph.atomic_call hg.typesMakeSense.wellFormed a coherent refusal g' hc

end Operation

/-! ## Changes of truth -/

namespace Graph

/-- A truth value that replaces another is the one that is stored then. -/
theorem truth_of_replace {h : Handle} {value place : Option Truth}
    (accepted : replace h value g = .ok place g') : g'.truth h = .ok value := by
  rw [replace_eq] at accepted
  by_cases stored : g.contains h
  · rw [if_pos stored] at accepted
    cases accepted
    rw [truth_eq, if_pos ((contains_setTruth h value h).mpr stored), truth?_setTruth, if_pos rfl,
      if_pos stored]
  · rw [if_neg stored] at accepted
    cases accepted

/-- The truth value that a revision answers is the one that is stored then. -/
theorem truth_of_revise {h : Handle} {observation value : Truth}
    (accepted : revise h observation g = .ok value g') : g'.truth h = .ok (some value) := by
  rw [revise_eq] at accepted
  by_cases stored : g.contains h
  · rw [if_pos stored] at accepted
    cases accepted
    rw [truth_eq, if_pos ((contains_observe h _ h).mpr stored), truth?_observe_self stored]
  · rw [if_neg stored] at accepted
    cases accepted

/-- **The truth value** that a change answers is the one that is stored then. -/
theorem truth_of_change {c : TruthChange} {h : Handle} {value : Option Truth}
    (accepted : c.run h g = .ok value g') : g'.truth h = .ok value := by
  unfold TruthChange.run at accepted
  cases ht : c.truth with
  | none =>
    simp only [ht] at accepted
    obtain ⟨place, g₁, replaced, ends⟩ := Step.bind_eq_ok.mp accepted
    cases ends
    exact truth_of_replace replaced
  | some o =>
    simp only [ht] at accepted
    obtain ⟨observation, g₁, read, change⟩ := Step.bind_eq_ok.mp accepted
    cases hr : c.replace with
    | true =>
      simp only [hr, if_true] at change
      obtain ⟨place, g₂, replaced, ends⟩ := Step.bind_eq_ok.mp change
      cases ends
      exact truth_of_replace replaced
    | false =>
      simp only [hr, Bool.false_eq_true, if_false] at change
      obtain ⟨merged, g₂, revised, ends⟩ := Step.bind_eq_ok.mp change
      cases ends
      exact truth_of_revise revised

end Graph

end TypedHypergraph
