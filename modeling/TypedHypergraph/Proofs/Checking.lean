/-
# What checks say

A check looks at nothing but its sources (`Check.passes_congr`), and where these are the atoms of
the variables and of the clauses it says what its constraint says (`passes_iff_holds`).
-/
import TypedHypergraph.Proofs.Guards
import TypedHypergraph.Proofs.Ordering
import TypedHypergraph.Proofs.Slots

namespace TypedHypergraph

variable {digest : Content → UInt64} {g : Graph digest}

/-! ## What a check looks at -/

/-- **A check depends on its sources only.** -/
theorem Check.passes_congr {f f' : Frame} {check : Check}
    (same : ∀ source ∈ check.sources, f.find? source = f'.find? source) :
    check.passes g f = check.passes g f' := by
  cases check with
  | truthAtLeast source minStrength minConfidence =>
    rw [passes, passes, same source (by simp [sources])]
  | typeIs source type withSubtypes =>
    rw [passes, passes, same source (by simp [sources])]
  | distinct a b =>
    have ha : f.binding? a = f'.binding? a := same (.slot a) (by simp [sources])
    have hb : f.binding? b = f'.binding? b := same (.slot b) (by simp [sources])
    rw [passes, passes, ha, hb]
  | predicate targets test =>
    have all : (targets.mapM fun source => (f.find? source).bind g.seen?)
        = targets.mapM fun source => (f'.find? source).bind g.seen? := by
      apply Guards.mapM_congr
      intro source hs
      rw [same source hs]
    rw [passes, passes, all]

/-! ## What a check says -/

/-- A frame shows the atoms of all variables, by name, and of some clauses. -/
structure Frame.Shows (f : Frame) (slots : List Slot) (values : String → Option Handle)
    (groundings : List Handle) (clauses : Nat) : Prop where
  slot : ∀ name i, slotOf? slots name = some i → f.binding? i = values name
  bound : ∀ name i, slotOf? slots name = some i → ∃ h, values name = some h
  clause : ∀ c < clauses, f.grounding? c = groundings[c]?

variable {slots : List Slot} {values : String → Option Handle} {groundings : List Handle}
  {clauses : Nat} {f : Frame}

/-- A name of a variable resolves to the slot with this name. -/
theorem resolveVariable_eq_ok {name : String} {i : Nat} :
    resolveVariable slots name = .ok i ↔ slotOf? slots name = some i := by
  rw [resolveVariable]
  cases slotOf? slots name <;> simp

/-- A target is found at its source. -/
theorem find?_of_resolveTarget (hf : f.Shows slots values groundings clauses) {target : Target}
    {source : Source} (h : resolveTarget slots clauses target = .ok source) :
    f.find? source = target.atom? values groundings := by
  cases target with
  | var name =>
    rw [resolveTarget, Guards.map_eq_ok] at h
    obtain ⟨i, hi, rfl⟩ := h
    exact hf.slot name i (resolveVariable_eq_ok.mp hi)
  | clause index =>
    rw [resolveTarget] at h
    split at h
    · rename_i hlt
      cases h
      exact hf.clause index hlt
    · cases h

/-- What is seen at sources, one by one, is what is seen at their targets. -/
theorem mapM_find?_of_resolveTarget (hf : f.Shows slots values groundings clauses)
    {targets : List Target} {sources : List Source} (h : List.Forall₂
      (fun target source => resolveTarget slots clauses target = .ok source) targets sources) :
    (sources.mapM fun source => (f.find? source).bind g.seen?)
      = targets.mapM fun target => (target.atom? values groundings).bind g.seen? := by
  induction h with
  | nil => rfl
  | cons hsource _ ih =>
    rw [List.mapM_cons, List.mapM_cons, find?_of_resolveTarget hf hsource, ih]

/-- **A check says what its constraint says.** -/
theorem passes_iff_holds (hf : f.Shows slots values groundings clauses) {c : Constraint}
    {check : Check} (h : g.types.compileConstraint slots clauses c = .ok check) :
    check.passes g f = true ↔ c.Holds g values groundings := by
  cases c with
  | condition condition =>
    cases condition with
    | truthAtLeast target minStrength minConfidence =>
      simp only [TypeTree.compileConstraint, Guards.bind_eq_ok, Guards.pure_eq_ok] at h
      obtain ⟨_, -, source, hs, rfl⟩ := h
      rw [Check.passes, find?_of_resolveTarget hf hs, Constraint.Holds, Condition.Holds]
      cases target.atom? values groundings with
      | none => simp
      | some a =>
        rw [Option.bind_some]
        cases hv : g.truth? a <;> simp [hv]
    | typeIs target typeName withSubtypes =>
      simp only [TypeTree.compileConstraint, Guards.bind_eq_ok, Guards.pure_eq_ok,
        TypeTree.resolve_eq_ok] at h
      obtain ⟨source, hs, type, ht, rfl⟩ := h
      rw [Check.passes, find?_of_resolveTarget hf hs, Constraint.Holds, Condition.Holds]
      cases target.atom? values groundings with
      | none => simp
      | some a =>
        rw [Option.bind_some]
        cases hv : g.content? a <;> simp [hv, ht]
    | distinct a b =>
      simp only [TypeTree.compileConstraint, Guards.bind_eq_ok, Guards.pure_eq_ok,
        resolveVariable_eq_ok] at h
      obtain ⟨i, hi, j, hj, rfl⟩ := h
      obtain ⟨x, hx⟩ := hf.bound a i hi
      obtain ⟨y, hy⟩ := hf.bound b j hj
      rw [Check.passes, hf.slot a i hi, hf.slot b j hj, Constraint.Holds, Condition.Holds, hx, hy]
      simp
  | predicate p =>
    simp only [TypeTree.compileConstraint, Guards.bind_eq_ok, Guards.pure_eq_ok] at h
    obtain ⟨sources, hs, rfl⟩ := h
    rw [Guards.mapM_eq_ok] at hs
    rw [Check.passes, mapM_find?_of_resolveTarget hf hs, Constraint.Holds]
    simp only [← Guards.mapM_eq_some]
    cases p.targets.mapM fun target => (target.atom? values groundings).bind g.seen? with
    | none => simp
    | some atoms => simp

/-! ## Where a check looks -/

variable {plan : Plan}

/-- The slot that a name resolves to is one of the plan. -/
theorem knows_of_resolveVariable {name : String} {i : Nat}
    (h : resolveVariable plan.slots name = .ok i) : plan.Knows (.slot i) := by
  rw [resolveVariable_eq_ok, slotOf?, List.findIdx?_eq_some_iff_getElem] at h
  exact h.1

/-- The place that a target resolves to is one of the plan. -/
theorem knows_of_resolveTarget {target : Target} {source : Source}
    (h : resolveTarget plan.slots plan.goals.length target = .ok source) :
    plan.Knows source := by
  cases target with
  | var name =>
    rw [resolveTarget, Guards.map_eq_ok] at h
    obtain ⟨i, hi, rfl⟩ := h
    exact knows_of_resolveVariable hi
  | clause index =>
    rw [resolveTarget] at h
    split at h
    · rename_i hlt
      cases h
      exact hlt
    · cases h

/-- The places that several targets resolve to are all of the plan. -/
theorem knows_of_resolveTargets {targets : List Target} {sources : List Source}
    (h : List.Forall₂ (fun target source =>
      resolveTarget plan.slots plan.goals.length target = .ok source) targets sources) :
    ∀ source ∈ sources, plan.Knows source := by
  induction h with
  | nil => simp
  | cons hsource _ ih =>
    rw [List.forall_mem_cons]
    exact ⟨knows_of_resolveTarget hsource, ih⟩

/-- The sources of a check are slots and clauses that there are. -/
theorem knows_of_compileConstraint {c : Constraint} {check : Check}
    (h : g.types.compileConstraint plan.slots plan.goals.length c = .ok check) :
    ∀ source ∈ check.sources, plan.Knows source := by
  cases c with
  | condition condition =>
    cases condition with
    | truthAtLeast target minStrength minConfidence =>
      simp only [TypeTree.compileConstraint, Guards.bind_eq_ok, Guards.pure_eq_ok] at h
      obtain ⟨_, -, source, hs, rfl⟩ := h
      simp [Check.sources, knows_of_resolveTarget hs]
    | typeIs target typeName withSubtypes =>
      simp only [TypeTree.compileConstraint, Guards.bind_eq_ok, Guards.pure_eq_ok] at h
      obtain ⟨source, hs, type, -, rfl⟩ := h
      simp [Check.sources, knows_of_resolveTarget hs]
    | distinct a b =>
      simp only [TypeTree.compileConstraint, Guards.bind_eq_ok, Guards.pure_eq_ok] at h
      obtain ⟨i, hi, j, hj, rfl⟩ := h
      simp [Check.sources, knows_of_resolveVariable hi, knows_of_resolveVariable hj]
  | predicate p =>
    simp only [TypeTree.compileConstraint, Guards.bind_eq_ok, Guards.pure_eq_ok,
      Guards.mapM_eq_ok] at h
    obtain ⟨sources, hs, rfl⟩ := h
    exact knows_of_resolveTargets hs

end TypedHypergraph
