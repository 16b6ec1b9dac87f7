/-
# Plans of patterns

What holds of the plan of a pattern that is accepted.  Either the pattern cannot be solved and the
plan has nothing to search, or the plan is ready, its goals say what the clauses say, and its checks
what the constraints say (`Graph.compile_eq_ok`, `Compiled`).
-/
import TypedHypergraph.Proofs.Checking
import TypedHypergraph.Proofs.Rendering

namespace TypedHypergraph

variable {digest : Content → UInt64} {g : Graph digest} {p : Pattern} {plan : Plan}

/-- The parts of a plan come from the parts of a pattern. -/
structure Compiled (g : Graph digest) (p : Pattern) (plan : Plan) : Prop where
  ready : plan.Ready
  nonempty : plan.goals ≠ []
  length : plan.goals.length = p.clauses.length
  describes : Describes g p.occurrences plan.slots
  denotes_iff : ∀ values hs, Term.DenoteAll g (valueOf plan.slots values) p.clauses hs ↔
    Goal.HoldAll g values plan.goals hs
  checks : List.Forall₂ (fun c check =>
    g.types.compileConstraint plan.slots p.clauses.length c = .ok check) p.constraints plan.checks

/-- There is something to search. -/
theorem Compiled.order_ne_nil (hc : Compiled g p plan) : plan.order ≠ [] := by
  intro hnil
  have hlen := hc.ready.length_order
  rw [hnil, List.length_nil] at hlen
  exact hc.nonempty (List.length_eq_zero_iff.mp hlen.symm)

namespace Graph

/-- Each term gives one goal. -/
theorem length_of_compileTerms {depth : Nat} {slots slots' : List Slot} {terms : List Term}
    {goals : List Goal} (h : g.compileTerms depth slots terms = .ok (some goals, slots')) :
    goals.length = terms.length := by
  induction terms generalizing slots goals with
  | nil =>
    obtain ⟨hgoals, -⟩ := compileTerms_nil h
    cases hgoals
    rfl
  | cons term rest ih =>
    obtain ⟨goal, more, slots₁, -, hrest, hgoals⟩ := compileTerms_cons h
    obtain ⟨x, -, hx⟩ := Option.bind_eq_some_iff.mp hgoals.symm
    obtain ⟨xs, rfl, rfl⟩ := Option.map_eq_some_iff.mp hx
    rw [List.length_cons, List.length_cons, ih hrest]

/-- A plan has nothing to search if there are no goals, and otherwise searches for all of them. -/
theorem compile_parts (h : g.compile p = .ok plan) :
    ∃ goals slots checks, g.compileTerms 0 [] p.clauses = .ok (goals, slots) ∧
      p.constraints.mapM (g.types.compileConstraint slots p.clauses.length) = .ok checks ∧
      ((goals = none ∨ goals = some []) ∧ plan = .hopeless slots ∨
        ∃ xs, xs ≠ [] ∧ goals = some xs ∧
          plan = ⟨slots, xs, Plan.clauseOrder g slots xs, checks,
            Plan.schedule xs (Plan.clauseOrder g slots xs) checks⟩) := by
  unfold compile at h
  simp only [Guards.ite_throw_eq_ok, Guards.bind_eq_ok] at h
  obtain ⟨-, ⟨goals, slots⟩, hterms, checks, hchecks, h⟩ := h
  refine ⟨goals, slots, checks, hterms, hchecks, ?_⟩
  rcases goals with _ | _ | ⟨x, xs⟩
  · exact .inl ⟨.inl rfl, (Guards.pure_eq_ok.mp h).symm⟩
  · exact .inl ⟨.inr rfl, (Guards.pure_eq_ok.mp h).symm⟩
  · exact .inr ⟨x :: xs, List.cons_ne_nil _ _, rfl, (Guards.pure_eq_ok.mp h).symm⟩

end Graph

/-! ## Slots of the variables -/

/-- Each variable that slots describe has a slot. -/
theorem Describes.exists_slotOf? {vars : List Variable} {slots : List Slot}
    (h : Describes g vars slots) {v : Variable} (hv : v ∈ vars) :
    ∃ i, slotOf? slots v.name = some i := by
  cases hs : slotOf? slots v.name with
  | none => exact absurd ((h.names v.name).mpr ⟨v, hv, rfl⟩) (slotOf?_eq_none.mp hs)
  | some i => exact ⟨i, rfl⟩

/-- The slot of a name is one of the slots. -/
theorem lt_of_slotOf? {slots : List Slot} {name : String} {i : Nat}
    (h : slotOf? slots name = some i) : i < slots.length := by
  rw [slotOf?, List.findIdx?_eq_some_iff_getElem] at h
  exact h.1

/-- The slots are those of the names of the variables. -/
theorem Describes.lt_iff {vars : List Variable} {slots : List Slot} (h : Describes g vars slots)
    {i : Nat} : i < slots.length ↔ ∃ v ∈ vars, slotOf? slots v.name = some i := by
  constructor
  · intro hi
    have hs := List.getElem?_eq_getElem hi
    obtain ⟨v, hv, hname⟩ := (h.names slots[i].name).mp
      (List.mem_map_of_mem (List.getElem_mem hi))
    exact ⟨v, hv, (slotOf?_eq_some h.nodup).mpr ⟨slots[i], hs, hname.symm⟩⟩
  · rintro ⟨v, -, hs⟩
    exact lt_of_slotOf? hs

/-- The types of slots are declared. -/
theorem Describes.declared_slots {vars : List Variable} {slots : List Slot}
    (h : Describes g vars slots) (ht : g.types.WellFormed) :
    ∀ s ∈ slots, ∀ type, s.type = some type → g.types.contains type := by
  intro s hs type htype
  obtain ⟨v, -, -, typeName, -, hget⟩ := (h.types s hs type).mp htype
  exact ht.contains_of_get? hget

/-! ## Solutions and slots -/

/-- The atoms of slots, given those of names. -/
def slotValues (slots : List Slot) (values : String → Option Handle) (i : Nat) : Option Handle :=
  slots[i]?.bind fun s => values s.name

/-- The value of a slot is that of the name it was found by. -/
theorem slotValues_of_slotOf? {slots : List Slot} (nodup : (slots.map (·.name)).Nodup)
    {name : String} {i : Nat} (h : slotOf? slots name = some i)
    (values : String → Option Handle) : slotValues slots values i = values name := by
  obtain ⟨s, hs, rfl⟩ := (slotOf?_eq_some nodup).mp h
  rw [slotValues, hs, Option.bind_some]

/-- A solution gives atoms to slots, and these to names again. -/
theorem Pattern.Solution.valueOf_slotValues {slots : List Slot}
    {values : String → Option Handle} {groundings : List Handle}
    (h : p.Solution g values groundings) (hd : Describes g p.occurrences slots) :
    valueOf slots (slotValues slots values) = values := by
  funext name
  cases hs : slotOf? slots name with
  | some i => rw [valueOf_of_slotOf? hs, slotValues_of_slotOf? hd.nodup hs]
  | none =>
    rw [valueOf, hs, Option.bind_none]
    cases hv : values name with
    | none => rfl
    | some a => exact absurd ((hd.names name).mpr (h.named name a hv)) (slotOf?_eq_none.mp hs)

/-! ## Plans -/

/-- **The plan of a pattern** either belongs to a pattern without solutions, or is made from its
parts. -/
theorem Graph.compile_eq_ok (hg : g.Covered) (h : g.compile p = .ok plan) :
    (plan.order = [] ∧ ∀ values groundings, ¬ p.Solution g values groundings) ∨
      Compiled g p plan := by
  obtain ⟨goals, slots, checks, hterms, hchecks, hplan⟩ := compile_parts h
  have rendered := renders_compileTerms hg p.clauses describes_nil hterms
  have hdescribes : Describes g p.occurrences slots := rendered.describes
  have hdenotes := rendered.denotes_iff slots (.refl _)
  rcases hplan with ⟨hnone, rfl⟩ | ⟨xs, hne, rfl, rfl⟩
  · left
    refine ⟨rfl, ?_⟩
    intro values groundings hs
    -- the clauses of a solution have goals, and here there are none
    have hclauses := hs.clauses
    rw [← hs.valueOf_slotValues hdescribes, hdenotes] at hclauses
    obtain ⟨x, hx, hall⟩ := hclauses
    rcases hnone with rfl | rfl
    · cases hx
    · cases hx
      have hlen := length_of_compileTerms hterms
      exact hs.nonempty (List.length_eq_zero_iff.mp hlen.symm)
  · right
    have hlength := length_of_compileTerms hterms
    have hmentions := rendered.mentions_iff slots (.refl _) xs rfl
    rw [Guards.mapM_eq_ok] at hchecks
    refine ⟨⟨Plan.perm_clauseOrder g slots xs, rfl, ?_, ?_⟩, hne, hlength, hdescribes, ?_, hchecks⟩
    · intro i
      rw [hdescribes.lt_iff, ← Goal.mentionedIn_iff, hmentions]
      rfl
    · intro check hcheck
      obtain ⟨c, -, hc⟩ := Guards.exists_of_forall₂ hchecks hcheck
      rw [← hlength] at hc
      exact knows_of_compileConstraint hc
    · intro values hs
      rw [hdenotes]
      simp

/-- A plan with something to search is made from the parts of its pattern. -/
theorem Graph.compiled_of_order_ne_nil (hg : g.Covered) (accepted : g.compile p = .ok plan)
    (nonempty : plan.order ≠ []) : Compiled g p plan := by
  rcases compile_eq_ok hg accepted with ⟨hnil, -⟩ | hc
  · exact absurd hnil nonempty
  · exact hc

end TypedHypergraph
