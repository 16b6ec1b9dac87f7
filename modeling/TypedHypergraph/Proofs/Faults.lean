/-
# What can be wrong with a pattern

The faults of a pattern are listed without reading it in any order (`Pattern.Fault`): a fault of one
of its parts, wherever it stands, types that clash between two occurrences of a variable, or a fault
of a constraint.  They are faults with respect to the declared types; atoms do not occur in them.

A pattern is refused in a graph exactly if it has a fault, and for one of its faults; the types
alone decide which one it is (`Graph.Reachable.validatedAlike`).
-/
import TypedHypergraph.Proofs.Numbering
import TypedHypergraph.Proofs.Typing

namespace TypedHypergraph

variable {digest : Content → UInt64} {g : Graph digest}

/-! ## Faults of parts -/

namespace Term

/-- The type that is written at a term itself. -/
def typeName? : Term → Option String
  | .stored _ => none
  | .node typeName _ => some typeName
  | .var v => v.typeName
  | .link typeName _ => some typeName

mutual

/-- The parts of a term that stands at a level, itself among them, each with its own level. -/
def parts (level : Nat) : Term → List (Nat × Term)
  | .stored h => [(level, .stored h)]
  | .node typeName name => [(level, .node typeName name)]
  | .var v => [(level, .var v)]
  | .link typeName members => (level, .link typeName members) :: allParts (level + 1) members

/-- The parts of several terms that stand at a level. -/
def allParts (level : Nat) : List Term → List (Nat × Term)
  | [] => []
  | term :: rest => term.parts level ++ allParts level rest

end

/-- What is wrong with a part itself. -/
inductive FaultAt (t : TypeTree) (level : Nat) : Term → Refusal → Prop
  | depth {term : Term} : Limits.depth < level → FaultAt t level term (.invalidPattern .depth)
  | undeclared {term : Term} {typeName : String} : term.typeName? = some typeName →
      t.get? typeName = none → FaultAt t level term (.typeUndeclared typeName)
  | groundVariable {typeName name : String} {type : TypeId} : t.get? typeName = some type →
      t.isA type .variableNode →
      FaultAt t level (.node typeName name) (.invalidPattern (.groundVariable typeName name))
  | nameless {v : Variable} : v.name = "" →
      FaultAt t level (.var v) (.invalidPattern .namelessVariable)

end Term

/-- Two occurrences of a variable are restricted to different types. -/
inductive Variable.Clash (t : TypeTree) (vars : List Variable) : Refusal → Prop
  | types {v w : Variable} {a b : String} {type type' : TypeId} : v ∈ vars → w ∈ vars →
      v.name = w.name → v.typeName = some a → w.typeName = some b → t.get? a = some type →
      t.get? b = some type' → type ≠ type' →
      Clash t vars (.invalidPattern (.conflictingTypes v.name))

/-! ## Faults of constraints -/

/-- What is wrong with a target, given the names of the variables and the number of clauses. -/
inductive Target.Fault (names : List String) (clauses : Nat) : Target → Refusal → Prop
  | unbound {name : String} : name ∉ names → Fault names clauses (.var name) (.unboundVariable name)
  | outOfRange {index : Nat} : clauses ≤ index →
      Fault names clauses (.clause index) (.invalidPattern (.clauseOutOfRange index clauses))

/-- What a constraint looks at. -/
def Constraint.targets : Constraint → List Target
  | .condition (.truthAtLeast target _ _) => [target]
  | .condition (.typeIs target _ _) => [target]
  | .condition (.distinct a b) => [.var a, .var b]
  | .predicate p => p.targets

/-- What is wrong with a constraint. -/
inductive Constraint.Fault (t : TypeTree) (names : List String) (clauses : Nat) :
    Constraint → Refusal → Prop
  | target {c : Constraint} {target : Target} {r : Refusal} : target ∈ c.targets →
      target.Fault names clauses r → Fault t names clauses c r
  | threshold {target : Target} {minStrength minConfidence : Float} :
      TruthValue.make? minStrength minConfidence = none →
      Fault t names clauses (.condition (.truthAtLeast target minStrength minConfidence))
        (.invalidTruth minStrength minConfidence)
  | undeclared {target : Target} {typeName : String} {withSubtypes : Bool} :
      t.get? typeName = none →
      Fault t names clauses (.condition (.typeIs target typeName withSubtypes))
        (.typeUndeclared typeName)

/-! ## Faults of patterns -/

/-- **What is wrong with a pattern**, where types are declared as in a tree. -/
inductive Pattern.Fault (t : TypeTree) (p : Pattern) : Refusal → Prop
  | clauseCount : Limits.clauses < p.clauses.length →
      Fault t p (.invalidPattern (.clauseCount p.clauses.length))
  | part {level : Nat} {term : Term} {r : Refusal} : (level, term) ∈ Term.allParts 0 p.clauses →
      term.FaultAt t level r → Fault t p r
  | clash {r : Refusal} : Variable.Clash t p.occurrences r → Fault t p r
  | constraint {c : Constraint} {r : Refusal} : c ∈ p.constraints →
      c.Fault t p.variableNames p.clauses.length r → Fault t p r

/-! ## Numbering finds the faults of terms -/

namespace TypeTree

/-- A restriction is refused only if it names a type that is not declared. -/
theorem resolveRestriction_eq_error {t : TypeTree} {typeName : Option String} {r : Refusal}
    (h : t.resolveRestriction typeName = .error r) :
    ∃ name, typeName = some name ∧ t.get? name = none ∧ r = .typeUndeclared name := by
  cases typeName with
  | none => cases h
  | some name =>
    rw [resolveRestriction] at h
    cases hr : t.resolve name with
    | ok type =>
      rw [hr] at h
      cases h
    | error e =>
      rw [hr] at h
      cases h
      obtain ⟨absent, rfl⟩ := resolve_eq_error.mp hr
      exact ⟨name, rfl, absent, rfl⟩

end TypeTree

/-- A name is refused a slot only where an earlier occurrence clashes. -/
theorem Describes.clash_of_bindSlot {vars : List Variable} {slots : List Slot}
    (described : Describes g vars slots) {v : Variable} {type : Option TypeId} {r : Refusal}
    (htype : g.resolveRestriction v.typeName = .ok type)
    (refused : TypedHypergraph.bindSlot slots v.name type = .error r) :
    Variable.Clash g.types (vars ++ [v]) r := by
  unfold TypedHypergraph.bindSlot at refused
  cases hslot : slotOf? slots v.name with
  | none =>
    rw [hslot] at refused
    cases refused
  | some j =>
    obtain ⟨s, hs, hname⟩ := (slotOf?_eq_some described.nodup).mp hslot
    rw [hslot] at refused
    simp only [hs, Option.bind_some] at refused
    cases hst : s.type with
    | none =>
      rw [hst] at refused
      cases type <;> cases refused
    | some a =>
      rw [hst] at refused
      cases type with
      | none => cases refused
      | some b =>
        simp only at refused
        split at refused
        · cases refused
        · rename_i hab
          cases refused
          obtain ⟨hrestricts, -⟩ := resolveRestriction_eq_ok htype
          obtain ⟨nameb, hb, hgetb⟩ := (hrestricts b).mpr rfl
          obtain ⟨w, hw, hwname, namea, ha, hgeta⟩ :=
            (described.types s (List.mem_of_getElem? hs) a).mp hst
          exact .types (by simp) (by simp [hw]) (by rw [hwname, hname]) hb ha hgetb hgeta
            (Ne.symm hab)

/-- Slots that describe occurrences have found no clash among them. -/
theorem Describes.not_clash {vars : List Variable} {slots : List Slot}
    (described : Describes g vars slots) (r : Refusal) : ¬ Variable.Clash g.types vars r := by
  rintro ⟨hv, hw, hname, ha, hb, hgeta, hgetb, hne⟩
  rename_i v w a b type type'
  obtain ⟨s, hs, hsname⟩ := List.mem_map.mp ((described.names v.name).mpr ⟨v, hv, rfl⟩)
  have htype := (described.types s hs type).mpr ⟨v, hv, hsname.symm, a, ha, hgeta⟩
  have htype' := (described.types s hs type').mpr
    ⟨w, hw, by rw [← hname, hsname], b, hb, hgetb⟩
  rw [htype, Option.some.injEq] at htype'
  exact hne htype'

theorem Variable.Clash.mono {t : TypeTree} {vars more : List Variable} {r : Refusal}
    (h : Clash t vars r) (sub : vars ⊆ more) : Clash t more r := by
  obtain ⟨hv, hw, hname, ha, hb, hgeta, hgetb, hne⟩ := h
  exact .types (sub hv) (sub hw) hname ha hb hgeta hgetb hne

/-- How the numbering of something ends that holds certain occurrences and parts. -/
inductive Judged (g : Graph digest) (vars occurrences : List Variable) (parts : List (Nat × Term)) :
    Except Refusal (List Slot) → Prop
  | accepted {slots : List Slot} : Describes g (vars ++ occurrences) slots →
      (∀ part ∈ parts, ∀ r, ¬ part.2.FaultAt g.types part.1 r) →
      Judged g vars occurrences parts (.ok slots)
  | faulty {part : Nat × Term} {r : Refusal} : part ∈ parts → part.2.FaultAt g.types part.1 r →
      Judged g vars occurrences parts (.error r)
  | clashing {r : Refusal} : Variable.Clash g.types (vars ++ occurrences) r →
      Judged g vars occurrences parts (.error r)

namespace TypeTree

variable {level : Nat} {vars : List Variable} {slots : List Slot}

/-- The guard that every part meets first. -/
theorem judged_guard {occurrences : List Variable} {parts : List (Nat × Term)} {term : Term}
    {x : Except Refusal (List Slot)} (self : (level, term) ∈ parts)
    (shallow : ¬ Limits.depth < level → Judged g vars occurrences parts x) :
    Judged g vars occurrences parts
      (if Limits.depth < level then .error (.invalidPattern .depth) else x) := by
  by_cases deep : Limits.depth < level
  · rw [if_pos deep]
    exact .faulty self (.depth deep)
  · rw [if_neg deep]
    exact shallow deep

/-- A reference is numbered with the right judgement. -/
theorem judged_stored (described : Describes g vars slots) (h : Handle) :
    Judged g vars [] [(level, .stored h)] (g.types.numberTerm level slots (.stored h)) := by
  rw [numberTerm]
  refine judged_guard (List.mem_singleton_self _) fun shallow => ?_
  refine .accepted (by rw [List.append_nil]; exact described) ?_
  simp only [List.forall_mem_singleton]
  rintro r (deep | ⟨⟨⟩, -⟩)
  exact shallow deep

/-- A ground node is numbered with the right judgement. -/
theorem judged_node (described : Describes g vars slots) (typeName name : String) :
    Judged g vars [] [(level, .node typeName name)]
      (g.types.numberTerm level slots (.node typeName name)) := by
  rw [numberTerm]
  refine judged_guard (List.mem_singleton_self _) fun shallow => ?_
  cases hres : g.types.resolve typeName with
  | error r =>
    obtain ⟨absent, rfl⟩ := resolve_eq_error.mp hres
    exact .faulty (List.mem_singleton_self _) (.undeclared rfl absent)
  | ok type =>
    rw [resolve_eq_ok] at hres
    change Judged _ _ _ _ (if _ then _ else _)
    by_cases isVariable : g.types.isA type .variableNode
    · rw [if_pos isVariable]
      exact .faulty (List.mem_singleton_self _) (.groundVariable hres isVariable)
    · rw [if_neg isVariable]
      refine .accepted (by rw [List.append_nil]; exact described) ?_
      simp only [List.forall_mem_singleton]
      rintro r (deep | ⟨⟨⟩, absent⟩ | ⟨declared, isVariable'⟩)
      · exact shallow deep
      · rw [hres] at absent
        cases absent
      · rw [hres, Option.some.injEq] at declared
        subst declared
        exact isVariable isVariable'

/-- A variable is numbered with the right judgement. -/
theorem judged_var (described : Describes g vars slots) (v : Variable) :
    Judged g vars [v] [(level, .var v)] (g.types.numberTerm level slots (.var v)) := by
  rw [numberTerm]
  refine judged_guard (List.mem_singleton_self _) fun shallow => ?_
  by_cases nameless : v.name.isEmpty
  · rw [if_pos nameless]
    exact .faulty (List.mem_singleton_self _) (.nameless (by simpa using nameless))
  rw [if_neg nameless]
  cases hres : g.types.resolveRestriction v.typeName with
  | error r =>
    obtain ⟨typeName, written, absent, rfl⟩ := resolveRestriction_eq_error hres
    exact .faulty (List.mem_singleton_self _) (.undeclared written absent)
  | ok type =>
    have restriction := hres
    rw [← Graph.resolveRestriction_eq] at restriction
    change Judged _ _ _ _ (Except.map _ (bindSlot slots v.name type))
    cases hbind : bindSlot slots v.name type with
    | error r => exact .clashing (described.clash_of_bindSlot restriction hbind)
    | ok bound =>
      refine .accepted (described.bindSlot restriction hbind).2.1 ?_
      obtain ⟨-, declared⟩ := resolveRestriction_eq_ok restriction
      simp only [List.forall_mem_singleton]
      rintro r (deep | ⟨written, absent⟩ | - | noName)
      · exact shallow deep
      · obtain ⟨type, present⟩ := declared _ written
        rw [absent] at present
        cases present
      · exact nameless (by simp [noName])

mutual

/-- **Numbering judges a term**: it is refused for a fault of one of its parts or for a clash, and
if it is accepted, its parts have no fault. -/
theorem judged_numberTerm : ∀ (term : Term) (level : Nat) {vars : List Variable}
    {slots : List Slot}, Describes g vars slots →
      Judged g vars term.occurrences (term.parts level) (g.types.numberTerm level slots term)
  | .stored h, _, _, _, described => by
    rw [Term.occurrences, Term.parts]
    exact judged_stored described h
  | .node typeName name, _, _, _, described => by
    rw [Term.occurrences, Term.parts]
    exact judged_node described typeName name
  | .var v, _, _, _, described => by
    rw [Term.occurrences, Term.parts]
    exact judged_var described v
  | .link typeName members, level, vars, slots, described => by
    rw [numberTerm, Term.occurrences, Term.parts]
    refine judged_guard List.mem_cons_self fun shallow => ?_
    cases hres : g.types.resolve typeName with
    | error r =>
      obtain ⟨absent, rfl⟩ := resolve_eq_error.mp hres
      exact .faulty List.mem_cons_self (.undeclared rfl absent)
    | ok type =>
      rw [resolve_eq_ok] at hres
      change Judged _ _ _ _ (g.types.numberTerms (level + 1) slots members)
      have inner := judged_numberTerms members (level + 1) described
      generalize g.types.numberTerms (level + 1) slots members = numbered at inner ⊢
      rcases inner with ⟨described', sound⟩ | ⟨hpart, fault⟩ | clash
      · refine .accepted described' ?_
        rw [List.forall_mem_cons]
        refine ⟨?_, sound⟩
        rintro r (deep | ⟨⟨⟩, absent⟩)
        · exact shallow deep
        · rw [hres] at absent
          cases absent
      · exact .faulty (List.mem_cons_of_mem _ hpart) fault
      · exact .clashing clash

/-- **Several terms** are numbered with the right judgement, one after the other. -/
theorem judged_numberTerms : ∀ (terms : List Term) (level : Nat) {vars : List Variable}
    {slots : List Slot}, Describes g vars slots →
      Judged g vars (Term.allOccurrences terms) (Term.allParts level terms)
        (g.types.numberTerms level slots terms)
  | [], level, vars, slots, described => by
    rw [numberTerms, Term.allOccurrences, Term.allParts]
    exact .accepted (by rw [List.append_nil]; exact described) (by simp)
  | term :: rest, level, vars, slots, described => by
    rw [numberTerms, Term.allOccurrences, Term.allParts]
    have first := judged_numberTerm term level described
    generalize g.types.numberTerm level slots term = numbered at first ⊢
    rcases first with ⟨described', sound⟩ | ⟨hpart, fault⟩ | clash
    · rename_i slots'
      change Judged _ _ _ _ (g.types.numberTerms level slots' rest)
      have others := judged_numberTerms rest level described'
      generalize g.types.numberTerms level slots' rest = numbered at others ⊢
      rcases others with ⟨described'', sound'⟩ | ⟨hpart, fault⟩ | clash
      · refine .accepted (by rw [← List.append_assoc]; exact described'') ?_
        rw [List.forall_mem_append]
        exact ⟨sound, sound'⟩
      · exact .faulty (List.mem_append_right _ hpart) fault
      · exact .clashing (by rw [← List.append_assoc]; exact clash)
    · exact .faulty (List.mem_append_left _ hpart) fault
    · refine .clashing (clash.mono ?_)
      rw [← List.append_assoc]
      exact List.subset_append_left _ _

end

end TypeTree

/-! ## Making constraints ready finds their faults -/

section Constraints

variable {t : TypeTree} {slots : List Slot} {clauses : Nat}

/-- The name of a variable is refused exactly if no slot has it. -/
theorem resolveVariable_eq_error {name : String} {r : Refusal} :
    resolveVariable slots name = .error r ↔
      name ∉ slots.map (·.name) ∧ r = .unboundVariable name := by
  rw [resolveVariable, ← slotOf?_eq_none]
  cases slotOf? slots name <;> simp [eq_comm]

/-- A target is refused exactly for its fault. -/
theorem resolveTarget_eq_error {target : Target} {r : Refusal} :
    resolveTarget slots clauses target = .error r ↔
      target.Fault (slots.map (·.name)) clauses r := by
  cases target with
  | var name =>
    rw [resolveTarget]
    constructor
    · intro h
      cases hv : resolveVariable slots name with
      | ok i =>
        rw [hv] at h
        cases h
      | error e =>
        rw [hv] at h
        cases h
        obtain ⟨absent, rfl⟩ := resolveVariable_eq_error.mp hv
        exact .unbound absent
    · rintro ⟨absent⟩
      rw [resolveVariable_eq_error.mpr ⟨absent, rfl⟩]
      rfl
  | clause index =>
    rw [resolveTarget]
    constructor
    · intro h
      split at h
      · cases h
      · rename_i beyond
        cases h
        exact .outOfRange (not_lt.mp beyond)
    · rintro (_ | beyond)
      rw [if_neg (not_lt.mpr beyond)]

/-- An observation is refused exactly if it is out of range. -/
theorem toTruth_eq_error {strength confidence : Float} {r : Refusal} :
    (Observation.mk strength confidence).toTruth = .error r ↔
      TruthValue.make? strength confidence = none ∧ r = .invalidTruth strength confidence := by
  rw [Observation.toTruth]
  cases TruthValue.make? strength confidence <;> simp [eq_comm]

namespace TypeTree

/-- A constraint is refused for one of its faults. -/
theorem fault_of_compileConstraint {c : Constraint} {r : Refusal}
    (refused : t.compileConstraint slots clauses c = .error r) :
    c.Fault t (slots.map (·.name)) clauses r := by
  cases c with
  | condition condition =>
    cases condition with
    | truthAtLeast target minStrength minConfidence =>
      rw [compileConstraint] at refused
      rcases Guards.bind_eq_error.mp refused with thresholds | ⟨_, -, refused⟩
      · obtain ⟨outside, rfl⟩ := toTruth_eq_error.mp thresholds
        exact .threshold outside
      · rcases Guards.bind_eq_error.mp refused with missed | ⟨_, -, refused⟩
        · exact .target (List.mem_singleton_self _) (resolveTarget_eq_error.mp missed)
        · cases refused
    | typeIs target typeName withSubtypes =>
      rw [compileConstraint] at refused
      rcases Guards.bind_eq_error.mp refused with missed | ⟨_, -, refused⟩
      · exact .target (List.mem_singleton_self _) (resolveTarget_eq_error.mp missed)
      · rcases Guards.bind_eq_error.mp refused with undeclared | ⟨_, -, refused⟩
        · obtain ⟨absent, rfl⟩ := resolve_eq_error.mp undeclared
          exact .undeclared absent
        · cases refused
    | distinct a b =>
      rw [compileConstraint] at refused
      rcases Guards.bind_eq_error.mp refused with missed | ⟨_, -, refused⟩
      · obtain ⟨absent, rfl⟩ := resolveVariable_eq_error.mp missed
        have first : Target.var a ∈ (Constraint.condition (.distinct a b)).targets := by
          simp [Constraint.targets]
        exact .target first (.unbound absent)
      · rcases Guards.bind_eq_error.mp refused with missed | ⟨_, -, refused⟩
        · obtain ⟨absent, rfl⟩ := resolveVariable_eq_error.mp missed
          have second : Target.var b ∈ (Constraint.condition (.distinct a b)).targets := by
            simp [Constraint.targets]
          exact .target second (.unbound absent)
        · cases refused
  | predicate p =>
    rw [compileConstraint] at refused
    rcases Guards.bind_eq_error.mp refused with missed | ⟨_, -, refused⟩
    · obtain ⟨target, htarget, missed⟩ := Guards.exists_of_mapM_eq_error missed
      exact .target htarget (resolveTarget_eq_error.mp missed)
    · cases refused

/-- The targets of a constraint that is accepted are found. -/
theorem resolveTarget_of_compileConstraint {c : Constraint} {check : Check}
    (accepted : t.compileConstraint slots clauses c = .ok check) :
    ∀ target ∈ c.targets, ∃ source, resolveTarget slots clauses target = .ok source := by
  cases c with
  | condition condition =>
    cases condition with
    | truthAtLeast target minStrength minConfidence =>
      simp only [compileConstraint, Guards.bind_eq_ok] at accepted
      obtain ⟨_, -, source, found, -⟩ := accepted
      simpa [Constraint.targets] using ⟨source, found⟩
    | typeIs target typeName withSubtypes =>
      simp only [compileConstraint, Guards.bind_eq_ok] at accepted
      obtain ⟨source, found, -⟩ := accepted
      simpa [Constraint.targets] using ⟨source, found⟩
    | distinct a b =>
      simp only [compileConstraint, Guards.bind_eq_ok] at accepted
      obtain ⟨i, hi, j, hj, -⟩ := accepted
      simp [Constraint.targets, resolveTarget, hi, hj, Except.map]
  | predicate p =>
    simp only [compileConstraint, Guards.bind_eq_ok] at accepted
    obtain ⟨sources, found, -⟩ := accepted
    exact Guards.ok_of_mapM_eq_ok found

/-- A constraint that is accepted has no fault. -/
theorem not_fault_of_compileConstraint {c : Constraint} {check : Check}
    (accepted : t.compileConstraint slots clauses c = .ok check) (r : Refusal) :
    ¬ c.Fault t (slots.map (·.name)) clauses r := by
  rintro (⟨htarget, fault⟩ | outside | absent)
  · obtain ⟨source, found⟩ := resolveTarget_of_compileConstraint accepted _ htarget
    rw [resolveTarget_eq_error.mpr fault] at found
    cases found
  · simp only [compileConstraint, Guards.bind_eq_ok] at accepted
    obtain ⟨_, inside, -⟩ := accepted
    rw [toTruth_eq_error.mpr ⟨outside, rfl⟩] at inside
    cases inside
  · simp only [compileConstraint, Guards.bind_eq_ok, resolve_eq_ok] at accepted
    obtain ⟨_, -, type, present, -⟩ := accepted
    rw [absent] at present
    cases present

end TypeTree

end Constraints

/-! ## Patterns -/

namespace Pattern

variable {p : Pattern}

/-- **A pattern is refused for one of its faults.** -/
theorem fault_of_number {r : Refusal} (refused : g.types.number p = .error r) :
    p.Fault g.types r := by
  rw [TypeTree.number] at refused
  split at refused
  · rename_i many
    cases refused
    exact .clauseCount many
  rcases Guards.bind_eq_error.mp refused with hterms | ⟨slots, hterms, refused⟩
  · have judged := TypeTree.judged_numberTerms p.clauses 0 (describes_nil (g := g))
    rw [hterms] at judged
    rcases judged with _ | ⟨hpart, fault⟩ | clash
    · exact .part hpart fault
    · exact .clash clash
  · rcases Guards.bind_eq_error.mp refused with hchecks | ⟨_, -, refused⟩
    · obtain ⟨c, hc, fault⟩ := Guards.exists_of_mapM_eq_error hchecks
      have names : slots.map (·.name) = p.variableNames :=
        TypeTree.names_of_numberTerms p.clauses hterms
      exact .constraint hc (names ▸ TypeTree.fault_of_compileConstraint fault)
    · cases refused

/-- What the numbering of a pattern has seen when it ends. -/
structure Sound (g : Graph digest) (p : Pattern) (slots : List Slot) : Prop where
  few : ¬ Limits.clauses < p.clauses.length
  describes : Describes g p.occurrences slots
  parts : ∀ part ∈ Term.allParts 0 p.clauses, ∀ r, ¬ part.2.FaultAt g.types part.1 r
  constraints : ∀ c ∈ p.constraints, ∃ check,
    g.types.compileConstraint slots p.clauses.length c = .ok check

/-- A pattern that is numbered is sound, with the slots that it gets. -/
theorem sound_of_number {slots : List Slot} (accepted : g.types.number p = .ok slots) :
    Sound g p slots := by
  rw [TypeTree.number, Guards.ite_error_eq_ok, Guards.bind_eq_ok] at accepted
  obtain ⟨few, slots₁, hterms, accepted⟩ := accepted
  obtain ⟨checks, hchecks, accepted⟩ := Guards.bind_eq_ok.mp accepted
  cases accepted
  have judged := TypeTree.judged_numberTerms p.clauses 0 (describes_nil (g := g))
  rw [hterms] at judged
  obtain ⟨described, sound⟩ | _ | _ := judged
  exact ⟨few, described, sound, Guards.ok_of_mapM_eq_ok hchecks⟩

/-- **A pattern that is accepted has no fault.** -/
theorem not_fault_of_number {slots : List Slot} (accepted : g.types.number p = .ok slots)
    (r : Refusal) : ¬ p.Fault g.types r := by
  have sound := sound_of_number accepted
  have names := TypeTree.names_of_number accepted
  rintro (many | ⟨hpart, fault⟩ | clash | ⟨hc, fault⟩)
  · exact sound.few many
  · exact sound.parts _ hpart _ fault
  · exact sound.describes.not_clash _ clash
  · obtain ⟨check, ready⟩ := sound.constraints _ hc
    exact TypeTree.not_fault_of_compileConstraint ready _ (names ▸ fault)

end Pattern

/-! ## Trees that read alike -/

namespace TypeTree

/-- Two trees resolve every name alike and agree on which type is a kind of which. -/
structure ReadsAs (t t' : TypeTree) : Prop where
  get? : ∀ name, t.get? name = t'.get? name
  isA : ∀ id ancestor, t.isA id ancestor = t'.isA id ancestor

/-- The registered types, in their order, determine how a tree reads. -/
theorem WellFormed.readsAs {t t' : TypeTree} (h : t.WellFormed) (h' : t'.WellFormed)
    (same : t.entries = t'.entries) : t.ReadsAs t' where
  get? name := by
    apply Option.ext
    intro id
    rw [h.get?_iff, h'.get?_iff, TypeTree.name?, TypeTree.name?, same]
  isA id ancestor := by
    have parents : t.parent? = t'.parent? := by
      funext id
      rw [TypeTree.parent?, TypeTree.parent?, same]
    have climbs : ∀ fuel id, t.climb fuel id = t'.climb fuel id := by
      intro fuel
      induction fuel with
      | zero => simp [climb]
      | succ fuel ih => simp [climb, parents, ih]
    rw [TypeTree.isA, TypeTree.isA, lineage, lineage, climbs, size, size, same]

namespace ReadsAs

variable {t t' : TypeTree}

/-- Trees that read alike resolve a name alike. -/
theorem resolve (h : t.ReadsAs t') (name : String) : t.resolve name = t'.resolve name := by
  rw [TypeTree.resolve, TypeTree.resolve, h.get?]

mutual

/-- Trees that read alike number a term alike. -/
theorem numberTerm (h : t.ReadsAs t') (depth : Nat) : ∀ (term : Term) (slots : List Slot),
    t.numberTerm depth slots term = t'.numberTerm depth slots term
  | .stored _, slots => by rw [TypeTree.numberTerm, TypeTree.numberTerm]
  | .node _ _, slots => by simp only [TypeTree.numberTerm, h.resolve, h.isA]
  | .var v, slots => by
    have restriction : t.resolveRestriction v.typeName = t'.resolveRestriction v.typeName := by
      cases v.typeName with
      | none => rfl
      | some typeName => rw [resolveRestriction, resolveRestriction, h.resolve]
    rw [TypeTree.numberTerm, TypeTree.numberTerm, restriction]
  | .link _ members, slots => by
    rw [TypeTree.numberTerm, TypeTree.numberTerm, h.resolve,
      numberTerms h (depth + 1) members slots]

/-- Trees that read alike number several terms alike. -/
theorem numberTerms (h : t.ReadsAs t') (depth : Nat) : ∀ (terms : List Term) (slots : List Slot),
    t.numberTerms depth slots terms = t'.numberTerms depth slots terms
  | [], slots => by rw [TypeTree.numberTerms, TypeTree.numberTerms]
  | term :: rest, slots => by
    simp only [TypeTree.numberTerms, numberTerm h depth term, numberTerms h depth rest]

end

/-- Trees that read alike make the same check of a constraint. -/
theorem compileConstraint (h : t.ReadsAs t') (slots : List Slot) (clauses : Nat) (c : Constraint) :
    t.compileConstraint slots clauses c = t'.compileConstraint slots clauses c := by
  rcases c with (_ | _ | _) | _ <;> simp only [TypeTree.compileConstraint, h.resolve]

/-- Trees that read alike number a pattern alike. -/
theorem number (h : t.ReadsAs t') (p : Pattern) : t.number p = t'.number p := by
  have checks : ∀ slots, t.compileConstraint slots p.clauses.length
      = t'.compileConstraint slots p.clauses.length :=
    fun slots => funext (h.compileConstraint slots p.clauses.length)
  simp only [TypeTree.number, h.numberTerms, checks]

end ReadsAs

end TypeTree

/-! ## Validation and data -/

namespace Graph

/-- **A pattern is validated alike** in two graphs: both refuse it, with the same refusal, or both
make it ready with the same slots, and so with the same variables and restrictions.  The plans list
the variables of the pattern where they first occur, also those that have nothing to search.  It is
refused exactly if it has a fault, and for one of its faults. -/
structure ValidatedAlike {digest' : Content → UInt64} (g : Graph digest) (g' : Graph digest')
    (p : Pattern) : Prop where
  agree : (∃ r, g.compile p = .error r ∧ g'.compile p = .error r) ∨
    ∃ plan plan', g.compile p = .ok plan ∧ g'.compile p = .ok plan' ∧ plan.slots = plan'.slots
  names : ∀ plan, g.compile p = .ok plan → plan.variableNames = p.variableNames
  restrictions : ∀ plan, g.compile p = .ok plan → ∀ s ∈ plan.slots, ∀ type,
    s.type = some type ↔ ∃ v ∈ p.occurrences, v.name = s.name ∧ v.Restricts g type
  fault : ∀ r, g.compile p = .error r → p.Fault g.types r
  faultless : ∀ plan, g.compile p = .ok plan → ∀ r, ¬ p.Fault g.types r

variable {digest' : Content → UInt64} {g' : Graph digest'} {p : Pattern} {plan : Plan}

/-- The slots of a compiled plan are those that its pattern was numbered with. -/
theorem number_of_compile_ok (accepted : g.compile p = .ok plan) :
    g.types.number p = .ok plan.slots := by
  rw [← compile_slots, accepted]
  rfl

/-- A pattern is refused exactly if its numbering is, and for the same reason. -/
theorem compile_error_iff {r : Refusal} :
    g.compile p = .error r ↔ g.types.number p = .error r := by
  rw [← compile_slots]
  cases g.compile p <;> simp [Except.map]

/-- **Validation does not depend on the data**: graphs in which the same types are registered
validate every pattern alike, whatever atoms they hold. -/
theorem Reachable.validatedAlike (reachable : g.Reachable) (reachable' : g'.Reachable)
    (types : g.types.entries = g'.types.entries) (p : Pattern) : g.ValidatedAlike g' p := by
  have tree := reachable.typesMakeSense.wellFormed
  have tree' := reachable'.typesMakeSense.wellFormed
  have reads : g.types.number p = g'.types.number p := (tree.readsAs tree' types).number p
  refine ⟨?_, ?_, ?_, ?_, ?_⟩
  · cases accepted : g.compile p with
    | error r =>
      left
      refine ⟨r, rfl, ?_⟩
      rw [compile_error_iff, ← reads, ← compile_error_iff]
      exact accepted
    | ok plan =>
      right
      have numbered := number_of_compile_ok accepted
      rw [reads, ← compile_slots] at numbered
      obtain ⟨plan', accepted', slots⟩ := Guards.map_eq_ok.mp numbered
      exact ⟨plan, plan', rfl, accepted', slots.symm⟩
  · intro plan accepted
    exact TypeTree.names_of_number (number_of_compile_ok accepted)
  · intro plan accepted
    exact (Pattern.sound_of_number (number_of_compile_ok accepted)).describes.types
  · intro r refused
    exact Pattern.fault_of_number (compile_error_iff.mp refused)
  · intro plan accepted
    exact Pattern.not_fault_of_number (number_of_compile_ok accepted)

/-- A link over a node that is stored in one graph only, so that the plan of the other has nothing
to search, and a variable of two types behind it. -/
theorem validatedAlike_of_absent_member :
    let declarations := [Action.declareType "Word" (some "Node"), .declareType "Pair" (some "Link")]
    let g := (empty : Graph fun _ => 0).run declarations
    let g' := (empty : Graph fun _ => 1).run (declarations ++ [.addNode "Word" "a"])
    let clause := Term.link "Pair" [.node "Word" "a", .var ⟨"x", some "Word"⟩]
    let p : Pattern := ⟨[clause, .var ⟨"y", none⟩], []⟩
    let q : Pattern := ⟨[clause, .var ⟨"x", some "Pair"⟩], []⟩
    (g.compile p).toOption.map (·.order) = some [] ∧
      (g'.compile p).toOption.map (·.order) = some [0, 1] ∧ (g.compile q).toOption.isNone ∧
      g.types.entries = g'.types.entries ∧ g.ValidatedAlike g' p ∧ g.ValidatedAlike g' q := by
  intro declarations g g' clause p q
  have types : g.types.entries = g'.types.entries := by decide +kernel
  exact ⟨by decide +kernel, by decide +kernel, by decide +kernel, types,
    Reachable.validatedAlike ⟨_, rfl⟩ ⟨_, rfl⟩ types p,
    Reachable.validatedAlike ⟨_, rfl⟩ ⟨_, rfl⟩ types q⟩

end Graph

end TypedHypergraph
