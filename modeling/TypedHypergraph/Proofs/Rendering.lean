/-
# From terms to goals

A term and the goal that is made of it say the same (`Renders`): the term denotes an atom under the
names of the variables exactly if there is a goal and it holds of this atom under their slots.
There is no goal only if the term denotes nothing, whatever the variables stand for.

This is where ground parts are folded: the goal of a ground term is the atom that it denotes, which
is found by its content.
-/
import TypedHypergraph.Proofs.Goals
import TypedHypergraph.Proofs.Slots

namespace TypedHypergraph

variable {digest : Content → UInt64} {g : Graph digest}

/-- The atoms of names, given those of slots. -/
def valueOf (slots : List Slot) (values : Nat → Option Handle) (name : String) : Option Handle :=
  (slotOf? slots name).bind values

/-- The value of a name is that of its slot. -/
theorem valueOf_of_slotOf? {slots : List Slot} {name : String} {i : Nat}
    (h : slotOf? slots name = some i) (values : Nat → Option Handle) :
    valueOf slots values name = values i := by
  rw [valueOf, h, Option.bind_some]

/-- A part of a pattern, with certain occurrences of variables, has been made ready: what it says
of names is what the result, if there is one, says of slots. -/
structure Renders {α β : Type} (g : Graph digest) (vars : List Variable) (slots : List Slot)
    (occurrences : List Variable) (slots' : List Slot)
    (denotes : (String → Option Handle) → α → Prop) (result : Option β)
    (holds : (Nat → Option Handle) → β → α → Prop) (mentions : Nat → β → Prop) : Prop where
  grows : Grows slots slots'
  describes : Describes g (vars ++ occurrences) slots'
  denotes_iff : ∀ later, Grows slots' later → ∀ values a,
    denotes (valueOf later values) a ↔ ∃ x, result = some x ∧ holds values x a
  mentions_iff : ∀ later, Grows slots' later → ∀ x, result = some x → ∀ i,
    mentions i x ↔ ∃ v ∈ occurrences, slotOf? later v.name = some i

/-! ## Making ready, read backwards -/

namespace Graph

/-- A reference compiles to its atom, if that is stored. -/
theorem compileTerm_stored {depth : Nat} {slots slots' : List Slot} {h : Handle}
    {goal : Option Goal} (hc : g.compileTerm depth slots (.stored h) = .ok (goal, slots')) :
    goal = (if g.contains h then some (.ground h) else none) ∧ slots' = slots := by
  unfold compileTerm at hc
  simp only [Guards.ite_throw_eq_ok, Guards.pure_eq_ok, Prod.mk.injEq] at hc
  exact ⟨hc.2.1.symm, hc.2.2.symm⟩

/-- A ground node compiles to its atom, if that is stored. -/
theorem compileTerm_node {depth : Nat} {slots slots' : List Slot} {typeName name : String}
    {goal : Option Goal}
    (hc : g.compileTerm depth slots (.node typeName name) = .ok (goal, slots')) :
    ∃ type, g.types.get? typeName = some type ∧
      goal = (g.lookup (.node type name)).map .ground ∧ slots' = slots := by
  unfold compileTerm at hc
  simp only [Guards.ite_throw_eq_ok, Guards.bind_eq_ok, Guards.pure_eq_ok, Prod.mk.injEq,
    TypeTree.resolve_eq_ok] at hc
  obtain ⟨-, type, ht, -, hgoal, hslots⟩ := hc
  exact ⟨type, ht, hgoal.symm, hslots.symm⟩

/-- A variable compiles to its slot. -/
theorem compileTerm_var {depth : Nat} {slots slots' : List Slot} {v : Variable}
    {goal : Option Goal} (hc : g.compileTerm depth slots (.var v) = .ok (goal, slots')) :
    ∃ type i, g.resolveRestriction v.typeName = .ok type ∧
      bindSlot slots v.name type = .ok (i, slots') ∧ goal = some (.slot i) := by
  unfold compileTerm at hc
  simp only [Guards.ite_throw_eq_ok, Guards.bind_eq_ok, Guards.pure_eq_ok, Prod.mk.injEq] at hc
  obtain ⟨-, -, type, ht, ⟨i, slots₁⟩, hbind, hgoal, hslots⟩ := hc
  cases hslots
  exact ⟨type, i, ht, hbind, hgoal.symm⟩

/-- The goal of a link over goals; it is folded to an atom if they are. -/
def foldedLink (g : Graph digest) (type : TypeId) (goals : List Goal) : Option Goal :=
  match groundAll? goals with
  | some handles => (g.lookup (.link type handles)).map .ground
  | none => some (.link type goals)

/-- A link compiles to the goals of its members folded into one. -/
theorem compileTerm_link {depth : Nat} {slots slots' : List Slot} {typeName : String}
    {members : List Term} {goal : Option Goal}
    (hc : g.compileTerm depth slots (.link typeName members) = .ok (goal, slots')) :
    ∃ type goals, g.types.get? typeName = some type ∧
      g.compileTerms (depth + 1) slots members = .ok (goals, slots') ∧
      goal = goals.bind (g.foldedLink type) := by
  unfold compileTerm at hc
  simp only [Guards.ite_throw_eq_ok, Guards.bind_eq_ok, TypeTree.resolve_eq_ok] at hc
  obtain ⟨-, type, ht, ⟨goals, slots₁⟩, hmembers, hrest⟩ := hc
  refine ⟨type, goals, ht, ?_⟩
  cases goals with
  | none =>
    simp only [Guards.pure_eq_ok, Prod.mk.injEq] at hrest
    obtain ⟨rfl, rfl⟩ := hrest
    exact ⟨hmembers, rfl⟩
  | some goals =>
    rw [Option.bind_some, foldedLink]
    cases hground : groundAll? goals with
    | none =>
      simp only [hground, Guards.pure_eq_ok, Prod.mk.injEq] at hrest
      obtain ⟨rfl, rfl⟩ := hrest
      exact ⟨hmembers, rfl⟩
    | some handles =>
      simp only [hground, Guards.pure_eq_ok, Prod.mk.injEq] at hrest
      obtain ⟨rfl, rfl⟩ := hrest
      exact ⟨hmembers, rfl⟩

/-- No terms compile to no goals. -/
theorem compileTerms_nil {depth : Nat} {slots slots' : List Slot} {goals : Option (List Goal)}
    (hc : g.compileTerms depth slots [] = .ok (goals, slots')) :
    goals = some [] ∧ slots' = slots := by
  unfold compileTerms at hc
  simp only [Guards.pure_eq_ok, Prod.mk.injEq] at hc
  exact ⟨hc.1.symm, hc.2.symm⟩

/-- Several terms compile one after the other, and have goals only if each of them has. -/
theorem compileTerms_cons {depth : Nat} {slots slots' : List Slot} {term : Term}
    {rest : List Term} {goals : Option (List Goal)}
    (hc : g.compileTerms depth slots (term :: rest) = .ok (goals, slots')) :
    ∃ goal more slots₁, g.compileTerm depth slots term = .ok (goal, slots₁) ∧
      g.compileTerms depth slots₁ rest = .ok (more, slots') ∧
      goals = goal.bind fun goal => more.map (goal :: ·) := by
  unfold compileTerms at hc
  simp only [Guards.bind_eq_ok] at hc
  obtain ⟨⟨goal, slots₁⟩, hterm, ⟨more, slots₂⟩, hrest, hc⟩ := hc
  refine ⟨goal, more, slots₁, hterm, ?_⟩
  cases goal with
  | none =>
    simp only [Guards.pure_eq_ok, Prod.mk.injEq] at hc
    obtain ⟨rfl, rfl⟩ := hc
    exact ⟨hrest, rfl⟩
  | some goal =>
    cases more with
    | none =>
      simp only [Guards.pure_eq_ok, Prod.mk.injEq] at hc
      obtain ⟨rfl, rfl⟩ := hc
      exact ⟨hrest, rfl⟩
    | some more =>
      simp only [Guards.pure_eq_ok, Prod.mk.injEq] at hc
      obtain ⟨rfl, rfl⟩ := hc
      exact ⟨hrest, rfl⟩

/-! ## Results -/

/-- A stored atom is named by its handle. -/
theorem holds_stored_iff {m h : Handle} {values : Nat → Option Handle} :
    (∃ x, (if g.contains m then some (.ground m) else none) = some x ∧ Goal.Holds g values x h) ↔
      m = h ∧ g.contains h := by
  constructor
  · rintro ⟨x, hx, hh⟩
    split at hx
    · rename_i hm
      cases hx
      rw [Goal.Holds] at hh
      subst hh
      exact ⟨rfl, hm⟩
    · cases hx
  · rintro ⟨rfl, hm⟩
    rw [if_pos hm]
    exact ⟨_, rfl, by rw [Goal.Holds]⟩

/-- A content is looked up once and for all. -/
theorem holds_lookup_iff (hg : g.Covered) {c : Content} {h : Handle}
    {values : Nat → Option Handle} :
    (∃ x, (g.lookup c).map .ground = some x ∧ Goal.Holds g values x h) ↔
      g.content? h = some c := by
  rw [← hg.lookup_iff]
  cases g.lookup c with
  | none => simp
  | some found => simp [Goal.Holds]

/-- What is looked up mentions no slot. -/
theorem not_mentions_lookup {c : Content} {x : Goal} (hx : (g.lookup c).map .ground = some x)
    (i : Nat) : ¬ x.Mentions i := by
  obtain ⟨found, -, rfl⟩ := Option.map_eq_some_iff.mp hx
  rw [Goal.Mentions]
  exact id

/-- **Folding** a link over ground goals does not change what it says. -/
theorem holds_foldedLink_iff (hg : g.Covered) {type : TypeId} {goals : List Goal} {h : Handle}
    {values : Nat → Option Handle} :
    (∃ x, g.foldedLink type goals = some x ∧ Goal.Holds g values x h) ↔
      ∃ hs, Goal.HoldAll g values goals hs ∧ g.content? h = some (.link type hs) := by
  unfold foldedLink
  cases hground : groundAll? goals with
  | none => simp [Goal.Holds]
  | some handles =>
    dsimp only
    rw [holds_lookup_iff hg]
    simp only [Goal.holdAll_iff_of_ground hground, exists_eq_left]

/-- A folded link mentions the slots that its members mention. -/
theorem mentions_foldedLink {type : TypeId} {goals : List Goal} {x : Goal}
    (hx : g.foldedLink type goals = some x) (i : Nat) :
    x.Mentions i ↔ Goal.MentionedIn i goals := by
  unfold foldedLink at hx
  cases hground : groundAll? goals with
  | none =>
    rw [hground] at hx
    cases hx
    rw [Goal.Mentions]
  | some handles =>
    rw [hground] at hx
    exact iff_of_false (not_mentions_lookup hx i) (Goal.not_mentionedIn_of_ground hground)

/-- The first of several goals may fail to be there; they hold if all are there and hold. -/
theorem holdAll_cons_iff {goal : Option Goal} {more : Option (List Goal)} {hs : List Handle}
    {values : Nat → Option Handle} :
    (∃ xs, goal.bind (fun goal => more.map (goal :: ·)) = some xs ∧ Goal.HoldAll g values xs hs) ↔
      ∃ h rest, (∃ x, goal = some x ∧ Goal.Holds g values x h) ∧
        (∃ xs, more = some xs ∧ Goal.HoldAll g values xs rest) ∧ hs = h :: rest := by
  cases goal with
  | none => simp
  | some goal =>
    cases more with
    | none => simp
    | some more => simp [Goal.HoldAll]

/-! ## What is made ready says the same -/

mutual

/-- **A goal says what its term says.** -/
theorem renders_compileTerm (hg : g.Covered) : ∀ (term : Term) {depth : Nat}
    {vars : List Variable} {slots slots' : List Slot} {goal : Option Goal},
      Describes g vars slots → g.compileTerm depth slots term = .ok (goal, slots') →
        Renders g vars slots term.occurrences slots' (fun values => term.Denotes g values) goal
          (Goal.Holds g) Goal.Mentions
  | .stored m, depth, vars, slots, slots', goal, hd, hc => by
    obtain ⟨rfl, rfl⟩ := compileTerm_stored hc
    rw [Term.occurrences]
    refine ⟨.refl _, by rw [List.append_nil]; exact hd, ?_, ?_⟩
    · intro later _ values h
      rw [Term.Denotes]
      exact holds_stored_iff.symm
    · intro later _ x hx i
      split at hx
      · cases hx
        simp [Goal.Mentions]
      · cases hx
  | .node typeName name, depth, vars, slots, slots', goal, hd, hc => by
    obtain ⟨type, ht, rfl, rfl⟩ := compileTerm_node hc
    rw [Term.occurrences]
    refine ⟨.refl _, by rw [List.append_nil]; exact hd, ?_, ?_⟩
    · intro later _ values h
      rw [Term.Denotes, holds_lookup_iff hg]
      simp [ht]
    · intro later _ x hx i
      simp [not_mentions_lookup hx i]
  | .var v, depth, vars, slots, slots', goal, hd, hc => by
    obtain ⟨type, i, ht, hbind, rfl⟩ := compileTerm_var hc
    obtain ⟨hgrows, hd', hslot⟩ := hd.bindSlot ht hbind
    rw [Term.occurrences]
    refine ⟨hgrows, hd', ?_, ?_⟩
    · intro later hlater values h
      rw [Term.Denotes, valueOf_of_slotOf? (slotOf?_of_grows hlater hslot)]
      simp [Goal.Holds]
    · intro later hlater x hx j
      cases hx
      rw [Goal.Mentions]
      simp [slotOf?_of_grows hlater hslot]
  | .link typeName members, depth, vars, slots, slots', goal, hd, hc => by
    obtain ⟨type, goals, ht, hmembers, rfl⟩ := compileTerm_link hc
    have rendered := renders_compileTerms hg members hd hmembers
    rw [Term.occurrences]
    refine ⟨rendered.grows, rendered.describes, ?_, ?_⟩
    · intro later hlater values h
      -- a link has a goal only if all its members have, and it is looked up only if all are ground
      have members_iff := rendered.denotes_iff later hlater values
      rw [Term.Denotes]
      cases goals with
      | none => simp [members_iff]
      | some goals =>
        rw [Option.bind_some, holds_foldedLink_iff hg]
        simp [members_iff, ht]
    · intro later hlater x hx i
      obtain ⟨goals', rfl, hx'⟩ := Option.bind_eq_some_iff.mp hx
      rw [mentions_foldedLink hx' i]
      exact rendered.mentions_iff later hlater goals' rfl i

/-- **Several terms** that compile are rendered by their goals. -/
theorem renders_compileTerms (hg : g.Covered) : ∀ (terms : List Term) {depth : Nat}
    {vars : List Variable} {slots slots' : List Slot} {goals : Option (List Goal)},
      Describes g vars slots → g.compileTerms depth slots terms = .ok (goals, slots') →
        Renders g vars slots (Term.allOccurrences terms) slots'
          (fun values => Term.DenoteAll g values terms) goals (Goal.HoldAll g) Goal.MentionedIn
  | [], depth, vars, slots, slots', goals, hd, hc => by
    obtain ⟨rfl, rfl⟩ := compileTerms_nil hc
    rw [Term.allOccurrences]
    refine ⟨.refl _, by rw [List.append_nil]; exact hd, ?_, ?_⟩
    · intro later _ values hs
      simp [Term.DenoteAll, Goal.HoldAll]
    · intro later _ x hx i
      cases hx
      simp [Goal.MentionedIn]
  | term :: rest, depth, vars, slots, slots', goals, hd, hc => by
    obtain ⟨goal, more, slots₁, hterm, hrest, rfl⟩ := compileTerms_cons hc
    have first := renders_compileTerm hg term hd hterm
    have others := renders_compileTerms hg rest first.describes hrest
    rw [Term.allOccurrences]
    refine ⟨first.grows.trans others.grows, ?_, ?_, ?_⟩
    · rw [← List.append_assoc]
      exact others.describes
    · intro later hlater values hs
      rw [Term.DenoteAll, holdAll_cons_iff]
      simp only [first.denotes_iff later (others.grows.trans hlater) values,
        others.denotes_iff later hlater values]
    · intro later hlater xs hxs i
      obtain ⟨x, rfl, hmore⟩ := Option.bind_eq_some_iff.mp hxs
      obtain ⟨rest', rfl, rfl⟩ := Option.map_eq_some_iff.mp hmore
      rw [Goal.MentionedIn, first.mentions_iff later (others.grows.trans hlater) x rfl i,
        others.mentions_iff later hlater rest' rfl i]
      simp [or_and_right, exists_or]

end

end Graph

end TypedHypergraph
