/-
# Numbering without atoms

What making a pattern ready does to the slots, and why it may refuse the pattern, is said here
without any atoms: `TypeTree.number` reads the pattern and the declared types and nothing else.
Making ready in a graph (`Graph.compile`) looks up the ground parts besides, but whether they are
stored decides neither about the refusal nor about the slots (`Graph.compile_slots`).

The slots bear the names of the variables in the order in which they first occur
(`TypeTree.names_of_number`).
-/
import TypedHypergraph.Proofs.Slots

namespace TypedHypergraph

/-! ## Reading a pattern by its types -/

namespace TypeTree

/-- The type that a variable is restricted to. -/
def resolveRestriction (t : TypeTree) : Option String → Except Refusal (Option TypeId)
  | none => .ok none
  | some typeName => (t.resolve typeName).map some

mutual

/-- Number the variables of a term that stands at a given depth. -/
def numberTerm (t : TypeTree) (depth : Nat) (slots : List Slot) :
    Term → Except Refusal (List Slot)
  | .stored _ =>
    if Limits.depth < depth then .error (.invalidPattern .depth) else .ok slots
  | .node typeName name =>
    if Limits.depth < depth then .error (.invalidPattern .depth)
    else t.resolve typeName >>= fun type =>
      if t.isA type .variableNode then .error (.invalidPattern (.groundVariable typeName name))
      else .ok slots
  | .var v =>
    if Limits.depth < depth then .error (.invalidPattern .depth)
    else if v.name.isEmpty then .error (.invalidPattern .namelessVariable)
    else t.resolveRestriction v.typeName >>= fun type => (bindSlot slots v.name type).map (·.2)
  | .link typeName members =>
    if Limits.depth < depth then .error (.invalidPattern .depth)
    else t.resolve typeName >>= fun _ => t.numberTerms (depth + 1) slots members

/-- Number the variables of terms from left to right. -/
def numberTerms (t : TypeTree) (depth : Nat) (slots : List Slot) :
    List Term → Except Refusal (List Slot)
  | [] => .ok slots
  | term :: rest =>
    t.numberTerm depth slots term >>= fun slots => t.numberTerms depth slots rest

end

/-- Number the variables of a pattern. -/
def number (t : TypeTree) (p : Pattern) : Except Refusal (List Slot) :=
  if Limits.clauses < p.clauses.length then
    .error (.invalidPattern (.clauseCount p.clauses.length))
  else t.numberTerms 0 [] p.clauses >>= fun slots =>
    p.constraints.mapM (t.compileConstraint slots p.clauses.length) >>= fun _ => .ok slots

end TypeTree

/-! ## Atoms decide nothing -/

namespace Graph

variable {digest : Content → UInt64} {g : Graph digest}

/-- A restriction resolves by the types of the graph alone. -/
theorem resolveRestriction_eq (typeName : Option String) :
    g.resolveRestriction typeName = g.types.resolveRestriction typeName := by
  cases typeName <;> rfl

/-- A guard before a computation stands before what is kept of its result. -/
theorem map_guard {α β γ : Type} {c : Prop} [Decidable c] {e : Refusal}
    {rest : γ → Except Refusal α} {x : Except Refusal α} (f : α → β) :
    (if c then (throw e : Except Refusal γ) >>= rest else x).map f
      = if c then .error e else x.map f := by
  by_cases hc : c
  · rw [if_pos hc, if_pos hc]
    rfl
  · rw [if_neg hc, if_neg hc]

/-- A map after two steps is a map after the second one. -/
theorem map_bind {α β γ : Type} {x : Except Refusal α} {k : α → Except Refusal β} (f : β → γ) :
    (x >>= k).map f = x >>= fun a => (k a).map f := by
  cases x <;> rfl

/-- A last step that refuses nothing and keeps a part only passes the part on. -/
theorem map_bind_of_ok {α β γ : Type} {x : Except Refusal α} {k : α → Except Refusal β}
    {f : β → γ} {kept : α → γ} (passes : ∀ a, (k a).map f = .ok (kept a)) :
    (x >>= k).map f = x.map kept := by
  cases x with
  | error e => rfl
  | ok a => exact passes a

mutual

/-- **What is stored does not matter** for the slots of a term and for whether it is refused. -/
theorem compileTerm_slots (depth : Nat) : ∀ (term : Term) (slots : List Slot),
    (g.compileTerm depth slots term).map (·.2) = g.types.numberTerm depth slots term
  | .stored h, slots => by
    rw [compileTerm, TypeTree.numberTerm]
    exact map_guard _
  | .node typeName name, slots => by
    rw [compileTerm, TypeTree.numberTerm]
    refine (map_guard _).trans ?_
    simp only [map_bind, map_guard]
    rfl
  | .var v, slots => by
    rw [compileTerm, TypeTree.numberTerm]
    refine (map_guard _).trans ?_
    simp only [map_guard, map_bind, resolveRestriction_eq]
    congr 2
  | .link typeName members, slots => by
    rw [compileTerm, TypeTree.numberTerm]
    refine (map_guard _).trans ?_
    simp only [map_bind, ← compileTerms_slots (depth + 1) members]
    congr 2
    funext type
    rw [← map_bind]
    -- neither an absent member nor the folding of a ground link touches the slots
    apply map_bind_of_ok
    rintro ⟨_ | goals, slots⟩
    · rfl
    · dsimp only
      cases groundAll? goals <;> rfl

/-- The slots of several compiled terms are those that numbering gives them. -/
theorem compileTerms_slots (depth : Nat) : ∀ (terms : List Term) (slots : List Slot),
    (g.compileTerms depth slots terms).map (·.2) = g.types.numberTerms depth slots terms
  | [], slots => by
    rw [compileTerms, TypeTree.numberTerms]
    rfl
  | term :: rest, slots => by
    rw [compileTerms, TypeTree.numberTerms, ← compileTerm_slots depth term]
    cases g.compileTerm depth slots term with
    | error e => rfl
    | ok first =>
      obtain ⟨goal, slots⟩ := first
      change (g.compileTerms depth slots rest >>= _).map _ = g.types.numberTerms depth slots rest
      refine (map_bind_of_ok ?_).trans (compileTerms_slots depth rest slots)
      rintro ⟨more, slots⟩
      cases goal <;> cases more <;> rfl

end

/-- **Making a pattern ready** refuses it, or numbers its variables, as its types alone decide. -/
theorem compile_slots (g : Graph digest) (p : Pattern) :
    (g.compile p).map (·.slots) = g.types.number p := by
  rw [compile, TypeTree.number, ← compileTerms_slots]
  refine (map_guard _).trans ?_
  cases g.compileTerms 0 [] p.clauses with
  | error e => rfl
  | ok parts =>
    obtain ⟨goals, slots⟩ := parts
    congr 1
    change Except.map _ (p.constraints.mapM _ >>= _) = p.constraints.mapM _ >>= _
    rw [map_bind]
    congr 1
    funext checks
    rcases goals with _ | _ | _ <;> rfl

end Graph

/-! ## Names -/

/-- To give a name a slot is to collect it. -/
theorem names_of_bindSlot {slots slots' : List Slot} {name : String} {type : Option TypeId}
    {i : Nat} (h : bindSlot slots name type = .ok (i, slots')) :
    slots'.map (·.name)
      = if name ∈ slots.map (·.name) then slots.map (·.name)
        else slots.map (·.name) ++ [name] := by
  unfold bindSlot at h
  cases hslot : slotOf? slots name with
  | none =>
    rw [hslot] at h
    cases h
    rw [if_neg (slotOf?_eq_none.mp hslot), List.map_append, List.map_singleton]
  | some j =>
    have known : name ∈ slots.map (·.name) := by
      by_contra absent
      rw [slotOf?_eq_none.mpr absent] at hslot
      cases hslot
    rw [if_pos known]
    rw [hslot] at h
    simp only at h
    split at h
    · split at h
      · cases h
        rfl
      · cases h
    · cases h
      exact names_modify _ _ _
    · cases h
      rfl

namespace TypeTree

variable {t : TypeTree}

mutual

/-- Numbering a term collects the names of its variables. -/
theorem names_of_numberTerm {depth : Nat} : ∀ (term : Term) {slots slots' : List Slot},
    t.numberTerm depth slots term = .ok slots' →
      slots'.map (·.name) = term.collect (slots.map (·.name))
  | .stored _, slots, slots', h => by
    rw [numberTerm, Guards.ite_error_eq_ok] at h
    cases h.2
    rw [Term.collect]
  | .node _ _, slots, slots', h => by
    rw [numberTerm, Guards.ite_error_eq_ok, Guards.bind_eq_ok] at h
    obtain ⟨-, type, -, h⟩ := h
    rw [Guards.ite_error_eq_ok] at h
    cases h.2
    rw [Term.collect]
  | .var v, slots, slots', h => by
    rw [numberTerm, Guards.ite_error_eq_ok, Guards.ite_error_eq_ok, Guards.bind_eq_ok] at h
    obtain ⟨-, -, type, -, h⟩ := h
    obtain ⟨⟨i, slots₁⟩, hbind, rfl⟩ := Guards.map_eq_ok.mp h
    rw [Term.collect]
    exact names_of_bindSlot hbind
  | .link _ members, slots, slots', h => by
    rw [numberTerm, Guards.ite_error_eq_ok, Guards.bind_eq_ok] at h
    obtain ⟨-, type, -, h⟩ := h
    rw [Term.collect]
    exact names_of_numberTerms members h

/-- Numbering several terms collects the names of their variables. -/
theorem names_of_numberTerms {depth : Nat} : ∀ (terms : List Term) {slots slots' : List Slot},
    t.numberTerms depth slots terms = .ok slots' →
      slots'.map (·.name) = Term.collectAll (slots.map (·.name)) terms
  | [], slots, slots', h => by
    rw [numberTerms] at h
    cases h
    rw [Term.collectAll]
  | term :: rest, slots, slots', h => by
    rw [numberTerms, Guards.bind_eq_ok] at h
    obtain ⟨slots₁, hterm, hrest⟩ := h
    rw [Term.collectAll, ← names_of_numberTerm term hterm]
    exact names_of_numberTerms rest hrest

end

/-- **The slots of a pattern** bear the names of its variables, each where it first occurs. -/
theorem names_of_number {p : Pattern} {slots : List Slot} (h : t.number p = .ok slots) :
    slots.map (·.name) = p.variableNames := by
  rw [number, Guards.ite_error_eq_ok, Guards.bind_eq_ok] at h
  obtain ⟨-, slots₁, hterms, h⟩ := h
  obtain ⟨-, -, h⟩ := Guards.bind_eq_ok.mp h
  cases h
  exact names_of_numberTerms p.clauses hterms

end TypeTree

end TypedHypergraph
