/-
# Observing

The truth value of an atom is set without regard to anything else: contents, types and the supply
of handles stay as they are, and so do the truth values of all other atoms.  Of an atom that is
not stored nothing is known.

An insertion either finds a fault in its description or stores it and then *observes* the atom of
the whole description, if a truth value comes with it (`Graph.insert_eq`).
-/
import TypedHypergraph.Proofs.Changes

namespace TypedHypergraph

namespace Graph

variable {digest : Content → UInt64} {g : Graph digest}

/-! ## Reading truth values -/

/-- Nothing is known of an atom that is not stored. -/
theorem truth?_of_not_contains {h : Handle} (hh : ¬ g.contains h) : g.truth? h = none := by
  rw [contains, Std.TreeMap.contains_eq_isSome_getElem?, Bool.not_eq_true,
    Option.isSome_eq_false_iff, Option.isNone_iff_eq_none] at hh
  rw [truth?, hh, Option.bind_none]

/-- The truth value of an atom can be asked for exactly if the atom is stored. -/
theorem truth_eq (g : Graph digest) (h : Handle) :
    g.truth h = if g.contains h then .ok (g.truth? h) else .error (.notFound h) := by
  rw [truth, truth?, contains, Std.TreeMap.contains_eq_isSome_getElem?]
  cases g.atoms[h]? <;> rfl

/-- Setting a truth value changes that of one stored atom and no other. -/
theorem truth?_setTruth (h : Handle) (value : Option Truth) (x : Handle) :
    (g.setTruth h value).truth? x
      = if h = x then (if g.contains x then value else none) else g.truth? x := by
  rw [truth?, setTruth, Std.TreeMap.getElem?_modify, truth?]
  simp only [Std.compare_eq_iff_eq, contains, Std.TreeMap.contains_eq_isSome_getElem?]
  split
  · rename_i heq
    subst heq
    cases g.atoms[h]? <;> rfl
  · rfl

/-! ## Revising and replacing -/

/-- Merge an observation, if there is one, into the truth value of an atom. -/
def observe (g : Graph digest) (h : Handle) : Option Truth → Graph digest
  | none => g
  | some observation => g.setTruth h (some (TruthValue.absorb (g.truth? h) observation))

/-- To revise the truth value of a stored atom is to observe it; of other atoms there is none. -/
theorem revise_eq (g : Graph digest) (h : Handle) (observation : Truth) :
    revise h observation g =
      if g.contains h then
        .ok (TruthValue.absorb (g.truth? h) observation) (g.observe h (some observation))
      else .error (.notFound h) g := by
  unfold revise
  rw [truth_eq]
  by_cases hh : g.contains h
  · rw [if_pos hh, if_pos hh]
    rfl
  · rw [if_neg hh, if_neg hh]

/-- To replace the truth value of a stored atom gives the old one; of other atoms there is none. -/
theorem replace_eq (g : Graph digest) (h : Handle) (value : Option Truth) :
    replace h value g =
      if g.contains h then .ok (g.truth? h) (g.setTruth h value) else .error (.notFound h) g := by
  unfold replace
  rw [truth_eq]
  by_cases hh : g.contains h
  · rw [if_pos hh, if_pos hh]
  · rw [if_neg hh, if_neg hh]

/-! ## What an observation leaves alone -/

/-- Observing does not change contents. -/
theorem content?_observe (h : Handle) (truth : Option Truth) (x : Handle) :
    (g.observe h truth).content? x = g.content? x := by
  cases truth with
  | none => rfl
  | some observation => exact content?_setTruth h _ x

/-- Observing does not change what is stored. -/
theorem contains_observe (h : Handle) (truth : Option Truth) (x : Handle) :
    (g.observe h truth).contains x ↔ g.contains x := by
  rw [contains_iff, contains_iff, content?_observe]

/-- Observing does not declare types. -/
theorem types_observe (h : Handle) (truth : Option Truth) :
    (g.observe h truth).types = g.types := by
  cases truth <;> rfl

/-- Observing does not give out handles. -/
theorem nextHandle_observe (h : Handle) (truth : Option Truth) :
    (g.observe h truth).nextHandle = g.nextHandle := by
  cases truth <;> rfl

/-- Observing leaves as many handles as there were. -/
theorem handlesLeft_observe (h : Handle) (truth : Option Truth) :
    (g.observe h truth).HandlesLeft ↔ g.HandlesLeft := by
  rw [HandlesLeft, nextHandle_observe, HandlesLeft]

/-- An observation of one atom says nothing about the others. -/
theorem truth?_observe_of_ne {h x : Handle} (truth : Option Truth)
    (hne : x ≠ h ∨ truth = none) : (g.observe h truth).truth? x = g.truth? x := by
  cases truth with
  | none => rfl
  | some observation =>
    have hne' : h ≠ x := fun heq => hne.resolve_right (by simp) heq.symm
    rw [observe, truth?_setTruth, if_neg hne']

/-- The observed atom has its truth value revised by the observation. -/
theorem truth?_observe_self {h : Handle} (hh : g.contains h) (observation : Truth) :
    (g.observe h (some observation)).truth? h
      = some (TruthValue.absorb (g.truth? h) observation) := by
  rw [observe, truth?_setTruth, if_pos rfl, if_pos hh]

/-- Observing a stored atom is a change. -/
theorem changes_observe {h : Handle} (hh : g.contains h) (truth : Option Truth) :
    Changes g (g.observe h truth) := by
  cases truth with
  | none => exact .refl
  | some observation => exact .single (.setTruth hh _)

/-! ## Inserting -/

/-- **Inserting** either finds a fault in the description, with no effect, or stores it and then
observes the atom of the whole description. -/
theorem insert_eq (ht : g.types.WellFormed) (d : Description) (truth : Option Truth) :
    insert d truth g =
      match g.resolve 0 d with
      | .error refusal => .error refusal g
      | .ok r => .ok (g.store r).1 ((g.store r).2.observe (g.store r).1.handle truth) := by
  unfold insert
  cases hr : g.resolve 0 d with
  | error refusal => rfl
  | ok r =>
    have stored := (stores_store r g (resolve_fits ht d hr)).2
    cases truth with
    | none => rfl
    | some observation => simp only [revise_eq, if_pos stored]

/-- An accepted insertion has resolved its description. -/
theorem insert_eq_ok (ht : g.types.WellFormed) {d : Description} {truth : Option Truth}
    {outcome : Stored} {g' : Graph digest} (accepted : insert d truth g = .ok outcome g') :
    ∃ r, g.resolve 0 d = .ok r ∧ outcome = (g.store r).1 ∧
      g' = (g.store r).2.observe (g.store r).1.handle truth := by
  rw [insert_eq ht] at accepted
  cases hr : g.resolve 0 d with
  | error refusal =>
    rw [hr] at accepted
    cases accepted
  | ok r =>
    rw [hr] at accepted
    cases accepted
    exact ⟨r, rfl, rfl, rfl⟩

/-- Whatever comes with it, a description is accepted as soon as it is resolved. -/
theorem exists_insert_iff (ht : g.types.WellFormed) {d : Description} {truth : Option Truth} :
    (∃ outcome g', insert d truth g = .ok outcome g') ↔ (g.resolve 0 d).isOk := by
  rw [insert_eq ht]
  cases g.resolve 0 d with
  | error refusal => simp [Except.isOk, Except.toBool]
  | ok r => simp [Except.isOk, Except.toBool]

/-- An insertion is refused exactly if its description does not resolve. -/
theorem insert_eq_error_iff (ht : g.types.WellFormed) {d : Description} {truth : Option Truth}
    {refusal : Refusal} :
    insert d truth g = .error refusal g ↔ g.resolve 0 d = .error refusal := by
  rw [insert_eq ht]
  cases g.resolve 0 d <;> simp

end Graph

end TypedHypergraph
