/-
# Truth values over time

Some actions *tell* something about an atom (`Graph.told`): an insertion with a truth value about
the atom that it hands out, a revision and a replacement about the atom that they name.  No other
action tells anything, and a refused one does not either.

What is known of an atom is what was told of it since it was created, one telling after the other
(`Graph.TruthsAreTold`).  One action leaves what its telling makes of the truth value before
(`Reachable.truth?_apply`), and a run what all tellings make of it (`Reachable.truth?_run`).  A
handle is never given out again, so that an atom that was removed comes back under a new handle and
without a history.
-/
import TypedHypergraph.Proofs.Refusals

namespace TypedHypergraph

/-! ## Tellings -/

/-- What can be told about the truth value of an atom. -/
inductive Telling
  /-- An observation, to be merged into what is known. -/
  | observed (observation : Truth)
  /-- The value itself, or that nothing is known. -/
  | assigned (value : Option Truth)

/-- What a telling leaves of the truth value before. -/
def Telling.leave (place : Option Truth) : Telling → Option Truth
  | .observed observation => some (TruthValue.absorb place observation)
  | .assigned value => value

namespace Graph

variable {digest : Content → UInt64} {g g' : Graph digest}

/-- What an action tells when its turn comes, and about which atom. -/
def told (g : Graph digest) : Action → Option (Handle × Telling)
  | .insert d (some observation) =>
    match insert d (some observation) g with
    | .ok outcome _ => some (outcome.handle, .observed observation)
    | .error _ _ => none
  | .revise h observation =>
    match revise h observation g with
    | .ok _ _ => some (h, .observed observation)
    | .error _ _ => none
  | .replace h value =>
    match replace h value g with
    | .ok _ _ => some (h, .assigned value)
    | .error _ _ => none
  | _ => none

/-- All that a list of actions tells, in order. -/
def tellings (g : Graph digest) : List Action → List (Handle × Telling)
  | [] => []
  | a :: actions => (g.told a).toList ++ tellings (g.apply a) actions

/-- What a list of actions tells about one atom. -/
def tellingsOf (g : Graph digest) (h : Handle) (actions : List Action) : List Telling :=
  ((g.tellings actions).filter (·.1 = h)).map (·.2)

/-- What an action tells about one atom, if anything. -/
def toldOf (g : Graph digest) (h : Handle) (a : Action) : List Telling :=
  ((g.told a).toList.filter (·.1 = h)).map (·.2)

/-- What an atom is told in a run is what its first action tells and what the rest does. -/
theorem tellingsOf_cons (g : Graph digest) (h : Handle) (a : Action) (actions : List Action) :
    g.tellingsOf h (a :: actions) = g.toldOf h a ++ (g.apply a).tellingsOf h actions := by
  rw [tellingsOf, tellings, List.filter_append, List.map_append]
  rfl

/-- An action that tells nothing tells nothing to any atom. -/
theorem toldOf_of_none {a : Action} (untold : g.told a = none) (h : Handle) :
    g.toldOf h a = [] := by
  rw [toldOf, untold]
  rfl

/-- An action that tells something tells it to one atom. -/
theorem toldOf_of_some {a : Action} {x : Handle} {telling : Telling}
    (told : g.told a = some (x, telling)) (h : Handle) :
    g.toldOf h a = if x = h then [telling] else [] := by
  rw [toldOf, told]
  by_cases hx : x = h <;> simp [hx]

/-- An atom that no action addresses is told nothing. -/
theorem tellingsOf_eq_nil {h : Handle} {actions : List Action}
    (untold : ∀ telling, (h, telling) ∉ g.tellings actions) : g.tellingsOf h actions = [] := by
  rw [tellingsOf, List.map_eq_nil_iff, List.filter_eq_nil_iff]
  rintro ⟨x, telling⟩ hmem hx
  rw [decide_eq_true_eq] at hx
  subst hx
  exact untold telling hmem

/-! ## Actions that tell nothing -/

/-- Declarations of types do not touch truth values. -/
theorem truth?_declareType (name : String) (parent : Option String) (h : Handle) :
    (after (declareType name parent) g).truth? h = g.truth? h := by
  rw [after, declareType]
  cases g.types.declare name parent <;> rfl

/-- Inserting a content does not touch truth values, those of new atoms being unknown. -/
theorem Coherent.truth?_insertContent (hg : g.Coherent) (c : Content)
    (room : (after (insertContent c) g).HandlesLeft) (h : Handle) :
    (after (insertContent c) g).truth? h = g.truth? h := by
  unfold after insertContent at room ⊢
  cases hc : g.checkContent c with
  | error refusal => rfl
  | ok _ =>
    rw [hc] at room
    exact (hg.gains_intern room).truth? h

/-- Adding a link does not touch truth values. -/
theorem Coherent.truth?_addLink (hg : g.Coherent) (typeName : String) (members : List Handle)
    (room : (after (addLink typeName members) g).HandlesLeft) (h : Handle) :
    (after (addLink typeName members) g).truth? h = g.truth? h := by
  rw [after_addLink] at room ⊢
  cases ht : g.types.resolve typeName with
  | error refusal => rfl
  | ok type =>
    rw [ht] at room
    exact hg.truth?_insertContent _ room h

/-- What is left after a loss has the truth value that it had. -/
theorem Loses.truth?_eq {gone : List Handle} (lost : g.Loses gone g') {h : Handle}
    (kept : g.contains h → g'.contains h) : g'.truth? h = g.truth? h := by
  by_cases stored : g.contains h
  · have left := ((lost.contains h).mp (kept stored)).2
    rw [truth?, lost.atoms, if_neg left, truth?]
  · have absent : ¬ g'.contains h := fun hh => stored ((lost.contains h).mp hh).1
    rw [truth?_of_not_contains stored, truth?_of_not_contains absent]

/-- A removal, accepted or refused, loses some atoms. -/
theorem Coherent.loses_remove (hg : g.Coherent) (h : Handle) :
    ∃ gone, g.Loses gone (after (remove h) g) := by
  rw [after]
  cases hr : remove h g with
  | error refusal g₁ =>
    rw [atomic_remove h refusal g₁ hr]
    exact ⟨[], .refl g⟩
  | ok atom g₁ =>
    have stored : g.contains h := by
      by_contra absent
      have entry : g.incidence.get? h = none := by
        rw [hg.incidence_eq, if_neg absent]
      rw [remove, entry] at hr
      cases hr
    exact ⟨[h], (hg.referentiallyIntact.removed h atom g₁ stored hr).2⟩

/-- A cascade loses atoms and changes nothing else. -/
theorem Coherent.loses_removeCascade (hg : g.Coherent) (h : Handle) :
    ∃ gone, g.Loses gone (after (removeCascade h) g) := by
  rw [after]
  by_cases stored : g.contains h
  · obtain ⟨removed, g₁, accepted, -, -, -, lost⟩ := hg.cascadesExactly.stored h stored
    rw [accepted]
    exact ⟨removed, lost⟩
  · rw [removeCascade_unknown stored]
    exact ⟨[], .refl g⟩

/-! ## Actions that tell something -/

/-- An insertion says nothing about atoms other than the one that it hands out, and without a truth
value nothing about this one either. -/
theorem Inserted.truth?_eq {d : Description} {truth : Option Truth} {outcome : Stored}
    (inserted : g.Inserted d truth outcome g') {h : Handle}
    (untold : h ≠ outcome.handle ∨ truth = none) : g'.truth? h = g.truth? h := by
  by_cases old : g.contains h
  · exact inserted.untouched h old untold
  · rw [truth?_of_not_contains old]
    by_cases new : g'.contains h
    · exact inserted.unknown h new old untold
    · exact truth?_of_not_contains new

/-- **An insertion** leaves each truth value as what it tells the atom makes of it. -/
theorem Reachable.truth?_insert (hg : g.Reachable) (d : Description) (truth : Option Truth)
    (room : (after (insert d truth) g).HandlesLeft) (h : Handle) :
    (after (insert d truth) g).truth? h
      = (g.toldOf h (.insert d truth)).foldl Telling.leave (g.truth? h) := by
  rw [after] at room ⊢
  cases hi : insert d truth g with
  | error refusal g₁ =>
    have same := atomic_insert hg.typesMakeSense.wellFormed d truth refusal g₁ hi
    have untold : g.told (.insert d truth) = none := by
      cases truth with
      | none => rfl
      | some observation => rw [told, hi]
    rw [toldOf_of_none untold, same]
    rfl
  | ok outcome g₁ =>
    rw [hi] at room
    have inserted := hg.inserted hi room
    cases truth with
    | none =>
      rw [toldOf_of_none rfl]
      exact inserted.truth?_eq (.inr rfl)
    | some observation =>
      have told : g.told (.insert d (some observation))
          = some (outcome.handle, .observed observation) := by rw [told, hi]
      rw [toldOf_of_some told]
      by_cases hh : outcome.handle = h
      · subst hh
        rw [if_pos rfl]
        exact inserted.revised observation rfl
      · rw [if_neg hh]
        exact inserted.truth?_eq (.inl (Ne.symm hh))

/-- **A revision** leaves each truth value as what it tells the atom makes of it. -/
theorem truth?_revise (h : Handle) (observation : Truth) (x : Handle) :
    (after (revise h observation) g).truth? x
      = (g.toldOf x (.revise h observation)).foldl Telling.leave (g.truth? x) := by
  rw [after, revise_eq]
  by_cases hh : g.contains h
  · have told : g.told (.revise h observation) = some (h, .observed observation) := by
      rw [told, revise_eq, if_pos hh]
    rw [if_pos hh, toldOf_of_some told]
    by_cases hx : h = x
    · subst hx
      rw [if_pos rfl]
      exact truth?_observe_self hh observation
    · rw [if_neg hx]
      exact truth?_observe_of_ne _ (.inl (Ne.symm hx))
  · have untold : g.told (.revise h observation) = none := by
      rw [told, revise_eq, if_neg hh]
    rw [if_neg hh, toldOf_of_none untold]
    rfl

/-- **A replacement** leaves each truth value as what it tells the atom makes of it. -/
theorem truth?_replace (h : Handle) (value : Option Truth) (x : Handle) :
    (after (replace h value) g).truth? x
      = (g.toldOf x (.replace h value)).foldl Telling.leave (g.truth? x) := by
  rw [after, replace_eq]
  by_cases hh : g.contains h
  · have told : g.told (.replace h value) = some (h, .assigned value) := by
      rw [told, replace_eq, if_pos hh]
    rw [if_pos hh, toldOf_of_some told, truth?_setTruth]
    by_cases hx : h = x
    · subst hx
      rw [if_pos rfl, if_pos rfl, if_pos hh]
      rfl
    · rw [if_neg hx, if_neg hx]
      rfl
  · have untold : g.told (.replace h value) = none := by
      rw [told, replace_eq, if_neg hh]
    rw [if_neg hh, toldOf_of_none untold]
    rfl

/-! ## Steps and runs -/

/-- **One action** leaves what its telling makes of the truth value before, for every atom that it
does not take away. -/
theorem Reachable.truth?_apply (hg : g.Reachable) (a : Action)
    (room : (g.apply a).HandlesLeft) {h : Handle}
    (kept : g.contains h → (g.apply a).contains h) :
    (g.apply a).truth? h = (g.toldOf h a).foldl Telling.leave (g.truth? h) := by
  have before := changes_apply hg.typesMakeSense.wellFormed a
  have coherent := hg.coherent (room_of_changes before room)
  cases a with
  | declareType name parent => exact truth?_declareType name parent h
  | insert d truth => exact hg.truth?_insert d truth room h
  | addNode typeName name =>
    have same : g.apply (.addNode typeName name) = after (insert (.node typeName name) none) g :=
      after_map _ _
    rw [same] at room ⊢
    exact hg.truth?_insert _ none room h
  | addLink typeName members => exact coherent.truth?_addLink typeName members room h
  | insertContent c => exact coherent.truth?_insertContent c room h
  | remove x =>
    obtain ⟨gone, lost⟩ := coherent.loses_remove x
    exact lost.truth?_eq kept
  | removeCascade x =>
    obtain ⟨gone, lost⟩ := coherent.loses_removeCascade x
    exact lost.truth?_eq kept
  | revise x observation => exact truth?_revise x observation h
  | replace x value => exact truth?_replace x value h

/-- What is stored after an action and again at the end was not taken away in between. -/
theorem Reachable.contains_run_of_contains (hg : g.Reachable) (first rest : List Action)
    (room : (g.run (first ++ rest)).HandlesLeft) {h : Handle}
    (there : g.contains h) (stored : (g.run (first ++ rest)).contains h) :
    (g.run first).contains h := by
  have split : g.run (first ++ rest) = (g.run first).run rest := List.foldl_append
  rw [split] at room stored
  have early := changes_run hg.typesMakeSense first
  have late := changes_run (hg.run first).typesMakeSense rest
  have room' := room_of_changes late room
  have old := (hg.coherent (room_of_changes early room')).handle_lt h there
  exact contains_of_later late room (old.trans_le (nextHandle_le_of_changes early room')) stored

/-- **A run** leaves what all its tellings make of the truth value before, for every atom that is
stored in the end. -/
theorem Reachable.truth?_run (hg : g.Reachable) (actions : List Action)
    (room : (g.run actions).HandlesLeft) {h : Handle}
    (stored : (g.run actions).contains h) :
    (g.run actions).truth? h = (g.tellingsOf h actions).foldl Telling.leave (g.truth? h) := by
  induction actions generalizing g with
  | nil => rfl
  | cons a actions ih =>
    have step : (g.apply a).truth? h = (g.toldOf h a).foldl Telling.leave (g.truth? h) := by
      apply hg.truth?_apply
      · exact room_of_changes (changes_run (hg.run [a]).typesMakeSense actions) room
      · intro there
        exact hg.contains_run_of_contains [a] actions room there stored
    have rest : (g.run (a :: actions)).truth? h
        = ((g.apply a).tellingsOf h actions).foldl Telling.leave ((g.apply a).truth? h) :=
      ih (hg.run [a]) room stored
    rw [rest, step, tellingsOf_cons, List.foldl_append]

/-! ## Histories -/

/-- One of some actions created an atom, which was there from then on; what is known of it in the
end is what was told of it since then, beginning with nothing. -/
def ToldSinceCreation (g : Graph digest) (actions : List Action) (h : Handle) : Prop :=
  ∃ before birth since, actions = before ++ birth :: since ∧
    ¬ (g.run before).contains h ∧
    (∀ part, part <+: since → (g.run (before ++ birth :: part)).contains h) ∧
    (g.run actions).truth h
      = .ok (((g.run before).tellingsOf h (birth :: since)).foldl Telling.leave none)

/-- **A new atom** has been told since its creation what its truth value says. -/
theorem Reachable.toldSinceCreation (hg : g.Reachable) (actions : List Action)
    (room : (g.run actions).HandlesLeft) {h : Handle}
    (new : ¬ g.contains h) (stored : (g.run actions).contains h) :
    g.ToldSinceCreation actions h := by
  induction actions generalizing g with
  | nil => exact absurd stored new
  | cons a actions ih =>
    by_cases born : (g.apply a).contains h
    · refine ⟨[], a, actions, rfl, new, ?_, ?_⟩
      · rintro part ⟨more, rfl⟩
        exact (hg.run [a]).contains_run_of_contains part more room born stored
      · have told := hg.truth?_run (a :: actions) room stored
        rw [truth?_of_not_contains new] at told
        rw [truth_eq, if_pos stored, told]
        rfl
    · obtain ⟨before, birth, since, rfl, absent, there, told⟩ := ih (hg.run [a]) room born stored
      exact ⟨a :: before, birth, since, rfl, absent, there, told⟩

/-- What is known of the atoms after some actions is what was told. -/
structure TruthsAreTold (g : Graph digest) (actions : List Action) : Prop where
  /-- A new atom begins with nothing. -/
  created : ∀ h : Handle, ¬ g.contains h → (g.run actions).contains h →
    g.ToldSinceCreation actions h
  /-- So does an atom that is there again, under a new handle, after it was gone. -/
  again : ∀ (h : Handle) (c : Content), (∀ x, g.content? x ≠ some c) →
    (g.run actions).content? h = some c → ¬ g.contains h ∧ g.ToldSinceCreation actions h
  /-- An old atom begins with what was known of it. -/
  continued : ∀ h : Handle, g.contains h → (g.run actions).contains h →
    (g.run actions).truth h = .ok ((g.tellingsOf h actions).foldl Telling.leave (g.truth? h))
  /-- What is told about other atoms, and what tells nothing, makes no difference. -/
  untouched : ∀ h : Handle, g.contains h → (g.run actions).contains h →
    (∀ telling, (h, telling) ∉ g.tellings actions) → (g.run actions).truth h = g.truth h

/-- **Truth values** belong to single atoms and are never lost: from every reachable graph on, as
long as there are handles left, each atom has what was told of it. -/
theorem Reachable.truthsAreTold (hg : g.Reachable) (actions : List Action)
    (room : (g.run actions).HandlesLeft) : g.TruthsAreTold actions where
  created h new stored := hg.toldSinceCreation actions room new stored
  again h c gone hc := by
    have later := changes_run hg.typesMakeSense actions
    have coherent := hg.coherent (room_of_changes later room)
    have new : ¬ g.contains h := fun there =>
      gone h (content?_of_later later room (coherent.handle_lt h there) hc)
    exact ⟨new, hg.toldSinceCreation actions room new (contains_of_content? hc)⟩
  continued h _ stored := by
    rw [truth_eq, if_pos stored, hg.truth?_run actions room stored]
  untouched h there stored untold := by
    rw [truth_eq, if_pos stored, truth_eq, if_pos there, hg.truth?_run actions room stored,
      tellingsOf_eq_nil untold]
    rfl

/-- A node gets a truth value with its insertion, another one by inserting it again, is cleared and
revised, while links over it come and go with truth values of their own.  After a cascade from the
node, its description creates an atom without a history. -/
theorem truthsAreTold_of_return :
    let a := Description.node "Node" "a"
    let first : List Action := [.insert a (some ⟨1, 1⟩), .insert (.link "Link" [a]) (some ⟨0, 1⟩),
      .insert a none, .insert a (some ⟨0, 0⟩), .removeCascade ⟨1⟩, .replace ⟨0⟩ none,
      .revise ⟨0⟩ ⟨1, 0⟩, .revise ⟨1⟩ ⟨1, 1⟩]
    let g := (empty : Graph fun _ => 0).run (first ++ [.removeCascade ⟨0⟩])
    let second : List Action :=
      [.revise ⟨0⟩ ⟨0, 0⟩, .addNode "Node" "a", .replace ⟨2⟩ (some ⟨1, 0⟩)]
    (empty.run first : Graph fun _ => 0).HandlesLeft ∧
      (empty : Graph fun _ => 0).TruthsAreTold first ∧
      ((empty : Graph fun _ => 0).tellings first).map (·.1) = [⟨0⟩, ⟨1⟩, ⟨0⟩, ⟨0⟩, ⟨0⟩] ∧
      g.handles = [] ∧ (g.run second).HandlesLeft ∧ g.TruthsAreTold second ∧
      (g.run second).handles = [⟨2⟩] ∧ (g.tellings second).map (·.1) = [⟨2⟩] := by
  intro a first g second
  have room : (empty.run first : Graph fun _ => 0).HandlesLeft := by
    decide +kernel
  have room' : (g.run second).HandlesLeft := by decide +kernel
  refine ⟨room, ?_, ?_, ?_, room', ?_, ?_, ?_⟩
  · exact Reachable.truthsAreTold ⟨[], rfl⟩ first room
  · decide +kernel
  · decide +kernel
  · exact Reachable.truthsAreTold ⟨_, rfl⟩ second room'
  · decide +kernel
  · decide +kernel

end Graph

end TypedHypergraph
