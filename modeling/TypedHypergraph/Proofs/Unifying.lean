/-
# Unification

To unify a goal with an atom succeeds only if the goal then holds of the atom (`Graph.unify_sound`),
and it does succeed if the goal holds for any atoms of the slots that agree with those bound so far
(`Graph.unify_complete`).  If it holds for the atoms that are bound, nothing more is bound
(`Graph.unify_of_holds`).
-/
import TypedHypergraph.Proofs.Frames
import TypedHypergraph.Proofs.Goals

namespace TypedHypergraph

/-- What is bound is bound as some atoms of the slots say. -/
def Frame.Agrees (f : Frame) (values : Nat → Option Handle) : Prop :=
  ∀ i h, f.binding? i = some h → values i = some h

namespace Graph

variable {digest : Content → UInt64} {g : Graph digest} {slots : List Slot}

/-- A stored atom may stand for a slot. -/
def Suits (g : Graph digest) (slots : List Slot) (i : Nat) (h : Handle) : Prop :=
  ∃ c, g.content? h = some c ∧ g.allows slots i c.type = true

/-! ## What succeeds is right -/

/-- Between two frames only certain slots have been bound, to atoms that suit them. -/
def Adds (g : Graph digest) (slots : List Slot) (f f' : Frame) (may : Nat → Prop) : Prop :=
  ∀ i h, f'.binding? i = some h → f.binding? i = some h ∨ may i ∧ g.Suits slots i h

theorem Adds.refl (f : Frame) (may : Nat → Prop) : g.Adds slots f f may := fun _ _ h => .inl h

theorem Adds.trans {f f' f'' : Frame} {may may' : Nat → Prop} (h : g.Adds slots f f' may)
    (h' : g.Adds slots f' f'' may') : g.Adds slots f f'' fun i => may i ∨ may' i := by
  intro i a ha
  rcases h' i a ha with ha | ⟨hm, hs⟩
  · rcases h i a ha with ha | ⟨hm, hs⟩
    · exact .inl ha
    · exact .inr ⟨.inl hm, hs⟩
  · exact .inr ⟨.inr hm, hs⟩

mutual

/-- **Where unification succeeds** the goal holds, and what has been bound on the way suits. -/
theorem unify_sound : ∀ (goal : Goal) {f f' : Frame} {h : Handle},
    (∀ i, goal.Mentions i → i < f.bindings.size) → g.unify slots f goal h = (true, f') →
      goal.Holds g f'.binding? h ∧ g.Adds slots f f' goal.Mentions
  | .ground m, f, f', h, _, hu => by
    rw [unify, Prod.mk.injEq, decide_eq_true_eq] at hu
    obtain ⟨rfl, rfl⟩ := hu
    rw [Goal.Holds]
    exact ⟨rfl, .refl f _⟩
  | .slot i, f, f', h, hsize, hu => by
    have hi : i < f.bindings.size := hsize i (by rw [Goal.Mentions])
    rw [unify] at hu
    rw [Goal.Holds]
    cases hb : f.binding? i with
    | some bound =>
      simp only [hb, Prod.mk.injEq, decide_eq_true_eq] at hu
      obtain ⟨rfl, rfl⟩ := hu
      exact ⟨hb, .refl f _⟩
    | none =>
      simp only [hb] at hu
      cases hc : g.content? h with
      | none =>
        rw [hc] at hu
        cases hu
      | some c =>
        simp only [hc] at hu
        split at hu
        · rename_i hallows
          cases hu
          -- this slot and no other one has been bound
          refine ⟨by rw [Frame.binding?_bind, if_pos ⟨rfl, hi⟩], ?_⟩
          intro j a ha
          rw [Frame.binding?_bind] at ha
          split at ha
          · rename_i hij
            cases ha
            rw [← hij.1]
            have here : Goal.Mentions i (.slot i) := by rw [Goal.Mentions]
            exact .inr ⟨here, c, hc, hallows⟩
          · exact .inl ha
        · cases hu
  | .link type goals, f, f', h, hsize, hu => by
    rw [unify] at hu
    split at hu
    · rename_i found members hc
      split at hu
      · rename_i hshape
        obtain ⟨rfl, hlen⟩ := hshape
        have hsize' : ∀ i, Goal.MentionedIn i goals → i < f.bindings.size := by
          intro i hi
          exact hsize i (by rw [Goal.Mentions]; exact hi)
        obtain ⟨hall, hadds⟩ := unifyAll_sound goals hsize' hlen hu
        rw [Goal.Holds]
        refine ⟨⟨members, hall, hc⟩, ?_⟩
        intro i a ha
        show _ ∨ Goal.Mentions i (.link found goals) ∧ _
        rw [Goal.Mentions]
        exact hadds i a ha
      · cases hu
    · cases hu

/-- **Several goals** that unify hold, and only slots that they mention have been bound. -/
theorem unifyAll_sound : ∀ (goals : List Goal) {f f' : Frame} {hs : List Handle},
    (∀ i, Goal.MentionedIn i goals → i < f.bindings.size) → hs.length = goals.length →
      g.unifyAll slots f goals hs = (true, f') →
        Goal.HoldAll g f'.binding? goals hs ∧ g.Adds slots f f' (Goal.MentionedIn · goals)
  | [], f, f', hs, _, hlen, hu => by
    rw [unifyAll, Prod.mk.injEq] at hu
    · rw [← hu.2, Goal.HoldAll]
      exact ⟨List.length_eq_zero_iff.mp hlen, .refl f _⟩
    · simp
  | goal :: goals, f, f', [], _, hlen, _ => by
    cases hlen
  | goal :: goals, f, f', h :: hs, hsize, hlen, hu => by
    rw [unifyAll] at hu
    rcases hfirst : g.unify slots f goal h with ⟨_ | _, f₁⟩
    · rw [hfirst] at hu
      cases hu
    · rw [hfirst] at hu
      dsimp only at hu
      have binds := binds_unify (g := g) slots goal f h
      rw [hfirst] at binds
      -- what the first goal has bound stays bound while the others are unified
      have rest := binds_unifyAll (g := g) slots goals f₁ hs
      rw [hu] at rest
      obtain ⟨hgoal, hadds⟩ := unify_sound goal
        (fun i hi => hsize i (by rw [Goal.MentionedIn]; exact .inl hi)) hfirst
      have hsize' : ∀ i, Goal.MentionedIn i goals → i < f₁.bindings.size := by
        intro i hi
        rw [binds.size]
        exact hsize i (by rw [Goal.MentionedIn]; exact .inr hi)
      obtain ⟨hall, hadds'⟩ := unifyAll_sound goals hsize' (by simpa using hlen) hu
      rw [Goal.HoldAll]
      refine ⟨⟨h, hs, ?_, hall, rfl⟩, ?_⟩
      · exact Goal.Holds.mono (fun i a ha => rest.mono ha) goal hgoal
      · intro i a ha
        show _ ∨ Goal.MentionedIn i (goal :: goals) ∧ _
        rw [Goal.MentionedIn]
        exact hadds.trans hadds' i a ha

end

/-! ## What is right succeeds -/

mutual

/-- **Where a goal holds** for atoms of the slots that suit them and agree with what is bound,
unification succeeds, and they agree also with what is bound then. -/
theorem unify_complete {values : Nat → Option Handle} :
    ∀ (goal : Goal) {f : Frame} {h : Handle}, f.Agrees values →
      (∀ i a, goal.Mentions i → values i = some a → g.Suits slots i a) →
        goal.Holds g values h →
          ∃ f', g.unify slots f goal h = (true, f') ∧ f'.Agrees values
  | .ground m, f, h, hf, _, hh => by
    rw [Goal.Holds] at hh
    rw [unify, decide_eq_true hh]
    exact ⟨f, rfl, hf⟩
  | .slot i, f, h, hf, hsuits, hh => by
    rw [Goal.Holds] at hh
    rw [unify]
    cases hb : f.binding? i with
    | some bound =>
      have heq := hf i bound hb
      rw [hh, Option.some.injEq] at heq
      dsimp only
      rw [decide_eq_true heq.symm]
      exact ⟨f, rfl, hf⟩
    | none =>
      -- the slot is free: it is bound to its own value, which suits it
      obtain ⟨c, hc, hallows⟩ := hsuits i h (by rw [Goal.Mentions]) hh
      simp only [hc, if_pos hallows]
      refine ⟨f.bind i h, rfl, ?_⟩
      intro j a ha
      rw [Frame.binding?_bind] at ha
      split at ha
      · rename_i hij
        cases ha
        rw [← hij.1]
        exact hh
      · exact hf j a ha
  | .link type goals, f, h, hf, hsuits, hh => by
    rw [Goal.Holds] at hh
    obtain ⟨hs, hall, hc⟩ := hh
    have hsuits' : ∀ i a, Goal.MentionedIn i goals → values i = some a → g.Suits slots i a := by
      intro i a hi
      exact hsuits i a (by rw [Goal.Mentions]; exact hi)
    have hshape : type = type ∧ hs.length = goals.length := ⟨rfl, Goal.length_of_holdAll hall⟩
    rw [unify, hc]
    dsimp only
    rw [if_pos hshape]
    exact unifyAll_complete goals hf hsuits' hall

/-- **Several goals** that hold of values unify, and the frame agrees with the values still. -/
theorem unifyAll_complete {values : Nat → Option Handle} :
    ∀ (goals : List Goal) {f : Frame} {hs : List Handle}, f.Agrees values →
      (∀ i a, Goal.MentionedIn i goals → values i = some a → g.Suits slots i a) →
        Goal.HoldAll g values goals hs →
          ∃ f', g.unifyAll slots f goals hs = (true, f') ∧ f'.Agrees values
  | [], f, hs, hf, _, hh => by
    rw [Goal.HoldAll] at hh
    rw [hh, unifyAll]
    · exact ⟨f, rfl, hf⟩
    · simp
  | goal :: goals, f, hs, hf, hsuits, hh => by
    rw [Goal.HoldAll] at hh
    obtain ⟨h, more, hgoal, hrest, rfl⟩ := hh
    obtain ⟨f₁, hfirst, hf₁⟩ := unify_complete goal hf
      (fun i a hi => hsuits i a (by rw [Goal.MentionedIn]; exact .inl hi)) hgoal
    rw [unifyAll, hfirst]
    exact unifyAll_complete goals hf₁
      (fun i a hi => hsuits i a (by rw [Goal.MentionedIn]; exact .inr hi)) hrest

end

/-! ## What holds already -/

mutual

/-- **Where a goal holds** for the atoms that are bound, unification succeeds and binds nothing. -/
theorem unify_of_holds : ∀ (goal : Goal) {f : Frame} {h : Handle},
    goal.Holds g f.binding? h → g.unify slots f goal h = (true, f)
  | .ground m, f, h, hh => by
    rw [Goal.Holds] at hh
    rw [unify, decide_eq_true hh]
  | .slot i, f, h, hh => by
    rw [Goal.Holds] at hh
    rw [unify, hh]
    simp
  | .link type goals, f, h, hh => by
    rw [Goal.Holds] at hh
    obtain ⟨hs, hall, hc⟩ := hh
    rw [unify, hc]
    dsimp only
    rw [if_pos ⟨rfl, Goal.length_of_holdAll hall⟩]
    exact unifyAll_of_holdAll goals hall

/-- Several goals that hold already unify without binding anything. -/
theorem unifyAll_of_holdAll : ∀ (goals : List Goal) {f : Frame} {hs : List Handle},
    Goal.HoldAll g f.binding? goals hs → g.unifyAll slots f goals hs = (true, f)
  | [], f, hs, hh => by
    rw [unifyAll]
    simp
  | goal :: goals, f, hs, hh => by
    rw [Goal.HoldAll] at hh
    obtain ⟨h, more, hgoal, hrest, rfl⟩ := hh
    rw [unifyAll, unify_of_holds goal hgoal]
    exact unifyAll_of_holdAll goals hrest

end

end Graph

end TypedHypergraph
