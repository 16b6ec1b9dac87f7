/-
# The trail of a search

On the trail of a frame are the slots that are bound in it, each once (`Frame.Tracked`).  Binding a
free slot, undoing, and matching a clause keep it so, also where unification stops halfway.

At every level of a search only slots of the clauses above it are bound in the frame that the level
finds again (`Search.Confined`).  So whatever came of the atoms that were tried before, each time
the search takes the next atom of a level the frame is cleared (`Search.Cleared`): bound are the
slots of the clauses above, matched are these clauses, and each of them is matched by its atom.
-/
import TypedHypergraph.Proofs.Lookups
import TypedHypergraph.Proofs.Seeding

namespace TypedHypergraph

variable {digest : Content → UInt64} {g m now : Graph digest} {past : List (Graph digest)}
  {p : Pattern} {plan : Plan} {f f' : Frame}

/-! ## Bound slots -/

/-- The slots on the trail are those that are bound, each once. -/
structure Frame.Tracked (f : Frame) : Prop where
  bound_iff : ∀ i, (∃ h, f.binding? i = some h) ↔ i ∈ f.trail
  nodup : f.trail.Nodup

namespace Frame

/-- In the empty frame the trail tells right of the bound slots. -/
theorem tracked_empty (plan : Plan) : (Frame.empty plan).Tracked where
  bound_iff i := by
    rw [Search.binding?_empty]
    simp [Frame.empty]
  nodup := List.nodup_nil

namespace Tracked

/-- A slot that is free and has a place comes onto the trail. -/
theorem bind (tracked : f.Tracked) {i : Nat} (hi : i < f.bindings.size)
    (free : f.binding? i = none) (h : Handle) : (f.bind i h).Tracked where
  bound_iff j := by
    rw [binding?_bind, Frame.bind, List.mem_cons]
    by_cases hij : i = j
    · simp [hij, hij ▸ hi]
    · rw [if_neg (fun hboth => hij hboth.1), tracked.bound_iff]
      simp [Ne.symm hij]
  nodup := by
    have off : i ∉ f.trail := by
      rw [← tracked.bound_iff, free]
      simp
    exact List.nodup_cons.mpr ⟨off, tracked.nodup⟩

/-- The slot that comes off the trail is free. -/
theorem pop {bindings groundings : Array (Option Handle)} {i : Nat} {rest : List Nat}
    (tracked : Tracked ⟨bindings, i :: rest, groundings⟩) :
    Tracked ⟨bindings.setIfInBounds i none, rest, groundings⟩ := by
  obtain ⟨off, nodup⟩ := List.nodup_cons.mp tracked.nodup
  refine ⟨?_, nodup⟩
  intro j
  have before := tracked.bound_iff j
  rw [List.mem_cons] at before
  rw [binding?, getElem?_join_setIfInBounds]
  by_cases hij : i = j
  · subst hij
    have within : i < bindings.size := by
      obtain ⟨h, hh⟩ := before.mpr (.inl rfl)
      obtain ⟨x, hx, -⟩ := Option.bind_eq_some_iff.mp hh
      exact (Array.getElem?_eq_some_iff.mp hx).1
    simp [within, off]
  · rw [if_neg (fun hboth => hij hboth.1)]
    exact before.trans (or_iff_right (Ne.symm hij))

/-- **Undoing** frees the slots that it takes off the trail, and no others. -/
theorem undoTo (tracked : f.Tracked) (mark : Nat) : (f.undoTo mark).Tracked := by
  have unwinds : ∀ (trail : List Nat) (bindings : Array (Option Handle)),
      Tracked ⟨bindings, trail, f.groundings⟩ →
        Tracked ⟨(unwind bindings mark trail).1, (unwind bindings mark trail).2,
          f.groundings⟩ := by
    intro trail
    induction trail with
    | nil => exact fun _ => id
    | cons i rest ih =>
      intro bindings tracked
      rw [unwind]
      split
      · exact ih _ tracked.pop
      · exact tracked
  exact unwinds f.trail f.bindings tracked

end Tracked

/-- **Slots that are bound one after the other** come onto the trail, if they have places. -/
theorem Binds.tracked (binds : f.Binds f') (within : ∀ i ∈ f'.trail, i < f'.bindings.size)
    (tracked : f.Tracked) : f'.Tracked := by
  induction binds with
  | refl => exact tracked
  | @bind f' before i free h ih =>
    have size : (f'.bind i h).bindings.size = f'.bindings.size := Array.size_setIfInBounds ..
    rw [size] at within
    have on : i ∈ (f'.bind i h).trail := List.mem_cons_self
    exact (ih fun j hj => within j (List.mem_cons_of_mem _ hj)).bind (within i on) free h

/-- The trail never grows by undoing. -/
theorem length_trail_undoTo_le (f : Frame) (mark : Nat) :
    (f.undoTo mark).trail.length ≤ f.trail.length := by
  have unwinds : ∀ (trail : List Nat) (bindings : Array (Option Handle)),
      (unwind bindings mark trail).2.length ≤ trail.length := by
    intro trail
    induction trail with
    | nil => exact fun _ => le_rfl
    | cons i rest ih =>
      intro bindings
      rw [unwind]
      split
      · exact (ih _).trans (Nat.le_succ _)
      · exact le_rfl
  exact unwinds f.trail f.bindings

end Frame

namespace Search

variable {caps : Caps} {s : Search plan}

/-- The trail still tells right after the search has gone back to a depth. -/
theorem tracked_retreat (tracked : f.Tracked) (depth mark : Nat) :
    (retreat plan f depth mark).Tracked := by
  have undone := tracked.undoTo mark
  unfold retreat
  cases plan.order[depth]? with
  | none => exact undone
  | some clause => exact ⟨undone.bound_iff, undone.nodup⟩

/-- **An attempt** leaves on the trail what it has bound, whether it succeeds or not. -/
theorem tracked_attempt (bounded : plan.Bounded) (fits : f.Fits plan) (tracked : f.Tracked)
    (depth : Nat) (h : Handle) : (attempt m plan f depth h).2.Tracked := by
  by_cases hdepth : depth < plan.order.length
  · obtain ⟨clause, goal, hclause, -, -, hat, places⟩ := bounded.exists_goal hdepth
    obtain ⟨-, fits'⟩ := Graph.unify?_eq (g := m) goal h fits places
    have within : ∀ i ∈ (m.unify plan.slots f goal h).2.trail,
        i < (m.unify plan.slots f goal h).2.bindings.size := by
      rw [fits'.bindings]
      exact fits'.trail
    have left := (Graph.binds_unify (g := m) plan.slots goal f h).tracked within tracked
    rw [attempt_eq hclause hat]
    rcases hu : m.unify plan.slots f goal h with ⟨_ | _, f₁⟩
    · rw [hu] at left
      exact left
    · rw [hu] at left
      exact ⟨left.bound_iff, left.nodup⟩
  · rw [attempt, List.getElem?_eq_none (Nat.le_of_not_lt hdepth)]
    exact tracked

/-- **At all points** of a course the bound slots are on the trail. -/
theorem Course.tracked (bounded : plan.Bounded) (course : Course g plan caps past s) :
    s.frame.Tracked := by
  have both : s.frame.Fits plan ∧ s.frame.Tracked := by
    apply course.frame (P := fun f => f.Fits plan ∧ f.Tracked)
    · exact ⟨Frame.fits_empty plan, Frame.tracked_empty plan⟩
    · rintro f depth mark ⟨fits, tracked⟩
      exact ⟨fits_retreat fits depth mark, tracked_retreat tracked depth mark⟩
    · rintro m f depth h ⟨fits, tracked⟩
      exact ⟨fits_attempt bounded fits depth h, tracked_attempt bounded fits tracked depth h⟩
  exact both.2

/-! ## Marks -/

/-- Going back to a depth never lengthens the trail. -/
theorem length_trail_retreat_le (f : Frame) (depth mark : Nat) :
    (retreat plan f depth mark).trail.length ≤ f.trail.length := by
  unfold retreat
  cases plan.order[depth]? with
  | none => exact f.length_trail_undoTo_le mark
  | some clause => exact f.length_trail_undoTo_le mark

/-- A level that finds its frame has a mark that is on the trail, and those above it have marks that
come before. -/
theorem Settled.marks {stack : List ChoicePoint} (settled : Settled plan stack f) :
    stack.Pairwise (fun deeper upper => upper.mark ≤ deeper.mark) ∧
      ∀ c ∈ stack, c.mark ≤ f.trail.length := by
  induction stack generalizing f with
  | nil => simp
  | cons c below ih =>
    obtain ⟨-, hmark, -, rest⟩ := settled
    obtain ⟨descending, le⟩ := ih rest
    rw [hmark] at le
    have top : c.mark ≤ f.trail.length := by
      rw [← hmark]
      exact length_trail_retreat_le f below.length c.mark
    refine ⟨List.pairwise_cons.mpr ⟨le, descending⟩, ?_⟩
    rw [List.forall_mem_cons]
    exact ⟨top, fun c' hc' => (le c' hc').trans top⟩

/-! ## Slots of the clauses above -/

end Search

/-- Only slots of the clauses before a depth are bound. -/
def Plan.Confines (plan : Plan) (depth : Nat) (f : Frame) : Prop :=
  ∀ i h, f.binding? i = some h → plan.Introduced depth i

namespace Plan

/-- Nothing is bound in the empty frame, so that it is confined to no clause. -/
theorem confines_empty (plan : Plan) : plan.Confines 0 (Frame.empty plan) := by
  intro i h hi
  rw [Search.binding?_empty] at hi
  cases hi

/-- An attempt that succeeds binds slots of the clause of its depth at most. -/
theorem Confines.attempt (ready : plan.Ready) {depth : Nat} (confines : plan.Confines depth f)
    (size : f.bindings.size = plan.slots.length) (hdepth : depth < plan.order.length) {a : Handle}
    (ha : Search.attempt m plan f depth a = (true, f')) : plan.Confines (depth + 1) f' := by
  obtain ⟨clause, goal, f₁, -, -, hat, hmem, hu, rfl, -⟩ := attempt_eq_true ready hdepth ha
  have places : ∀ i, goal.Mentions i → i < f.bindings.size := by
    intro i hi
    rw [size]
    exact (ready.mentions i).mpr ⟨goal, hmem, hi⟩
  obtain ⟨-, adds⟩ := Graph.unify_sound goal places hu
  intro i h hi
  rcases adds i h hi with before | ⟨here, -⟩
  · obtain ⟨e, he, earlier⟩ := confines i h before
    exact ⟨e, he.trans (Nat.lt_succ_self depth), earlier⟩
  · exact ⟨depth, Nat.lt_succ_self depth, goal, hat, here⟩

end Plan

namespace Search

variable {caps : Caps} {s : Search plan}

/-- In the frame that a level finds again, only slots of the clauses above it are bound. -/
def Confined (plan : Plan) : List ChoicePoint → Frame → Prop
  | [], _ => True
  | ⟨_, mark⟩ :: below, f =>
    plan.Confines below.length (retreat plan f below.length mark) ∧
      Confined plan below (retreat plan f below.length mark)

/-- A level that finds the same frame again is still confined. -/
theorem Confined.of_retreat {remaining rest : List Handle} {mark : Nat} {below : List ChoicePoint}
    (confined : Confined plan (⟨remaining, mark⟩ :: below) f)
    (back : retreat plan f' below.length mark = retreat plan f below.length mark) :
    Confined plan (⟨rest, mark⟩ :: below) f' := by
  rw [Confined, back]
  exact confined

/-- At the start of a search nothing is bound beyond what its stack has entered. -/
theorem confined_start (g : Graph digest) (plan : Plan) (caps : Caps) :
    Confined plan (start g plan caps).stack (start g plan caps).frame := by
  cases hempty : plan.isEmpty with
  | true =>
    rw [stack_start_of_isEmpty g caps hempty]
    trivial
  | false =>
    have tidy : Tidy plan (Frame.empty plan) 0 := fun _ c _ _ => grounding?_empty plan c
    have found : retreat plan (Frame.empty plan) 0 0 = Frame.empty plan := retreat_self tidy
    rw [stack_start g caps hempty]
    refine ⟨?_, trivial⟩
    show plan.Confines 0 (retreat plan (Frame.empty plan) 0 0)
    rw [found]
    exact plan.confines_empty

/-- **A turn** keeps all levels confined. -/
theorem Confined.turn (ready : plan.isEmpty = false → plan.Ready) (alike : g.Alike m)
    (now : m ∈ past) (steady : Steady g past s) (confined : Confined plan s.stack s.frame) :
    Confined plan (s.turn m).search.stack (s.turn m).search.frame := by
  have move := move_turn m s
  generalize s.turn m = t at move
  have tried : ∀ {a rest mark below fits f}, Trial m s a rest mark below fits f →
      Confined plan (⟨rest, mark⟩ :: below) f := by
    intro a rest mark below fits f trial
    obtain ⟨_, regained⟩ := steady.regained trial.stack
    rw [trial.stack] at confined
    exact confined.of_retreat (regained.retreat_attempt trial.tried)
  cases move with
  | none => exact confined
  | last => trivial
  | close stack =>
    rw [stack] at confined
    exact confined.2
  | beyond stack =>
    obtain ⟨_, regained⟩ := steady.regained stack
    rw [stack] at confined
    exact confined.of_retreat regained.retreat_self
  | reject trial => exact tried trial
  | row trial => exact tried trial
  | @descend a rest mark below f trial room =>
    obtain ⟨hs, regained⟩ := steady.regained trial.stack
    have ready := ready (isEmpty_eq_false.mpr (Nat.zero_lt_of_lt room))
    obtain ⟨-, tidy⟩ := regained.deeper ready alike now trial.tried
    have kept := tried trial
    rw [trial.stack] at confined
    -- the level that is entered finds the frame that the attempt left
    have entered : retreat plan f (below.length + 1) f.trail.length = f := retreat_self tidy
    have deeper := confined.1.attempt ready regained.vetted.bindings regained.lt trial.tried
    show Confined plan (⟨_, _⟩ :: ⟨rest, mark⟩ :: below) f
    rw [Confined]
    simp only [List.length_cons, entered]
    exact ⟨deeper, kept⟩

/-- **At all points** of a course all levels are confined. -/
theorem Course.confined (ready : plan.isEmpty = false → plan.Ready)
    (course : Course g plan caps past s) : Confined plan s.stack s.frame := by
  induction course with
  | start => exact confined_start g plan caps
  | update _ _ ih => exact ih
  | @turn now past s before _ ih =>
    exact ih.turn ready (before.alike now List.mem_cons_self) List.mem_cons_self
      (before.steady ready)
  | stop _ _ ih => exact ih

/-! ## The next atom of a level -/

/-- **The frame that the deepest level finds** holds atoms for exactly the slots of the clauses
above it. -/
theorem Regained.assigned {hs : List Handle} {mark depth : Nat}
    (regained : Regained g past plan f hs mark depth) (confines : plan.Confines depth f) :
    plan.Assigned g depth f where
  size := regained.vetted.bindings
  suits := regained.vetted.suits
  bound_iff i := by
    constructor
    · rintro ⟨h, hi⟩
      exact confines i h hi
    · rintro ⟨e, he, goal, hgoal, hi⟩
      rw [← regained.length] at he
      have holds := regained.vetted.holds e goal _ hgoal (List.getElem?_eq_getElem he)
      exact holds.bound goal hi

/-- What a search has assumed when it takes the next atom of a depth: the slots of the clauses above
it are bound, these clauses have atoms, and each of them is unified with its atom as it is. -/
structure Cleared (g : Graph digest) (plan : Plan) (depth : Nat) (f : Frame) : Prop
    extends f.Tracked where
  slots_iff : ∀ i, (∃ h, f.binding? i = some h) ↔ plan.Introduced depth i
  clauses_iff : ∀ c, (∃ h, f.grounding? c = some h) ↔ ∃ e < depth, plan.order[e]? = some c
  unifies : ∀ c goal h, plan.goals[c]? = some goal → f.grounding? c = some h →
    g.unify plan.slots f goal h = (true, f)

/-- A frame found again holds nothing that the clauses behind it have bound. -/
theorem Regained.cleared (ready : plan.Ready) (alike : g.Alike m) {hs : List Handle}
    {mark depth : Nat} (regained : Regained g past plan f hs mark depth)
    (confines : plan.Confines depth f) (tracked : f.Tracked) : Cleared m plan depth f := by
  have placed := regained.vetted.toPlaced
  -- a clause that has an atom is searched at some depth above
  have above : ∀ {c h}, f.grounding? c = some h → ∃ e < depth, plan.order[e]? = some c ∧
      hs[e]? = some h := by
    intro c h hc
    obtain ⟨x, hx, -⟩ := Option.bind_eq_some_iff.mp hc
    have hlt : c < plan.goals.length := by
      rw [← placed.groundings]
      exact (Array.getElem?_eq_some_iff.mp hx).1
    obtain ⟨e, he⟩ := List.mem_iff_getElem?.mp (ready.mem_order.mpr hlt)
    rw [placed.grounding e c he] at hc
    refine ⟨e, ?_, he, hc⟩
    rw [← regained.length]
    exact (List.getElem?_eq_some_iff.mp hc).1
  refine ⟨tracked, (regained.assigned confines).bound_iff, ?_, ?_⟩
  · intro c
    constructor
    · rintro ⟨h, hc⟩
      obtain ⟨e, he, horder, -⟩ := above hc
      exact ⟨e, he, horder⟩
    · rintro ⟨e, he, horder⟩
      rw [← regained.length] at he
      rw [placed.grounding e c horder, List.getElem?_eq_getElem he]
      exact ⟨_, rfl⟩
  · intro c goal h hgoal hc
    obtain ⟨e, -, horder, hh⟩ := above hc
    have hat : plan.goalAt? e = some goal := by
      rw [Plan.goalAt?, horder, Option.bind_some, hgoal]
    rw [alike.unify]
    exact Graph.unify_of_holds goal (placed.holds e goal h hat hh)

/-- A search leaves no binding behind. -/
structure LeaksNothing (now : Graph digest) (s : Search plan) : Prop where
  /-- The bound slots are on the trail, each once. -/
  tracked : s.frame.Tracked
  /-- The marks do not decrease along the stack, from the first level to the deepest one. -/
  marks : s.stack.Pairwise fun deeper upper => upper.mark ≤ deeper.mark
  /-- Whatever came of the atoms before, the next atom of the deepest level finds what has been
  assumed above it, and nothing else. -/
  moved : ∀ remaining mark below, s.stack = ⟨remaining, mark⟩ :: below →
    below.length < plan.order.length ∧
      Cleared now plan below.length (retreat plan s.frame below.length mark)

end Search

namespace Graph

open Search

/-- **No binding leaks** at any point of a search for a pattern that is accepted in a reachable
graph. -/
theorem Reachable.leaksNothing (hg : g.Reachable) (accepted : g.compile p = .ok plan) {caps : Caps}
    {s : Search plan} (course : Course g plan caps (now :: past) s) : LeaksNothing now s := by
  have ready := ready_of_compile hg.covered accepted
  have tracked := course.tracked (bounded_of_compile hg.covered accepted)
  have steady := course.steady ready
  have confined := course.confined ready
  refine ⟨tracked, steady.settled.marks.1, ?_⟩
  intro remaining mark below stack
  obtain ⟨hs, regained⟩ := steady.regained stack
  have ready := ready (isEmpty_eq_false.mpr (Nat.zero_lt_of_lt regained.lt))
  rw [stack] at confined
  refine ⟨regained.lt, ?_⟩
  exact regained.cleared ready (course.alike now List.mem_cons_self) confined.1
    (tracked_retreat tracked below.length mark)

/-- An atom that fails after a slot has been bound for it, behind an update of a truth value: the
slot is left bound, and the next atom finds it free. -/
theorem leaksNothing_of_half_match :
    let g := (empty : Graph fun _ => 0).run
      [.addNode "Node" "a", .addNode "Node" "b", .addLink "Link" [⟨0⟩, ⟨1⟩, ⟨0⟩],
        .addLink "Link" [⟨0⟩, ⟨1⟩, ⟨1⟩]]
    let x := Term.var ⟨"x", none⟩
    let y := Term.var ⟨"y", none⟩
    let p : Pattern := ⟨[x, .link "Link" [x, y, y]], []⟩
    let now := g.apply (TruthUpdate.replace ⟨2⟩ (some ⟨1, 1⟩)).action
    g.Reachable ∧ ∃ plan, g.compile p = .ok plan ∧
      let s := (((start g plan .none).turn g).search.turn now).search
      Course g plan .none [now, g] s ∧ s.frame.trail = [1, 0] ∧ s.stack.map (·.mark) = [1, 0] ∧
        LeaksNothing now s := by
  intro g x y p now
  have reachable : g.Reachable := ⟨_, rfl⟩
  let plan : Plan := ((g.compile p).toOption).getD (.hopeless [])
  have accepted : g.compile p = .ok plan := rfl
  let first := ((start g plan .none).turn g).search
  have begun : (start g plan .none).done = false := by decide +kernel
  have entered : first.done = false := by decide +kernel
  have course : Course g plan .none [now, g] (first.turn now).search :=
    ((Course.start.turn begun).update _).turn entered
  exact ⟨reachable, plan, accepted, course, by decide +kernel, by decide +kernel,
    Reachable.leaksNothing reachable accepted course⟩

end Graph

end TypedHypergraph
