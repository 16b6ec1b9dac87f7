/-
# Checks at different moments

While truth values change, each check of a frame is made at one moment and not again.  A placed
frame is *vetted* (`Plan.Vetted`) by the graphs of some moments if each of its checks that were due
has passed in one of them.

An attempt that succeeds leads from a vetted frame to the next one (`Plan.Vetted.attempt`), so that
at the end each constraint has held at one of the moments (`Compiled.passes_rowOf`).  A check that
turns an atom down would do so for every row behind it (`Compiled.fails_of_mem_branch`).
-/
import TypedHypergraph.Proofs.Answers
import TypedHypergraph.Proofs.Unchecked

namespace TypedHypergraph

variable {digest : Content → UInt64} {g m : Graph digest} {past : List (Graph digest)}
  {p : Pattern} {plan : Plan} {f f' : Frame} {hs : List Handle}

/-! ## Frames -/

namespace Plan

/-- Each check that was due has passed in one of the graphs. -/
structure Vetted (g : Graph digest) (plan : Plan) (past : List (Graph digest)) (f : Frame)
    (hs : List Handle) : Prop extends Placed g plan f hs where
  passed : ∀ check ∈ plan.checks, readyAt plan.goals plan.order check < hs.length →
    ∃ m ∈ past, check.passes m f = true

namespace Vetted

/-- The empty frame is vetted. -/
theorem empty : Vetted g plan past (Frame.empty plan) [] :=
  ⟨reached_empty.toPlaced, by simp⟩

theorem mono {later : List (Graph digest)} (more : past ⊆ later) (h : Vetted g plan past f hs) :
    Vetted g plan later f hs := by
  refine ⟨h.toPlaced, ?_⟩
  intro check hcheck hr
  obtain ⟨m, hm, hpass⟩ := h.passed check hcheck hr
  exact ⟨m, more hm, hpass⟩

/-- **An attempt that succeeds** at one of the moments leads one place further. -/
theorem attempt (ready : plan.Ready) (h : Vetted g plan past f hs) (now : m ∈ past)
    {depth : Nat} (hlen : hs.length = depth) (hdepth : depth < plan.order.length) {a : Handle}
    (ha : Search.attempt g plan.unchecked f depth a = (true, f'))
    (hpass : plan.checksPass m f' depth = true) : Vetted g plan past f' (hs ++ [a]) := by
  subst hlen
  have reached := reached_unchecked_iff.mpr h.toPlaced
  have placed := reached_unchecked_iff.mp (reached.attempt ready.unchecked hdepth ha)
  refine ⟨placed, ?_⟩
  intro check hcheck hr
  rw [List.length_append, List.length_singleton] at hr
  rcases Nat.lt_succ_iff_lt_or_eq.mp hr with hr | hr
  · -- what it saw when it passed, it would see now
    obtain ⟨m', hm', hp⟩ := h.passed check hcheck hr
    have agrees := attempt_agrees ready.unchecked hdepth ha
    rw [h.toPlaced.passes_eq ready placed (List.prefix_append _ _) agrees hcheck hr] at hp
    exact ⟨m', hm', hp⟩
  · have hdue := (ready.mem_checksDue hdepth).mpr ⟨hcheck, hr⟩
    exact ⟨m, now, List.all_eq_true.mp hpass check hdue⟩

end Vetted

end Plan

/-! ## Rows -/

namespace Row

/-- What a row says satisfies a constraint. -/
def Satisfies (m : Graph digest) (row : Row) (c : Constraint) : Prop :=
  c.Holds m (fun name => row.values[name]?) row.groundings

/-- Some constraint does not hold of what a row says. -/
def Fails (p : Pattern) (m : Graph digest) (row : Row) : Prop :=
  ∃ c ∈ p.constraints, ¬ row.Satisfies m c

/-- Each constraint holds of what a row says in one of some graphs. -/
def Passes (p : Pattern) (past : List (Graph digest)) (row : Row) : Prop :=
  ∀ c ∈ p.constraints, ∃ m ∈ past, row.Satisfies m c

theorem Passes.mono {row : Row} {later : List (Graph digest)} (more : past ⊆ later)
    (h : row.Passes p past) : row.Passes p later := by
  intro c hc
  obtain ⟨m, hm, hs⟩ := h c hc
  exact ⟨m, more hm, hs⟩

end Row

namespace Compiled

open Search

/-- At the end, a check says of a frame what its constraint says of the row. -/
theorem passes_iff_satisfies (hc : Compiled g p plan) (alike : g.Alike m)
    (placed : plan.Placed g f hs) (full : hs.length = plan.order.length) {c : Constraint}
    {check : Check}
    (compiled : g.types.compileConstraint plan.slots p.clauses.length c = .ok check) :
    check.passes m f = true ↔ (plan.rowOf f).Satisfies m c := by
  have named : (fun name => (plan.rowOf f).values[name]?) = valueOf plan.slots f.binding? :=
    funext (Plan.getElem?_values hc.describes.nodup f)
  rw [← alike.types] at compiled
  rw [Row.Satisfies, named]
  exact passes_iff_holds (hc.shows_of_full placed full) compiled

/-- **At the end** each constraint has held at one of the moments. -/
theorem passes_rowOf (hc : Compiled g p plan) (alike : ∀ m ∈ past, g.Alike m)
    (vetted : plan.Vetted g past f hs) (full : hs.length = plan.order.length) :
    (plan.rowOf f).Passes p past := by
  intro c hcon
  obtain ⟨check, hcheck, compiled⟩ := Guards.exists_of_forall₂ hc.checks.flip hcon
  have due : Plan.readyAt plan.goals plan.order check < hs.length := by
    rw [full]
    exact Plan.Ready.readyAt_lt hc.order_ne_nil check
  obtain ⟨m, hm, hpass⟩ := vetted.passed check hcheck due
  exact ⟨m, hm, (hc.passes_iff_satisfies (alike m hm) vetted.toPlaced full compiled).mp hpass⟩

/-- **Behind an atom** that a check turns down, the constraint fails of every row. -/
theorem fails_of_mem_branch (hc : Compiled g p plan) (alike : g.Alike m)
    (placed : plan.Placed g f hs) {depth left : Nat} (hlen : hs.length = depth)
    (hleft : depth + (left + 1) = plan.order.length) {a : Handle}
    (ha : attempt g plan.unchecked f depth a = (true, f'))
    (turned : plan.checksPass m f' depth = false) {row : Row}
    (hrow : row ∈ branch g plan.unchecked left f depth a) : row.Fails p m := by
  subst hlen
  have ready := hc.ready
  have hdepth : hs.length < plan.order.length := by omega
  have reached := Plan.reached_unchecked_iff.mpr placed
  have placed' := Plan.reached_unchecked_iff.mp (reached.attempt ready.unchecked hdepth ha)
  obtain ⟨F, hs', hF, full, earlier, agrees, rfl⟩ :=
    ready.unchecked.continues_of_mem_branch reached hleft ha hrow
  -- the check that fails sees at the end what it sees now
  obtain ⟨check, hdue, hfails⟩ := List.all_eq_false.mp turned
  obtain ⟨hcheck, hr⟩ := (ready.mem_checksDue hdepth).mp hdue
  have hr' : Plan.readyAt plan.goals plan.order check < (hs ++ [a]).length := by
    rw [hr, List.length_append]
    exact Nat.lt_succ_self _
  have placedF := Plan.reached_unchecked_iff.mp hF
  rw [placed'.passes_eq ready placedF earlier agrees hcheck hr'] at hfails
  obtain ⟨c, hcon, compiled⟩ := Guards.exists_of_forall₂ hc.checks hcheck
  refine ⟨c, hcon, ?_⟩
  show ¬ (plan.rowOf F).Satisfies m c
  rw [← hc.passes_iff_satisfies alike placedF full compiled]
  exact hfails

end Compiled

end TypedHypergraph
