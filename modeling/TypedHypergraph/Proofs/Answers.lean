/-
# What a query answers

**The answers to a pattern** are its solutions, each once, in the lexicographic order of their
atoms read in the order of the search (`Graph.Reachable.answers`).

The frames that the search reaches at its end are those of the solutions: such a frame gives a
solution (`Compiled.solution`), and every solution is that of such a frame
(`Compiled.exists_reached`).
-/
import TypedHypergraph.Proofs.Compiling
import TypedHypergraph.Proofs.Enumeration
import TypedHypergraph.Proofs.Run

namespace TypedHypergraph

variable {digest : Content → UInt64} {g : Graph digest} {p : Pattern} {plan : Plan}

/-! ## The values of a row -/

/-- The value of a name is that of the first slot with this name. -/
theorem valueOf_cons (s : Slot) (slots : List Slot) (values : Nat → Option Handle)
    (name : String) : valueOf (s :: slots) values name =
      if s.name = name then values 0 else valueOf slots (fun i => values (i + 1)) name := by
  rw [valueOf, slotOf?, List.findIdx?_cons]
  by_cases hname : s.name = name
  · simp [hname]
  · simp only [hname, decide_false, Bool.false_eq_true, if_false]
    rw [valueOf, slotOf?]
    cases slots.findIdx? fun s => decide (s.name = name) <;> rfl

/-- Names that are put in one by one are found with their atoms, as long as none of them comes
twice. -/
theorem getElem?_foldl_insert {slots : List Slot} (nodup : (slots.map (·.name)).Nodup)
    (name : String) : ∀ (bound : List (Option Handle)) (before : Std.TreeMap String Handle),
      ((slots.zip bound).foldl (fun values (x : Slot × Option Handle) =>
        match x.2 with
        | some h => values.insert x.1.name h
        | none => values) before)[name]?
        = (valueOf slots (fun i => bound[i]?.join) name).or before[name]? := by
  induction slots with
  | nil =>
    intro bound before
    rfl
  | cons s slots ih =>
    intro bound before
    rw [List.map_cons, List.nodup_cons] at nodup
    cases bound with
    | nil =>
      have nothing : valueOf (s :: slots) (fun i => ([] : List (Option Handle))[i]?.join) name
          = none := by
        rw [valueOf]
        cases slotOf? (s :: slots) name <;> rfl
      rw [nothing]
      rfl
    | cons b bound =>
      rw [List.zip_cons_cons, List.foldl_cons, ih nodup.2, valueOf_cons]
      by_cases hname : s.name = name
      · have absent : slotOf? slots name = none := by
          rw [slotOf?_eq_none, ← hname]
          exact nodup.1
        rw [if_pos hname, valueOf, absent, Option.bind_none, Option.none_or,
          List.getElem?_cons_zero, Option.join_some]
        cases b with
        | none => rfl
        | some h =>
          dsimp only
          rw [Std.TreeMap.getElem?_insert, hname]
          simp
      · rw [if_neg hname]
        simp only [List.getElem?_cons_succ]
        cases b with
        | none => rfl
        | some h =>
          dsimp only
          rw [Std.TreeMap.getElem?_insert]
          simp [hname]

/-- **The values of a row**, by name, are the bindings of the frame, by slot. -/
theorem Plan.getElem?_values (nodup : (plan.slots.map (·.name)).Nodup) (f : Frame)
    (name : String) : (plan.rowOf f).values[name]? = valueOf plan.slots f.binding? name := by
  have fold := getElem?_foldl_insert nodup name f.bindings.toList ∅
  have found : (fun i => f.bindings.toList[i]?.join) = f.binding? := by
    funext i
    rw [Array.getElem?_toList]
    rfl
  rw [found, Std.TreeMap.getElem?_emptyc, Option.or_none] at fold
  rw [← fold]
  rfl

/-! ## Types of variables -/

/-- A stored atom suits a slot exactly if it may stand at all occurrences of its name. -/
theorem Describes.suits_iff {vars : List Variable} {slots : List Slot} {name : String} {i : Nat}
    {h : Handle} (hd : Describes g vars slots) (hi : slotOf? slots name = some i) :
    g.Suits slots i h ↔
      g.contains h ∧ ∀ v ∈ vars, v.name = name → v.Allows g h := by
  obtain ⟨s, hs, rfl⟩ := (slotOf?_eq_some hd.nodup).mp hi
  have hmem := List.mem_of_getElem? hs
  have allows : ∀ type, g.allows slots i type = true ↔
      ∀ restriction, s.type = some restriction → g.types.isA type restriction := by
    intro type
    rw [Graph.allows, hs, Option.bind_some]
    cases s.type <;> simp
  unfold Graph.Suits
  simp only [allows]
  constructor
  · rintro ⟨c, hc, hall⟩
    refine ⟨Graph.contains_of_content? hc, ?_⟩
    intro v hv hname
    refine ⟨c, hc, ?_⟩
    intro typeName htype
    obtain ⟨type, hget⟩ := hd.declared v hv typeName htype
    exact ⟨type, hget, hall type ((hd.types s hmem type).mpr
      ⟨v, hv, hname, typeName, htype, hget⟩)⟩
  · rintro ⟨hstored, hall⟩
    obtain ⟨c, hc⟩ := (Graph.contains_iff g h).mp hstored
    refine ⟨c, hc, ?_⟩
    intro type htype
    obtain ⟨v, hv, hname, typeName, hwritten, hget⟩ := (hd.types s hmem type).mp htype
    obtain ⟨c', hc', hkeeps⟩ := hall v hv hname
    obtain ⟨type', hget', hisA⟩ := hkeeps typeName hwritten
    rw [hc, Option.some.injEq] at hc'
    rw [hget, Option.some.injEq] at hget'
    rw [hc', hget']
    exact hisA

/-! ## Frames and solutions -/

/-- The frame in which a solution is written down. -/
def Plan.filled (plan : Plan) (values : String → Option Handle) (groundings : List Handle) :
    Frame :=
  ⟨(plan.slots.map fun s => values s.name).toArray, [], (groundings.map some).toArray⟩

/-- A frame filled with values binds each slot to the value of its name. -/
theorem Plan.binding?_filled (values : String → Option Handle) (groundings : List Handle) :
    (plan.filled values groundings).binding? = slotValues plan.slots values := by
  funext i
  rw [Frame.binding?, filled, List.getElem?_toArray, List.getElem?_map, slotValues]
  cases plan.slots[i]? <;> rfl

/-- A frame filled with groundings has for each clause its grounding. -/
theorem Plan.grounding?_filled (values : String → Option Handle) (groundings : List Handle)
    (c : Nat) : (plan.filled values groundings).grounding? c = groundings[c]? := by
  rw [Frame.grounding?, filled, List.getElem?_toArray, List.getElem?_map]
  cases groundings[c]? <;> rfl

/-- The row of a frame filled with groundings has these groundings. -/
theorem Plan.groundings_filled (values : String → Option Handle) (groundings : List Handle) :
    (plan.rowOf (plan.filled values groundings)).groundings = groundings := by
  rw [rowOf, filled, List.filterMap_map]
  exact List.filterMap_some

namespace Compiled

section Full

variable {f : Frame} {hs : List Handle}

/-- At the end every variable stands for an atom. -/
theorem binding?_of_full (hc : Compiled g p plan) (placed : plan.Placed g f hs)
    (full : hs.length = plan.order.length) {name : String} {i : Nat}
    (hi : slotOf? plan.slots name = some i) : ∃ a, f.binding? i = some a := by
  have hlt := lt_of_slotOf? hi
  apply placed.exists_binding? hc.ready hlt
  rw [full]
  exact hc.ready.boundAt_lt (.slot i) hlt

/-- A frame in which all clauses are placed shows the values and groundings of its row. -/
theorem shows_of_full (hc : Compiled g p plan) (placed : plan.Placed g f hs)
    (full : hs.length = plan.order.length) : f.Shows plan.slots (valueOf plan.slots f.binding?)
      (plan.rowOf f).groundings p.clauses.length := by
  constructor
  · intro name i hi
    rw [valueOf_of_slotOf? hi]
  · intro name i hi
    rw [valueOf_of_slotOf? hi]
    exact hc.binding?_of_full placed full hi
  · intro c _
    rw [placed.getElem?_groundings hc.ready full]

/-- **What a frame says** that is reached at the end is a solution. -/
theorem solution (hc : Compiled g p plan) (reached : plan.Reached g f hs)
    (full : hs.length = plan.order.length) :
    p.Solution g (valueOf plan.slots f.binding?) (plan.rowOf f).groundings := by
  have ready := hc.ready
  constructor
  case nonempty =>
    intro hnil
    apply hc.nonempty
    rw [← List.length_eq_zero_iff, hc.length, hnil, List.length_nil]
  case named =>
    intro name a ha
    obtain ⟨i, hi, -⟩ := Option.bind_eq_some_iff.mp ha
    rw [← hc.describes.names]
    by_contra hno
    rw [slotOf?_eq_none.mpr hno] at hi
    cases hi
  case allowed =>
    intro v hv
    obtain ⟨i, hi⟩ := hc.describes.exists_slotOf? hv
    obtain ⟨a, ha⟩ := hc.binding?_of_full reached.toPlaced full hi
    refine ⟨a, ?_, ?_⟩
    · rw [valueOf_of_slotOf? hi, ha]
    · have suits := (hc.describes.suits_iff hi).mp (reached.suits i a ha)
      exact suits.2 v hv rfl
  case clauses =>
    show Term.DenoteAll g _ p.clauses _
    rw [hc.denotes_iff, Goal.holdAll_iff_getElem?]
    refine ⟨reached.toPlaced.length_groundings ready full, ?_⟩
    intro c goal h hgoal hh
    -- the clause is searched at some depth, and there its goal has been found to hold
    have hmem : c ∈ plan.order := ready.mem_order.mpr (List.getElem?_eq_some_iff.mp hgoal).1
    obtain ⟨e, he⟩ := List.mem_iff_getElem?.mp hmem
    rw [reached.toPlaced.getElem?_groundings ready full, reached.grounding e c he] at hh
    apply reached.holds e goal h ?_ hh
    rw [Plan.goalAt?, he, Option.bind_some, hgoal]
  case constraints =>
    intro c hcon
    obtain ⟨check, hcheck, hcompiled⟩ := Guards.exists_of_forall₂ hc.checks.flip hcon
    rw [← passes_iff_holds (hc.shows_of_full reached.toPlaced full) hcompiled]
    -- no check is due later than at the last depth
    apply reached.checks check hcheck
    rw [full]
    exact Plan.Ready.readyAt_lt hc.order_ne_nil check

end Full

section Filled

variable {values : String → Option Handle} {groundings : List Handle}

/-- In a frame filled with a solution each goal holds of its grounding. -/
theorem holds_filled (hc : Compiled g p plan) (hs : p.Solution g values groundings) :
    Goal.HoldAll g (plan.filled values groundings).binding? plan.goals groundings := by
  rw [Plan.binding?_filled, ← hc.denotes_iff, hs.valueOf_slotValues hc.describes]
  exact hs.clauses

/-- In a frame filled with a solution each bound atom suits its slot. -/
theorem suits_filled (hc : Compiled g p plan) (hs : p.Solution g values groundings) {i : Nat}
    {h : Handle} (hi : (plan.filled values groundings).binding? i = some h) :
    g.Suits plan.slots i h := by
  rw [Plan.binding?_filled] at hi
  obtain ⟨s, hslot, hvalue⟩ := Option.bind_eq_some_iff.mp hi
  have hname := (slotOf?_eq_some hc.describes.nodup).mpr ⟨s, hslot, rfl⟩
  rw [hc.describes.suits_iff hname]
  refine ⟨hs.contains _ h hvalue, ?_⟩
  intro v hv heq
  obtain ⟨a, ha, hallows⟩ := hs.allowed v hv
  rw [heq, hvalue, Option.some.injEq] at ha
  rw [ha]
  exact hallows

/-- In a frame filled with a solution each check passes. -/
theorem passes_filled (hc : Compiled g p plan) (hs : p.Solution g values groundings)
    {check : Check} (hcheck : check ∈ plan.checks) :
    check.passes g (plan.filled values groundings) = true := by
  obtain ⟨c, hcon, hcompiled⟩ := Guards.exists_of_forall₂ hc.checks hcheck
  have shows : (plan.filled values groundings).Shows plan.slots values groundings
      p.clauses.length := by
    constructor
    · intro name i hi
      rw [Plan.binding?_filled, slotValues_of_slotOf? hc.describes.nodup hi]
    · intro name i hi
      obtain ⟨s, hslot, rfl⟩ := (slotOf?_eq_some hc.describes.nodup).mp hi
      obtain ⟨v, hv, hname⟩ := (hc.describes.names s.name).mp
        (List.mem_map_of_mem (List.mem_of_getElem? hslot))
      obtain ⟨a, ha, -⟩ := hs.allowed v hv
      rw [hname] at ha
      exact ⟨a, ha⟩
    · intro c' _
      rw [Plan.grounding?_filled]
  rw [passes_iff_holds shows hcompiled]
  exact hs.constraints c hcon

/-- **A solution** is what a frame says that is reached at the end. -/
theorem exists_reached (hc : Compiled g p plan) (hs : p.Solution g values groundings) :
    ∃ hs', plan.Reached g (plan.filled values groundings) hs' ∧
      hs'.length = plan.order.length ∧ ∀ a ∈ hs', g.contains a := by
  have ready := hc.ready
  obtain ⟨hlength, holds⟩ := Goal.holdAll_iff_getElem?.mp (hc.holds_filled hs)
  have full : (plan.rowOf (plan.filled values groundings)).groundings.length
      = plan.goals.length := by
    rw [Plan.groundings_filled, hlength]
  -- the atom at a depth is the grounding of the clause that is searched there
  have inPlace : ∀ e c : Nat, plan.order[e]? = some c →
      groundings[c]? = (plan.reading (plan.rowOf (plan.filled values groundings)))[e]? := by
    intro e c he
    rw [ready.getElem?_reading full he, Plan.groundings_filled]
  refine ⟨plan.reading (plan.rowOf (plan.filled values groundings)), ?_, ?_, ?_⟩
  · constructor
    case checks =>
      intro check hcheck _
      exact hc.passes_filled hs hcheck
    constructor
    case bindings =>
      rw [Plan.filled, List.size_toArray, List.length_map]
    case groundings =>
      rw [Plan.filled, List.size_toArray, List.length_map, hlength]
    case grounding =>
      intro e c he
      rw [Plan.grounding?_filled, inPlace e c he]
    case holds =>
      intro e goal h hgoal hh
      obtain ⟨c, he, hgoal'⟩ := Option.bind_eq_some_iff.mp hgoal
      rw [← inPlace e c he] at hh
      exact holds c goal h hgoal' hh
    case suits =>
      intro i h hi
      exact hc.suits_filled hs hi
  · exact ready.length_reading full
  · have stored := Term.contains_of_denoteAll hs.contains hs.clauses
    intro a ha
    have hmem := (ready.reading_perm full).mem_iff.mp ha
    rw [Plan.groundings_filled] at hmem
    exact stored a hmem

end Filled

end Compiled

/-! ## Answers -/

/-- The rows are the answers to a pattern. -/
structure Answers (g : Graph digest) (p : Pattern) (plan : Plan) (rows : List Row) : Prop where
  /-- What solves the pattern is what the rows say. -/
  solution_iff : ∀ values groundings, p.Solution g values groundings ↔
    ∃ row ∈ rows, (∀ name, row.values[name]? = values name) ∧ row.groundings = groundings
  /-- No two rows give the same atoms to the variables. -/
  values_ne : rows.Pairwise fun (a b : Row) => ∃ name : String, a.values[name]? ≠ b.values[name]?
  /-- No two rows give the same atoms to the clauses. -/
  groundings_ne : rows.Pairwise fun (a b : Row) => a.groundings ≠ b.groundings
  /-- The order of the search reads each atom of a clause once. -/
  reading_perm : ∀ row ∈ rows, (plan.reading row).Perm row.groundings
  ascending : rows.Pairwise fun a b => List.Lex (· < ·) (plan.reading a) (plan.reading b)
  /-- Without clauses there are no rows. -/
  nil : p.clauses = [] → rows = []

/-- No rows answer a pattern that has no solution. -/
theorem answers_of_hopeless (none : ∀ values groundings, ¬ p.Solution g values groundings) :
    Answers g p plan [] where
  solution_iff := by
    intro values groundings
    simp [none values groundings]
  values_ne := List.Pairwise.nil
  groundings_ne := List.Pairwise.nil
  reading_perm := by simp
  ascending := List.Pairwise.nil
  nil := fun _ => rfl

namespace Compiled

open Search

/-- **Each row** is a solution. -/
theorem solution_of_mem (hc : Compiled g p plan) {row : Row} (hrow : row ∈ allRows g plan) :
    row.groundings.length = plan.goals.length ∧
      p.Solution g (fun name => row.values[name]?) row.groundings := by
  have empty : plan.Reached g (Frame.empty plan) [] := Plan.reached_empty
  obtain ⟨f, hs, reached, full, -, -, rfl⟩ :=
    hc.ready.continues_of_mem_solve empty (Nat.zero_add _) hrow
  refine ⟨reached.toPlaced.length_groundings hc.ready full, ?_⟩
  have named : (fun name => (plan.rowOf f).values[name]?) = valueOf plan.slots f.binding? :=
    funext (Plan.getElem?_values hc.describes.nodup f)
  rw [named]
  exact hc.solution reached full

/-- **Each solution** has its row. -/
theorem exists_row (hc : Compiled g p plan) (hg : g.Covered) (ht : g.types.WellFormed)
    {values : String → Option Handle} {groundings : List Handle}
    (hs : p.Solution g values groundings) :
    ∃ row ∈ allRows g plan, (∀ name, row.values[name]? = values name) ∧
      row.groundings = groundings := by
  have empty : plan.Reached g (Frame.empty plan) [] := Plan.reached_empty
  have declared := hc.describes.declared_slots ht
  obtain ⟨left, hleft⟩ : ∃ left, plan.order.length = left + 1 := by
    apply Nat.exists_eq_add_one_of_ne_zero
    rw [Ne, List.length_eq_zero_iff]
    exact hc.order_ne_nil
  obtain ⟨hs', reached, full, stored⟩ := hc.exists_reached hs
  refine ⟨plan.rowOf (plan.filled values groundings), ?_, ?_, Plan.groundings_filled _ _⟩
  · unfold allRows
    rw [hleft]
    apply hc.ready.mem_solve hg ht declared reached full stored empty
    · rw [hleft, List.length_nil, Nat.zero_add]
    · exact List.nil_prefix
    · -- nothing is bound yet that the solution could contradict
      intro i h hi
      rw [binding?_empty] at hi
      cases hi
  · intro name
    rw [Plan.getElem?_values hc.describes.nodup, Plan.binding?_filled,
      hs.valueOf_slotValues hc.describes]

/-- **All rows ascend** in the lexicographic order of the atoms in the order of the search. -/
theorem ascending_allRows (hc : Compiled g p plan) : (allRows g plan).Pairwise
    fun a b => List.Lex (· < ·) (plan.reading a) (plan.reading b) := by
  have empty : plan.Reached g (Frame.empty plan) [] := Plan.reached_empty
  exact hc.ready.ascending_solve empty (Nat.zero_add _)

/-- Rows that are read differently have different atoms. -/
theorem groundings_ne (hc : Compiled g p plan) : (allRows g plan).Pairwise
    fun (a b : Row) => a.groundings ≠ b.groundings := by
  refine hc.ascending_allRows.imp ?_
  intro a b hlex heq
  have same : plan.reading a = plan.reading b := by
    unfold Plan.reading
    rw [heq]
  rw [same] at hlex
  exact List.lex_irrefl (fun h => Nat.lt_irrefl h.value) _ hlex

/-- **The rows of a plan** that is made from the parts of a pattern answer it. -/
theorem answers_allRows (hc : Compiled g p plan) (hg : g.Covered) (ht : g.types.WellFormed) :
    Answers g p plan (allRows g plan) := by
  constructor
  case solution_iff =>
    intro values groundings
    constructor
    · exact hc.exists_row hg ht
    · rintro ⟨row, hrow, hvalues, rfl⟩
      have solves := (hc.solution_of_mem hrow).2
      have same : (fun name => row.values[name]?) = values := funext hvalues
      rwa [same] at solves
  case values_ne =>
    -- the atoms of the variables determine those of the clauses, and these are different
    refine hc.groundings_ne.imp_of_mem ?_
    intro a b ha hb hne
    by_contra hsame
    push Not at hsame
    have hsolves := (hc.solution_of_mem hb).2
    rw [← funext hsame] at hsolves
    exact hne ((hc.solution_of_mem ha).2.groundings_unique hg hsolves)
  case groundings_ne => exact hc.groundings_ne
  case reading_perm =>
    intro row hrow
    exact hc.ready.reading_perm (hc.solution_of_mem hrow).1
  case ascending => exact hc.ascending_allRows
  case nil =>
    intro hnil
    have hlen := hc.length
    rw [hnil, List.length_nil] at hlen
    exact absurd (List.length_eq_zero_iff.mp hlen) hc.nonempty

end Compiled

namespace Graph

/-- **A query without caps** to a reachable graph, as long as there are handles left, is answered
for every pattern that is accepted: with all solutions, each once, in the order of the search. -/
theorem Reachable.answers (hg : g.Reachable) (room : g.HandlesLeft)
    (accepted : g.compile p = .ok plan) :
    ∃ rows, g.matchAll ⟨p, .none⟩ = .ok rows ∧ Answers g p plan rows := by
  have covered := (hg.coherent room).covered
  refine ⟨(Search.start g plan .none).rows g, ?_, ?_⟩
  · unfold matchAll
    rw [accepted]
    rfl
  · rcases compile_eq_ok covered accepted with ⟨hnil, none⟩ | hc
    · have nodup : plan.order.Nodup := by
        rw [hnil]
        exact List.nodup_nil
      have norows : Search.allRows g plan = [] := by
        rw [Search.allRows, hnil, List.length_nil, Search.solve]
      rw [Search.rows_start nodup, norows]
      exact answers_of_hopeless none
    · rw [Search.rows_start hc.ready.nodup]
      exact hc.answers_allRows covered hg.typesMakeSense.wellFormed

/-- Where all digests collide, a pattern asks for a link over two links that are each other's
reverse, and a later occurrence of a variable is the one that has a type: there is one answer. -/
theorem answers_of_reversed_links :
    let g := (empty : Graph fun _ => 0).run
      [.declareType "Word" (some "Node"), .addNode "Word" "a", .addNode "Node" "b",
        .addLink "Link" [⟨0⟩, ⟨1⟩], .addLink "Link" [⟨1⟩, ⟨0⟩], .addLink "Link" [⟨0⟩, ⟨0⟩],
        .addLink "Link" [⟨2⟩, ⟨3⟩], .addLink "Link" [⟨4⟩, ⟨4⟩]]
    let there := Term.link "Link" [.var ⟨"x", none⟩, .var ⟨"y", none⟩]
    let back := Term.link "Link" [.var ⟨"y", none⟩, .var ⟨"x", some "Word"⟩]
    let p : Pattern := ⟨[.link "Link" [there, back], back], [.condition (.distinct "x" "y")]⟩
    g.HandlesLeft ∧ ∃ plan rows, g.compile p = .ok plan ∧
      g.matchAll ⟨p, .none⟩ = .ok rows ∧ Answers g p plan rows ∧
        rows.map (·.groundings) = [[⟨5⟩, ⟨3⟩]] := by
  intro g there back p
  have room : g.HandlesLeft := by decide +kernel
  let plan : Plan := ((g.compile p).toOption).getD (.hopeless [])
  have accepted : g.compile p = .ok plan := rfl
  obtain ⟨rows, matched, answers⟩ := Reachable.answers ⟨_, rfl⟩ room accepted
  have found : rows = Search.allRows g plan := by
    unfold matchAll at matched
    rw [accepted] at matched
    cases matched
    exact Search.rows_start (by decide +kernel)
  refine ⟨room, plan, rows, accepted, matched, answers, ?_⟩
  rw [found]
  decide +kernel

end Graph

end TypedHypergraph
