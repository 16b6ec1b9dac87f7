/-
# The supply of handles

Handles are given out in ascending order, and a handle that was given out is *spent*: it names the
atom for which it was given out and, once this atom is gone, nothing ever again.

What an action gives out is told by its outcome (`Graph.outcome?`), and what it takes away by the
handles that it removes (`Graph.taken`).  A graph has *forgotten* a handle if every question about
it is refused and no link over it is accepted (`Graph.Forgotten`).  Between any two moments of a run
the supply only grows, so that whatever is created is younger than all that was there before, and a
handle that was taken away is forgotten from then on (`Graph.handlesSpent`).
-/
import TypedHypergraph.Proofs.Parts
import TypedHypergraph.Proofs.TruthHistory

namespace TypedHypergraph

namespace Graph

variable {digest : Content → UInt64} {g g' : Graph digest}

/-! ## Outcomes -/

/-- What comes of an operation that is accepted. -/
def result? {α : Type} (u : Update digest α) (g : Graph digest) : Option α :=
  match u g with
  | .ok a _ => some a
  | .error _ _ => none

/-- An operation has a result exactly if it is accepted. -/
theorem result?_eq_some {α : Type} {u : Update digest α} {a : α} :
    result? u g = some a ↔ u g = .ok a (after u g) := by
  rw [result?, after]
  cases u g <;> simp

/-- What the storing of an action found or made, if the action stores and is accepted.  A node or
link that is added by the name of its type is stored by its description or its content. -/
def outcome? (g : Graph digest) : Action → Option Stored
  | .insert d truth => result? (insert d truth) g
  | .addNode typeName name => result? (insert (.node typeName name) none) g
  | .addLink typeName members =>
    (g.types.get? typeName).bind fun type => result? (insertContent (.link type members)) g
  | .insertContent c => result? (insertContent c) g
  | _ => none

/-- The handles of the atoms that an action takes away. -/
def taken (g : Graph digest) : Action → List Handle
  | .remove h => (result? (remove h) g).toList.map (·.handle)
  | .removeCascade h => (result? (removeCascade h) g).getD []
  | _ => []

/-- The outcome of a new atom: it takes the last handle that is given out, and is there. -/
structure Creates (g : Graph digest) (h : Handle) (g' : Graph digest) : Prop where
  fresh : g.nextHandle ≤ h.value
  last : g'.nextHandle = h.value + 1
  stored : g'.contains h

/-- A new content takes the last handle given out. -/
theorem creates_insertContent {c : Content} {h : Handle}
    (room : (after (insertContent c) g).HandlesLeft)
    (created : result? (insertContent c) g = some ⟨h, true⟩) :
    g.Creates h (after (insertContent c) g) := by
  unfold after result? insertContent at *
  cases hc : g.checkContent c with
  | error refusal =>
    rw [hc] at created
    cases created
  | ok _ =>
    rw [hc] at created room
    simp only [Option.some.injEq] at created
    have told : Tells g _ _ := Tells.of_intern room
    have stored := contains_intern_self (g := g) c
    rw [created] at told stored
    exact ⟨told.1, told.2, stored⟩

/-- A new atom of an insertion takes the last handle given out. -/
theorem Reachable.creates_insert (hg : g.Reachable) {d : Description} {truth : Option Truth}
    {h : Handle} (room : (after (insert d truth) g).HandlesLeft)
    (created : result? (insert d truth) g = some ⟨h, true⟩) :
    g.Creates h (after (insert d truth) g) := by
  have ht := hg.typesMakeSense.wellFormed
  obtain ⟨r, hr, houtcome, hafter⟩ := insert_eq_ok ht (result?_eq_some.mp created)
  have fits := resolve_fits ht d hr
  obtain ⟨storing, stored⟩ := stores_store r g fits
  rw [hafter, handlesLeft_observe] at room
  have coherent := hg.coherent (room_of_changes storing.changes room)
  have told := (coherent.gains_store r fits room).2
  rw [← houtcome] at told stored
  rw [hafter]
  exact ⟨told.1, (nextHandle_observe _ _).trans told.2, (contains_observe _ _ _).mpr stored⟩

/-- **A new atom** is younger than all that were there before, and the youngest after the action
that created it. -/
theorem Reachable.creates (hg : g.Reachable) {a : Action} {h : Handle}
    (room : (g.apply a).HandlesLeft)
    (created : g.outcome? a = some ⟨h, true⟩) : g.Creates h (g.apply a) := by
  cases a with
  | insert d truth => exact hg.creates_insert room created
  | addNode typeName name =>
    have same : g.apply (.addNode typeName name) = after (insert (.node typeName name) none) g :=
      after_map _ _
    rw [same] at room ⊢
    exact hg.creates_insert room created
  | addLink typeName members =>
    obtain ⟨type, htype, created⟩ := Option.bind_eq_some_iff.mp created
    have same : g.apply (.addLink typeName members)
        = after (insertContent (.link type members)) g := by
      rw [apply, after_addLink, TypeTree.resolve, htype]
    rw [same] at room ⊢
    exact creates_insertContent room created
  | insertContent c => exact creates_insertContent room created
  | declareType name parent => cases created
  | remove x => cases created
  | removeCascade x => cases created
  | revise x observation => cases created
  | replace x value => cases created

/-- What an action takes away was there and is gone. -/
theorem Coherent.gone_of_taken (hg : g.Coherent) {a : Action} {h : Handle} (ht : h ∈ g.taken a) :
    g.contains h ∧ ¬ (g.apply a).contains h := by
  have lost_of : ∀ {gone : List Handle} {g₁ : Graph digest}, g.Loses gone g₁ → h ∈ gone →
      ¬ g₁.contains h := fun lost hh stored => ((lost.contains h).mp stored).2 hh
  cases a with
  | remove x =>
    rw [taken, List.mem_map] at ht
    obtain ⟨atom, hatom, rfl⟩ := ht
    rw [Option.mem_toList, result?_eq_some] at hatom
    have stored : g.contains x := by
      by_contra absent
      have entry : g.incidence.get? x = none := by rw [hg.incidence_eq, if_neg absent]
      rw [remove, entry] at hatom
      cases hatom
    obtain ⟨read, lost⟩ := hg.referentiallyIntact.removed x atom _ stored hatom
    obtain ⟨c, hc⟩ := (g.contains_iff x).mp stored
    rw [Graph.atom, hc] at read
    cases read
    exact ⟨stored, lost_of lost List.mem_cons_self⟩
  | removeCascade x =>
    rw [taken] at ht
    cases hr : result? (removeCascade x) g with
    | none => simp [hr] at ht
    | some removed =>
      rw [hr, Option.getD_some] at ht
      rw [result?_eq_some] at hr
      by_cases stored : g.contains x
      · obtain ⟨removed', g₁, accepted, -, -, least, lost⟩ := hg.cascadesExactly.stored x stored
        rw [hr] at accepted
        cases accepted
        -- only what is stored is reached from a stored atom
        have within : ∀ y ∈ removed, g.contains y := fun y hy =>
          least.2 (show {y | g.contains y} ∈ _ from
            ⟨stored, fun link m referred _ => contains_of_refers referred⟩) hy
        exact ⟨within h ht, lost_of lost ht⟩
      · rw [removeCascade_unknown stored] at hr
        cases hr
  | declareType name parent => cases ht
  | insert d truth => cases ht
  | addNode typeName name => cases ht
  | addLink typeName members => cases ht
  | insertContent c => cases ht
  | revise x observation => cases ht
  | replace x value => cases ht

/-! ## Forgotten handles -/

/-- If several descriptions resolve then so does each of them. -/
theorem exists_resolve_of_mem {depth : Nat} {ds : List Description} {rs : List Resolved}
    (hrs : g.resolveAll depth ds = .ok rs) {d : Description} (hd : d ∈ ds) :
    ∃ r, g.resolve depth d = .ok r := by
  induction ds generalizing rs with
  | nil => cases hd
  | cons first rest ih =>
    obtain ⟨r, rs', hr, hrs', -⟩ := resolveAll_cons_eq_ok.mp hrs
    rcases List.mem_cons.mp hd with rfl | hd
    · exact ⟨r, hr⟩
    · exact ih hrs' hd

/-- A description that is resolved tells stored atoms only. -/
theorem contains_of_resolve {d : Description} {depth : Nat} {r : Resolved} {h : Handle}
    (hr : g.resolve depth d = .ok r) (told : .stored h ∈ d.parts) : g.contains h := by
  induction d using Description.induction generalizing depth r with
  | node typeName name => simp [Description.parts] at told
  | link typeName members ih =>
    obtain ⟨-, type, rs, -, -, -, hrs, -⟩ := resolve_link_eq_ok.mp hr
    obtain ⟨⟨⟩⟩ | ⟨m, hm, told⟩ := Description.mem_parts_link.mp told
    obtain ⟨r', hr'⟩ := exists_resolve_of_mem hrs hm
    exact ih m hm hr' told
  | stored m =>
    rw [Description.parts, List.mem_singleton, Description.stored.injEq] at told
    rw [told]
    exact (resolve_stored_eq_ok.mp hr).2.1

/-- Every question about a handle is answered that there is no such atom, and no link over it is
accepted, however it is described. -/
structure Forgotten (g : Graph digest) (h : Handle) : Prop where
  atom : g.atom h = .error (.notFound h)
  incoming : g.incoming h = .error (.notFound h)
  truth : g.truth h = .error (.notFound h)
  remove : Graph.remove h g = .error (.notFound h) g
  removeCascade : Graph.removeCascade h g = .error (.notFound h) g
  revise : ∀ observation, Graph.revise h observation g = .error (.notFound h) g
  replace : ∀ value, Graph.replace h value g = .error (.notFound h) g
  unreferred : ∀ link, ¬ g.Refers link h
  addLink : ∀ typeName members, h ∈ members →
    result? (Graph.addLink typeName members) g = none
  insertContent : ∀ type members, h ∈ members →
    result? (Graph.insertContent (.link type members)) g = none
  insert : ∀ d truth, .stored h ∈ d.parts → result? (Graph.insert d truth) g = none

/-- An operation that is never accepted has no result. -/
theorem result?_eq_none_of {α : Type} {u : Update digest α}
    (refused : ∀ a g', u g ≠ .ok a g') : result? u g = none := by
  rw [result?]
  cases hu : u g with
  | ok a g' => exact absurd hu (refused a g')
  | error refusal g' => rfl

/-- A link over an atom that is not stored is not accepted. -/
theorem insertContent_ne_ok {type : TypeId} {members : List Handle} {h : Handle}
    (absent : ¬ g.contains h) (hm : h ∈ members) (outcome : Stored) (g' : Graph digest) :
    insertContent (.link type members) g ≠ .ok outcome g' := by
  intro accepted
  unfold insertContent at accepted
  cases hc : g.checkContent (.link type members) with
  | error refusal =>
    rw [hc] at accepted
    cases accepted
  | ok _ => exact absent ((checkContent_link_eq_ok.mp hc).2.2.2 h hm)

/-- **What is not stored is forgotten.** -/
theorem Coherent.forgotten (hg : g.Coherent) (ht : g.types.WellFormed) {h : Handle}
    (absent : ¬ g.contains h) : g.Forgotten h where
  atom := by
    rw [Graph.atom]
    cases hc : g.content? h with
    | none => rfl
    | some c => exact absurd (contains_of_content? hc) absent
  incoming := by rw [hg.incoming_eq, if_neg absent]
  truth := by rw [truth_eq, if_neg absent]
  remove := by
    have entry : g.incidence.get? h = none := by rw [hg.incidence_eq, if_neg absent]
    rw [Graph.remove, entry]
  removeCascade := removeCascade_unknown absent
  revise observation := by rw [revise_eq, if_neg absent]
  replace value := by rw [replace_eq, if_neg absent]
  unreferred link referred := absent (hg.of_refers referred).1
  addLink typeName members hm := by
    apply result?_eq_none_of
    intro x g' accepted
    unfold Graph.addLink at accepted
    rw [get_bind] at accepted
    -- the type is looked up first, but then the members are checked
    cases hn : g.types.resolve typeName with
    | error undeclared =>
      rw [hn] at accepted
      cases accepted
    | ok type =>
      rw [hn] at accepted
      simp only [MonadExcept.ofExcept, bind, EStateM.bind, pure, EStateM.pure] at accepted
      cases hi : Graph.insertContent (.link type members) g with
      | ok outcome g₁ => exact insertContent_ne_ok absent hm outcome g₁ hi
      | error refusal g₁ =>
        rw [hi] at accepted
        cases accepted
  insertContent type members hm := result?_eq_none_of (insertContent_ne_ok absent hm)
  insert d truth told := by
    apply result?_eq_none_of
    intro outcome g' accepted
    obtain ⟨r, hr, -, -⟩ := insert_eq_ok ht accepted
    exact absent (contains_of_resolve hr told)

/-! ## Moments of a run -/

/-- The moments of a run from the empty graph, in their order. -/
structure Moments (digest : Content → UInt64) (early late : List Action) : Prop where
  order : early <+: late
  room : ((empty : Graph digest).run late).HandlesLeft

namespace Moments

variable {early late : List Action}

/-- At each moment of a run the graph is reachable. -/
theorem reachable (part : List Action) : ((empty : Graph digest).run part).Reachable :=
  ⟨part, rfl⟩

/-- From an earlier moment of a run to a later one there are only changes. -/
theorem changes (m : Moments digest early late) :
    Changes ((empty : Graph digest).run early) (empty.run late) := by
  obtain ⟨more, rfl⟩ := m.order
  have split : (empty : Graph digest).run (early ++ more) = (empty.run early).run more :=
    List.foldl_append
  rw [split]
  exact changes_run (reachable early).typesMakeSense more

/-- **The supply** never shrinks. -/
theorem supply (m : Moments digest early late) :
    ((empty : Graph digest).run early).nextHandle ≤ (empty.run late : Graph digest).nextHandle :=
  nextHandle_le_of_changes m.changes m.room

/-- At the later moment the graph is coherent. -/
theorem coherent_late (m : Moments digest early late) :
    ((empty : Graph digest).run late).Coherent :=
  (reachable late).coherent m.room

/-- At the earlier moment the graph is coherent. -/
theorem coherent_early (m : Moments digest early late) :
    ((empty : Graph digest).run early).Coherent :=
  (reachable early).coherent (room_of_changes m.changes m.room)

/-- What was there has a handle that was given out. -/
theorem spent (m : Moments digest early late) {x : Handle}
    (there : ((empty : Graph digest).run early).contains x) :
    x.value < (empty.run late : Graph digest).nextHandle :=
  (m.coherent_early.handle_lt x there).trans_le m.supply

/-- What was there and is gone does not come back. -/
theorem absent_of_gone {middle : List Action} (m : Moments digest early middle)
    (m' : Moments digest middle late) {x : Handle}
    (there : ((empty : Graph digest).run early).contains x)
    (gone : ¬ ((empty : Graph digest).run middle).contains x) :
    ¬ ((empty : Graph digest).run late).contains x :=
  fun back => gone (contains_of_later m'.changes m'.room (m.spent there) back)

end Moments

/-- One action more is the run and then that action. -/
theorem run_append_singleton (g : Graph digest) (before : List Action) (a : Action) :
    g.run (before ++ [a]) = (g.run before).apply a := by
  simp [run]

/-! ## Runs -/

/-- How a run spends its handles.  A *moment* is a list of actions with which the run begins. -/
structure HandlesSpent (digest : Content → UInt64) (actions : List Action) : Prop where
  /-- From one moment to a later one the supply does not shrink. -/
  supply : ∀ early late, early <+: late → late <+: actions →
    ((empty : Graph digest).run early).nextHandle ≤ (empty.run late : Graph digest).nextHandle
  /-- What is stored has a handle that was given out. -/
  stored : ∀ part, part <+: actions → ∀ h : Handle, ((empty : Graph digest).run part).contains h →
    h.value < (empty.run part : Graph digest).nextHandle
  /-- A new atom is told by a handle that is greater than all that were ever there before, and than
  all that its own action created with it. -/
  created : ∀ before a, before ++ [a] <+: actions → ∀ h : Handle,
    ((empty : Graph digest).run before).outcome? a = some ⟨h, true⟩ →
      ((empty : Graph digest).run (before ++ [a])).contains h ∧
        (∀ part, part <+: before →
          ∀ x : Handle, (empty.run part : Graph digest).contains x → x < h) ∧
        ∀ x : Handle, x ≠ h → (empty.run (before ++ [a]) : Graph digest).contains x → x < h
  /-- The same holds of whatever appears, told or not. -/
  appeared : ∀ before late, before <+: late → late <+: actions → ∀ h : Handle,
    ¬ ((empty : Graph digest).run before).contains h → (empty.run late : Graph digest).contains h →
      ∀ part, part <+: before → ∀ x : Handle, (empty.run part : Graph digest).contains x → x < h
  /-- What an action takes away was there, and is forgotten from then on. -/
  taken : ∀ before a, before ++ [a] <+: actions → ∀ h : Handle,
    h ∈ ((empty : Graph digest).run before).taken a →
      ((empty : Graph digest).run before).contains h ∧
        ∀ late, before ++ [a] <+: late → late <+: actions →
          ((empty : Graph digest).run late).Forgotten h
  /-- What is gone at one moment is forgotten from then on. -/
  gone : ∀ early middle late, early <+: middle → middle <+: late → late <+: actions →
    ∀ h : Handle, ((empty : Graph digest).run early).contains h →
      ¬ (empty.run middle : Graph digest).contains h →
        ((empty : Graph digest).run late).Forgotten h
  /-- If its content is stored again, then under a greater handle. -/
  again : ∀ early middle late, early <+: middle → middle <+: late → late <+: actions →
    ∀ (h h' : Handle) (c : Content), ((empty : Graph digest).run early).content? h = some c →
      ¬ (empty.run middle : Graph digest).contains h →
        (empty.run late : Graph digest).content? h' = some c → h < h'

/-- **Handles are never used again** in a run as long as there are handles left. -/
theorem handlesSpent (actions : List Action)
    (room : ((empty : Graph digest).run actions).HandlesLeft) :
    HandlesSpent digest actions := by
  -- every moment leaves handles, since the last one does
  have moments : ∀ {early late}, early <+: late → late <+: actions → Moments digest early late :=
    fun order within => ⟨order, room_of_changes (Moments.changes ⟨within, room⟩) room⟩
  have forgotten : ∀ {late}, late <+: actions → ∀ {h : Handle},
      ¬ ((empty : Graph digest).run late).contains h →
        ((empty : Graph digest).run late).Forgotten h := fun within _ absent =>
    (moments (List.prefix_refl _) within).coherent_late.forgotten
      (Moments.reachable _).typesMakeSense.wellFormed absent
  have appeared : ∀ before late, before <+: late → late <+: actions → ∀ h : Handle,
      ¬ ((empty : Graph digest).run before).contains h →
        (empty.run late : Graph digest).contains h → ∀ part, part <+: before → ∀ x : Handle,
          (empty.run part : Graph digest).contains x → x < h := by
    intro before late order within h absent there part hpart x hx
    have m := moments order within
    have old := (moments hpart (order.trans within)).spent hx
    -- a handle below the supply would have been there before
    have young : ¬ h.value < (empty.run before : Graph digest).nextHandle := fun hlt =>
      absent (contains_of_later m.changes m.room hlt there)
    exact Nat.lt_of_lt_of_le old (Nat.not_lt.mp young)
  have gone : ∀ early middle late, early <+: middle → middle <+: late → late <+: actions →
      ∀ h : Handle, ((empty : Graph digest).run early).contains h →
        ¬ (empty.run middle : Graph digest).contains h →
          ¬ (empty.run late : Graph digest).contains h :=
    fun early middle late h₁ h₂ within h there absent =>
      Moments.absent_of_gone (moments h₁ (h₂.trans within)) (moments h₂ within) there absent
  exact {
    supply := fun early late order within => (moments order within).supply
    stored := fun part within h there => (moments (List.prefix_refl part) within).spent there
    created := by
      intro before a within h created
      have m := moments (List.prefix_append before [a]) within
      have hroom := m.room
      rw [run_append_singleton] at hroom
      have creates := (Moments.reachable before).creates hroom created
      rw [← run_append_singleton] at creates
      refine ⟨creates.stored, ?_, ?_⟩
      · intro part hpart x hx
        have old := (moments hpart (m.order.trans within)).spent hx
        exact Nat.lt_of_lt_of_le old creates.fresh
      · intro x hne hx
        have hlt := m.coherent_late.handle_lt x hx
        rw [creates.last] at hlt
        rw [Ne, Handle.eq_iff] at hne
        show x.value < h.value
        omega
    appeared := appeared
    taken := by
      intro before a within h ht
      have m := moments (List.prefix_append before [a]) within
      obtain ⟨there, absent⟩ := m.coherent_early.gone_of_taken ht
      rw [← run_append_singleton] at absent
      refine ⟨there, ?_⟩
      intro late order hlate
      exact forgotten hlate (gone _ _ late m.order order hlate h there absent)
    gone := fun early middle late h₁ h₂ within h there absent =>
      forgotten within (gone early middle late h₁ h₂ within h there absent)
    again := by
      intro early middle late h₁ h₂ within h h' c hc absent hc'
      have there' := contains_of_content? hc'
      have absent' := gone early middle late h₁ h₂ within h (contains_of_content? hc) absent
      refine appeared early late (h₁.trans h₂) within h' ?_ there' early (List.prefix_refl _) h
        (contains_of_content? hc)
      -- at the early moment only the first handle has the content
      intro there
      have m := moments (h₁.trans h₂) within
      have early' := content?_of_later m.changes m.room (m.coherent_early.handle_lt h' there) hc'
      rw [m.coherent_early.unique h h' c hc early'] at absent'
      exact absent' there' }

/-- Several handles are given out by one action, one of them by a duplicate only; a cascade takes
some of them away, and the same description is then stored under new ones. -/
theorem handlesSpent_of_return :
    let d := Description.link "Link" [.node "Node" "a", .link "Link" [.node "Node" "a"]]
    let actions : List Action := [.insert d none, .insert d none, .removeCascade ⟨1⟩,
      .remove ⟨0⟩, .insert d (some ⟨1, 1⟩), .addLink "Link" [⟨0⟩], .addLink "Link" [⟨3⟩]]
    let g := (empty : Graph fun _ => 0).run (actions.take 2)
    (empty.run actions : Graph fun _ => 0).HandlesLeft ∧
      HandlesSpent (fun _ => 0) actions ∧
      (empty : Graph fun _ => 0).outcome? (.insert d none) = some ⟨⟨2⟩, true⟩ ∧
      g.taken (.removeCascade ⟨1⟩) = [⟨2⟩, ⟨1⟩] ∧
      (empty.run actions : Graph fun _ => 0).handles = [⟨3⟩, ⟨4⟩, ⟨5⟩] := by
  intro d actions g
  have room : (empty.run actions : Graph fun _ => 0).HandlesLeft := by
    decide +kernel
  exact ⟨room, handlesSpent actions room, by decide +kernel, by decide +kernel, by decide +kernel⟩

end Graph

end TypedHypergraph
