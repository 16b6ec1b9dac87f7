/-
# Removing with a cascade

A set of atoms is *closed upward* if it contains every link that refers to one of its members.
The atoms that go with an atom are the least such set that contains it (`isLeast_dependents`):
the search takes every atom from its queue at most once, so that the number of atoms is enough of
fuel.

A link is younger than its members.  Youngest first, no atom of the set is referred to any more
when its turn comes, and so no removal in the middle of a cascade is refused
(`Coherent.removeAll`).
-/
import TypedHypergraph.Proofs.Removal

namespace TypedHypergraph

namespace Graph

variable {digest : Content → UInt64} {g g' : Graph digest}

/-! ## Closed sets -/

/-- Every link that refers to a member of the set is a member itself. -/
def ClosedUpward (g : Graph digest) (S : Set Handle) : Prop :=
  ∀ link m, g.Refers link m → m ∈ S → link ∈ S

/-- What is as old as an atom, or younger, is closed upward. -/
theorem Coherent.closedUpward_younger (hg : g.Coherent) (h : Handle) :
    g.ClosedUpward {x | h.value ≤ x.value} := by
  intro link m referred hm
  have hlt : m.value < link.value := (hg.of_refers referred).2
  exact le_trans hm hlt.le

/-! ## Searching -/

/-- The links that refer to an atom and have not been seen so far. -/
def unseen (g : Graph digest) (seen : Std.TreeSet Handle) (h : Handle) : List Handle :=
  ((g.incidence.get? h).getD []).filter fun link => !seen.contains link

/-- One round of the closure looks at the first handle of the queue and appends the links not seen.
-/
theorem closure_cons (g : Graph digest) (fuel : Nat) (seen : Std.TreeSet Handle) (h : Handle)
    (queue : List Handle) :
    g.closure (fuel + 1) seen (h :: queue)
      = g.closure fuel (seen.insertMany (g.unseen seen h)) (queue ++ g.unseen seen h) := rfl

/-- The unseen links of an atom are those that refer to it and have not been seen. -/
theorem Coherent.mem_unseen (hg : g.Coherent) {seen : Std.TreeSet Handle} {link h : Handle} :
    link ∈ g.unseen seen h ↔ g.Refers link h ∧ link ∉ seen := by
  rw [unseen, List.mem_filter, ← Incidence.Lists, hg.lists, ← Refers, Bool.not_eq_true',
    ← Bool.not_eq_true, Std.TreeSet.contains_iff_mem]

/-- No unseen link is listed twice. -/
theorem nodup_unseen (seen : Std.TreeSet Handle) (h : Handle) : (g.unseen seen h).Nodup := by
  rw [unseen]
  cases hl : g.incidence.get? h with
  | none => simp
  | some links => exact (nodup_of_ascending (Incidence.ascending_get? hl)).filter _

/-- A set with some links added holds those that it held and the links. -/
theorem mem_insertMany {seen : Std.TreeSet Handle} {links : List Handle} {x : Handle} :
    x ∈ seen.insertMany links ↔ x ∈ seen ∨ x ∈ links := by
  rw [Std.TreeSet.mem_insertMany_list, List.contains_iff_mem]

/-- New links make a set of seen atoms larger by their number. -/
theorem Coherent.size_insertMany_unseen (hg : g.Coherent) (seen : Std.TreeSet Handle)
    (h : Handle) :
    (seen.insertMany (g.unseen seen h)).size = seen.size + (g.unseen seen h).length := by
  apply Std.TreeSet.size_insertMany_list
  · refine (nodup_unseen seen h).imp ?_
    intro a b hne heq
    exact hne (Std.compare_eq_iff_eq.mp heq)
  · intro x hx
    rw [← Bool.not_eq_true, List.contains_iff_mem, hg.mem_unseen]
    exact fun hboth => hboth.2 hx

/-- A search that is under way: what was seen is stored, what waits was seen, and the links that
refer to an atom were seen once it no longer waits. -/
structure Exploring (g : Graph digest) (seen : Std.TreeSet Handle) (queue : List Handle) :
    Prop where
  stored : ∀ x ∈ seen, g.contains x
  queued : ∀ x ∈ queue, x ∈ seen
  done : ∀ link m : Handle, g.Refers link m → m ∈ seen → m ∉ queue → link ∈ seen

namespace Exploring

variable {seen : Std.TreeSet Handle} {queue : List Handle} {h : Handle}

/-- The exploration starts at a stored atom, which is seen and queued. -/
theorem start (stored : g.contains h) : Exploring g (Std.TreeSet.empty.insert h) [h] where
  stored x hx := by
    have heq : h = x := by simpa using hx
    rw [← heq]
    exact stored
  queued x hx := by
    rw [List.mem_singleton.mp hx]
    exact Std.TreeSet.mem_insert_self
  done link m _ hm hwaits := by
    have heq : h = m := by simpa using hm
    exact absurd (by rw [heq]; exact List.mem_cons_self) hwaits

/-- Taking an atom from the queue keeps a search under way. -/
theorem step (hg : g.Coherent) (e : Exploring g seen (h :: queue)) :
    Exploring g (seen.insertMany (g.unseen seen h)) (queue ++ g.unseen seen h) where
  stored x hx := by
    rcases mem_insertMany.mp hx with hx | hx
    · exact e.stored x hx
    · exact contains_of_refers (hg.mem_unseen.mp hx).1
  queued x hx := by
    rw [mem_insertMany]
    rcases List.mem_append.mp hx with hx | hx
    · exact .inl (e.queued x (List.mem_cons_of_mem _ hx))
    · exact .inr hx
  done link m referred hm hwaits := by
    rw [List.mem_append, not_or] at hwaits
    rw [mem_insertMany] at hm ⊢
    have old : m ∈ seen := hm.resolve_right hwaits.2
    by_cases heq : m = h
    · -- the links that refer to the atom taken were seen before or are seen now
      subst heq
      by_cases hlink : link ∈ seen
      · exact .inl hlink
      · exact .inr (hg.mem_unseen.mpr ⟨referred, hlink⟩)
    · refine .inl (e.done link m referred old ?_)
      rw [List.mem_cons, not_or]
      exact ⟨heq, hwaits.1⟩

/-- No more atoms are seen than there are. -/
theorem size_le (e : Exploring g seen queue) : seen.size ≤ g.size := by
  have distinct : seen.toList.Nodup := nodup_of_ascending (ascending_toList seen)
  have within : seen.toList ⊆ g.handles := by
    intro x hx
    exact mem_handles.mpr (e.stored x (Std.TreeSet.mem_toList.mp hx))
  have bounded := (distinct.subperm within).length_le
  rw [Std.TreeSet.length_toList, handles, Std.TreeMap.length_keys] at bounded
  exact bounded

/-- What has been seen is closed upward when the queue is empty. -/
theorem closedUpward (e : Exploring g seen []) : g.ClosedUpward {x | x ∈ seen} :=
  fun link m referred hm => e.done link m referred hm List.not_mem_nil

/-- When nothing waits, the atoms seen are the least closed set that contains them. -/
theorem isLeast_of_nil (e : Exploring g seen []) :
    IsLeast {S : Set Handle | (∀ x ∈ seen, x ∈ S) ∧ g.ClosedUpward S} {x | x ∈ seen} :=
  ⟨⟨fun _ hx => hx, e.closedUpward⟩, fun _ hS => hS.1⟩

/-- A closed set that contains what was seen contains what is seen next. -/
theorem subset_step_iff (hg : g.Coherent) (e : Exploring g seen (h :: queue)) {S : Set Handle}
    (closed : g.ClosedUpward S) :
    (∀ x ∈ seen.insertMany (g.unseen seen h), x ∈ S) ↔ ∀ x ∈ seen, x ∈ S := by
  constructor
  · intro all x hx
    exact all x (mem_insertMany.mpr (.inl hx))
  · intro all x hx
    rcases mem_insertMany.mp hx with hx | hx
    · exact all x hx
    · have hh : h ∈ S := all h (e.queued h List.mem_cons_self)
      exact closed x h (hg.mem_unseen.mp hx).1 hh

/-- **The search** ends with the least closed set that contains what was seen, if there is fuel
for the atoms that wait and for those that were not seen yet. -/
theorem isLeast_closure (hg : g.Coherent) {fuel : Nat} (e : Exploring g seen queue)
    (enough : queue.length + g.size ≤ fuel + seen.size) :
    IsLeast {S : Set Handle | (∀ x ∈ seen, x ∈ S) ∧ g.ClosedUpward S}
      {x | x ∈ g.closure fuel seen queue} := by
  induction fuel generalizing seen queue with
  | zero =>
    have none_waits : queue = [] := by
      have := e.size_le
      exact List.length_eq_zero_iff.mp (by omega)
    subst none_waits
    exact e.isLeast_of_nil
  | succ fuel ih =>
    cases queue with
    | nil => exact e.isLeast_of_nil
    | cons h queue =>
      have room : (queue ++ g.unseen seen h).length + g.size
          ≤ fuel + (seen.insertMany (g.unseen seen h)).size := by
        rw [hg.size_insertMany_unseen, List.length_append]
        rw [List.length_cons] at enough
        omega
      have least := ih (e.step hg) room
      -- a closed set contains what was seen before exactly if it contains what is seen now
      have same : {S : Set Handle | (∀ x ∈ seen, x ∈ S) ∧ g.ClosedUpward S}
          = {S | (∀ x ∈ seen.insertMany (g.unseen seen h), x ∈ S) ∧ g.ClosedUpward S} := by
        ext S
        exact and_congr_left fun closed => (e.subset_step_iff hg closed).symm
      rw [closure_cons, same]
      exact least

end Exploring

/-! ## Dependents -/

/-- **The dependents** of an atom are the least set that contains it and every link that refers
to a member of the set. -/
theorem Coherent.isLeast_dependents (hg : g.Coherent) {h : Handle} (stored : g.contains h) :
    IsLeast {S : Set Handle | h ∈ S ∧ g.ClosedUpward S} {x | x ∈ g.dependents h} := by
  have one : (Std.TreeSet.empty.insert h : Std.TreeSet Handle).size = 1 := by
    simp [Std.TreeSet.size_insert]
  have enough : [h].length + g.size
      ≤ g.size + (Std.TreeSet.empty.insert h : Std.TreeSet Handle).size := by
    rw [one, List.length_singleton, Nat.add_comm]
  have least := (Exploring.start stored).isLeast_closure hg enough
  have starts : ∀ S : Set Handle,
      (∀ x ∈ (Std.TreeSet.empty.insert h : Std.TreeSet Handle), x ∈ S) ↔ h ∈ S := by
    intro S
    simp
  simp only [starts] at least
  simpa [dependents] using least

/-- Every closed set that contains an atom contains its dependents. -/
theorem Coherent.dependents_subset (hg : g.Coherent) {h : Handle} (stored : g.contains h)
    {S : Set Handle} (hh : h ∈ S) (closed : g.ClosedUpward S) : ∀ x ∈ g.dependents h, x ∈ S :=
  fun _ hx => (hg.isLeast_dependents stored).2 (show S ∈ _ from ⟨hh, closed⟩) hx

/-- A stored atom is among its own dependents. -/
theorem Coherent.mem_dependents_self (hg : g.Coherent) {h : Handle} (stored : g.contains h) :
    h ∈ g.dependents h := (hg.isLeast_dependents stored).1.1

/-- Dependents are stored. -/
theorem Coherent.contains_of_mem_dependents (hg : g.Coherent) {h : Handle}
    (stored : g.contains h) : ∀ x ∈ g.dependents h, g.contains x := by
  apply hg.dependents_subset stored (S := {x | g.contains x}) stored
  intro link m referred _
  exact contains_of_refers referred

/-- Dependents are listed in descending order. -/
theorem descending_dependents (h : Handle) : (g.dependents h).Pairwise (· > ·) :=
  List.pairwise_reverse.mpr (ascending_toList _)

/-- An ascending list begins with its least member. -/
theorem head?_of_least {hs : List Handle} (ascending : hs.Pairwise (· < ·)) {h : Handle}
    (hh : h ∈ hs) (least : ∀ x ∈ hs, h.value ≤ x.value) : hs.head? = some h := by
  cases hs with
  | nil => cases hh
  | cons first rest =>
    rcases List.mem_cons.mp hh with rfl | hrest
    · rfl
    · have hlt : first.value < h.value := List.rel_of_pairwise_cons ascending hrest
      exact absurd (least first List.mem_cons_self) (not_le.mpr hlt)

/-- The atom itself is the last of its dependents, since all others are younger. -/
theorem Coherent.getLast?_dependents (hg : g.Coherent) {h : Handle} (stored : g.contains h) :
    (g.dependents h).getLast? = some h := by
  have itself := hg.mem_dependents_self stored
  have youngest := hg.dependents_subset stored (S := {x | h.value ≤ x.value}) (Nat.le_refl _)
    (hg.closedUpward_younger h)
  rw [dependents] at itself youngest
  rw [dependents, List.getLast?_reverse]
  exact head?_of_least (ascending_toList _) (List.mem_reverse.mp itself)
    fun x hx => youngest x (List.mem_reverse.mpr hx)

/-! ## Removing one by one -/

/-- **Removing** the members of a closed set youngest first is never refused. -/
theorem Coherent.removeAll (hg : g.Coherent) {hs : List Handle}
    (descending : hs.Pairwise (· > ·)) (stored : ∀ x ∈ hs, g.contains x)
    (closed : g.ClosedUpward {x | x ∈ hs}) :
    ∃ g', Graph.removeAll hs g = .ok () g' ∧ g.Loses hs g' := by
  induction hs generalizing g with
  | nil => exact ⟨g, rfl, .refl g⟩
  | cons h hs ih =>
    rw [List.forall_mem_cons] at stored
    rw [List.pairwise_cons] at descending
    obtain ⟨c, hc⟩ := (g.contains_iff h).mp stored.1
    -- a link that refers to the youngest would be a member, and younger still
    have free : ∀ link, ¬ g.Refers link h := by
      intro link referred
      have hlt : h < link := (hg.of_refers referred).2
      rcases List.mem_cons.mp (closed link h referred List.mem_cons_self) with rfl | hlink
      · exact Nat.lt_irrefl _ hlt
      · exact Nat.lt_asymm hlt (descending.1 link hlink)
    have entry := hg.get?_free stored.1 free
    obtain ⟨removed, lost⟩ := hg.remove_free hc free
    have others : ∀ x ∈ hs, (g.drop h c).contains x := by
      intro x hx
      have hlt : x < h := descending.1 x hx
      rw [lost.contains, List.mem_singleton]
      refine ⟨stored.2 x hx, ?_⟩
      rintro rfl
      exact Nat.lt_irrefl _ hlt
    have closed' : (g.drop h c).ClosedUpward {x | x ∈ hs} := by
      intro link m referred hm
      obtain ⟨before, hne⟩ := (lost.refers link m).mp referred
      have hlink := closed link m before (List.mem_cons_of_mem _ hm)
      rw [List.mem_singleton] at hne
      exact (List.mem_cons.mp hlink).resolve_left hne
    obtain ⟨g', rest, lost'⟩ := ih (hg.drop hc entry) descending.2 others closed'
    refine ⟨g', ?_, lost.trans lost'⟩
    simp only [Graph.removeAll, bind, EStateM.bind, removed, rest]

/-! ## Cascades -/

/-- A cascade from an atom that is not stored is refused. -/
theorem removeCascade_unknown {h : Handle} (unknown : ¬ g.contains h) :
    removeCascade h g = .error (.notFound h) g := by
  unfold removeCascade
  rw [get_bind, if_neg unknown]
  rfl

/-- A cascade from a stored atom removes its dependents and names them. -/
theorem removeCascade_stored {h : Handle} (stored : g.contains h)
    (removed : removeAll (g.dependents h) g = .ok () g') :
    removeCascade h g = .ok (g.dependents h) g' := by
  unfold removeCascade
  rw [get_bind, if_pos stored]
  simp only [bind, EStateM.bind, pure, EStateM.pure, removed]

/-- A stored atom is removed with its dependents and nothing else, and an unknown one is
refused. -/
structure CascadesExactly (g : Graph digest) : Prop where
  stored : ∀ h : Handle, g.contains h → ∃ removed g',
    removeCascade h g = .ok removed g' ∧ removed.Pairwise (· > ·) ∧ removed.getLast? = some h ∧
      IsLeast {S : Set Handle | h ∈ S ∧ g.ClosedUpward S} {x | x ∈ removed} ∧ g.Loses removed g'
  unknown : ∀ h : Handle, ¬ g.contains h → removeCascade h g = .error (.notFound h) g

/-- **Cascades are exact** in every coherent graph. -/
theorem Coherent.cascadesExactly (hg : g.Coherent) : g.CascadesExactly where
  stored h stored := by
    have least := hg.isLeast_dependents stored
    obtain ⟨g', removed, lost⟩ := hg.removeAll (descending_dependents h)
      (hg.contains_of_mem_dependents stored) least.1.2
    exact ⟨g.dependents h, g', removeCascade_stored stored removed, descending_dependents h,
      hg.getLast?_dependents stored, least, lost⟩
  unknown _ unknown := removeCascade_unknown unknown

/-- **In every reachable graph** a cascade removes exactly what it has to and never stops halfway,
as long as there are handles left. -/
theorem Reachable.exactCascades (hg : g.Reachable) (room : g.HandlesLeft) :
    g.CascadesExactly :=
  (hg.coherent room).cascadesExactly

/-- A cascade over links that share members and lead to one atom along two ways. -/
theorem exactCascades_of_shared_members :
    let g := (empty : Graph fun _ => 0).run
      [.addNode "Node" "a", .addNode "Node" "b", .addLink "Link" [⟨0⟩, ⟨1⟩],
        .addLink "Link" [⟨1⟩], .addLink "Link" [⟨2⟩, ⟨0⟩], .addLink "Link" [⟨4⟩, ⟨2⟩, ⟨4⟩]]
    g.HandlesLeft ∧ g.dependents ⟨0⟩ = [⟨5⟩, ⟨4⟩, ⟨2⟩, ⟨0⟩] ∧
      (after (removeCascade ⟨0⟩) g).handles = [⟨1⟩, ⟨3⟩] ∧ g.CascadesExactly :=
  ⟨by decide +kernel, by decide +kernel, by decide +kernel,
    Reachable.exactCascades ⟨_, rfl⟩ (by decide +kernel)⟩

end Graph

end TypedHypergraph
