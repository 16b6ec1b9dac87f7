/-
# Reading by type

The atoms of a type are read from the index by type: one bucket for the atoms of exactly this type,
and the buckets of all types below it for the atoms of its kind.  The types below are found by a
walk downwards, while the kinds of an atom are found by a walk upwards from its type.  Both ways
lead to the same atoms (`Graph.ReadsByType`): what is read are the handles, ascending, that a look
at every atom of the graph would find, and they can be counted bucket by bucket, since no atom is
in two buckets.
-/
import TypedHypergraph.Proofs.IndexCoherence
import TypedHypergraph.Proofs.Lineage

namespace TypedHypergraph

namespace Graph

variable {digest : Content → UInt64} {g : Graph digest}

/-! ## What is read -/

/-- The atoms of a type are listed in ascending order. -/
theorem ascending_handlesOfType (type : TypeId) (withSubtypes : Bool) :
    (g.handlesOfType type withSubtypes).Pairwise (· < ·) := by
  unfold handlesOfType
  split
  · exact g.byType.ascending_union _
  · exact g.byType.ascending_bucket type

/-- No atom of a type is missing among the atoms of exactly this type, -/
theorem mem_handlesOfType_exact (hg : g.Covered) {h : Handle} {c : Content}
    (hc : g.content? h = some c) : h ∈ g.handlesOfType c.type false := by
  unfold handlesOfType
  rw [if_neg Bool.false_ne_true, TypeBuckets.mem_bucket]
  exact hg.byType h c hc

/-- nor among those of any kind that it is. -/
theorem mem_handlesOfType (hg : g.Covered) (ht : g.types.WellFormed) {type : TypeId}
    (declared : g.types.contains type) {h : Handle} {c : Content} (hc : g.content? h = some c)
    (his : g.types.isA c.type type) : h ∈ g.handlesOfType type true := by
  unfold handlesOfType
  rw [if_pos rfl, TypeBuckets.mem_union]
  exact ⟨c.type, ht.mem_subtypes.mpr ⟨declared, his⟩, hg.byType h c hc⟩

/-- The atoms of exactly a type are those with this type, -/
theorem Coherent.mem_handlesOfType_exact_iff (hg : g.Coherent) {type : TypeId} {h : Handle} :
    h ∈ g.handlesOfType type false ↔ ∃ c, g.content? h = some c ∧ c.type = type := by
  rw [handlesOfType, if_neg Bool.false_ne_true, TypeBuckets.mem_bucket, hg.byType]

/-- and the atoms of its kind are those from whose types a walk upwards leads to it. -/
theorem Coherent.mem_handlesOfType_iff (hg : g.Coherent) (ht : g.types.WellFormed)
    {type : TypeId} {h : Handle} :
    h ∈ g.handlesOfType type true ↔ g.types.contains type ∧
      ∃ c, g.content? h = some c ∧ g.types.isA c.type type := by
  rw [handlesOfType, if_pos rfl, TypeBuckets.mem_union]
  simp only [ht.mem_subtypes, hg.byType]
  constructor
  · rintro ⟨t, ⟨declared, below⟩, c, hc, rfl⟩
    exact ⟨declared, c, hc, below⟩
  · rintro ⟨declared, c, hc, below⟩
    exact ⟨c.type, ⟨declared, below⟩, c, hc, rfl⟩

/-- What the index by type lists is stored. -/
theorem Coherent.contains_of_mem_handlesOfType (hg : g.Coherent) {type : TypeId}
    {withSubtypes : Bool} {h : Handle} (hh : h ∈ g.handlesOfType type withSubtypes) :
    g.contains h := by
  have found : ∃ t, g.byType.contains t h := by
    unfold handlesOfType at hh
    split at hh
    · rw [TypeBuckets.mem_union] at hh
      obtain ⟨t, -, ht⟩ := hh
      exact ⟨t, ht⟩
    · rw [TypeBuckets.mem_bucket] at hh
      exact ⟨type, hh⟩
  obtain ⟨t, ht⟩ := found
  obtain ⟨c, hc, -⟩ := (hg.byType t h).mp ht
  exact contains_of_content? hc

/-! ## Every reachable graph -/

/-- What is read by a type is what a look at all atoms finds. -/
structure ReadsByType (g : Graph digest) (type : TypeId) : Prop where
  exact_ascending : (g.handlesOfType type false).Pairwise (· < ·)
  mem_exact : ∀ h : Handle,
    h ∈ g.handlesOfType type false ↔ ∃ c, g.content? h = some c ∧ c.type = type
  kind_ascending : (g.handlesOfType type true).Pairwise (· < ·)
  mem_kind : g.types.contains type → ∀ h : Handle,
    h ∈ g.handlesOfType type true ↔ ∃ c, g.content? h = some c ∧ g.types.isA c.type type
  unregistered : ¬ g.types.contains type → g.handlesOfType type true = []
  count : g.countOfType type = (g.handlesOfType type false).length
  sum_count : ((g.types.subtypes type).map g.countOfType).sum = (g.handlesOfType type true).length

/-- The count of a type is the number of atoms that are listed for it. -/
theorem countOfType_eq (type : TypeId) :
    g.countOfType type = (g.handlesOfType type false).length := by
  rw [countOfType, TypeBuckets.count_eq_length, handlesOfType, if_neg Bool.false_ne_true]

/-- No atom has two types, so that the atoms of a kind are counted type by type. -/
theorem Coherent.sum_countOfType (hg : g.Coherent) (ht : g.types.WellFormed) (type : TypeId) :
    ((g.types.subtypes type).map g.countOfType).sum = (g.handlesOfType type true).length := by
  have distinct : (g.types.subtypes type).Nodup := nodup_of_ascending (ht.subtypes_ascending type)
  rw [handlesOfType, if_pos rfl, TypeBuckets.length_union distinct]
  · rfl
  · intro t t' h ht ht'
    obtain ⟨c, hc, rfl⟩ := (hg.byType t h).mp ht
    obtain ⟨c', hc', rfl⟩ := (hg.byType t' h).mp ht'
    rw [hc, Option.some.injEq] at hc'
    rw [hc']

/-- **Reading by any type** in a reachable graph with handles left, in the sense of `HandlesLeft`,
gives what a look at all its atoms gives. -/
theorem Reachable.readsByType (hg : g.Reachable) (room : g.HandlesLeft)
    (type : TypeId) : g.ReadsByType type where
  exact_ascending := ascending_handlesOfType type false
  mem_exact _ := (hg.coherent room).mem_handlesOfType_exact_iff
  kind_ascending := ascending_handlesOfType type true
  mem_kind declared _ := by
    rw [(hg.coherent room).mem_handlesOfType_iff hg.typesMakeSense.wellFormed,
      and_iff_right declared]
  unregistered undeclared := by
    rw [List.eq_nil_iff_forall_not_mem]
    intro h hh
    have found := (hg.coherent room).mem_handlesOfType_iff hg.typesMakeSense.wellFormed |>.mp hh
    exact undeclared found.1
  count := countOfType_eq type
  sum_count := (hg.coherent room).sum_countOfType hg.typesMakeSense.wellFormed type

/-- Atoms of a type, of one below it that was declared after some of them had been stored, and one
that was removed. -/
theorem readsByType_of_later_subtype :
    let g := (empty : Graph fun _ => 0).run
      [.declareType "Word" (some "Node"), .addNode "Word" "a", .addNode "Word" "b",
        .declareType "Noun" (some "Word"), .addNode "Noun" "c", .addLink "Link" [⟨0⟩, ⟨2⟩],
        .remove ⟨1⟩, .addNode "Word" "d"]
    g.HandlesLeft ∧ g.handlesOfType ⟨4⟩ false = [⟨0⟩, ⟨4⟩] ∧
      ⟨2⟩ ∈ g.handlesOfType ⟨4⟩ true ∧ g.ReadsByType ⟨4⟩ ∧ g.ReadsByType ⟨9⟩ := by
  intro g
  have room : g.HandlesLeft := by decide +kernel
  have reads : ∀ type, g.ReadsByType type := Reachable.readsByType ⟨_, rfl⟩ room
  have noun : ⟨2⟩ ∈ g.handlesOfType ⟨4⟩ true :=
    ((reads ⟨4⟩).mem_kind (by decide +kernel) ⟨2⟩).mpr
      ⟨.node ⟨5⟩ "c", by decide +kernel, by decide +kernel⟩
  exact ⟨room, by decide +kernel, noun, reads ⟨4⟩, reads ⟨9⟩⟩

end Graph

end TypedHypergraph
