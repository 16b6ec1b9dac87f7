/-
# The census counts the graph

A census is taken in one pass over the atoms, adding each of them to the counts of those that came
before.  Its counts are those of the atoms passed (`Census.Tallies`), and so at the end they are
what separate scans of the graph find (`Graph.CountedBy`).

The table of types is kept by their names, while atoms have types and the index by type counts by
identifiers.  As stored atoms have declared types, and no two types have the same name, the table
says the same as a scan for each type, and as the index.
-/
import TypedHypergraph.Graph.Census
import TypedHypergraph.Proofs.TypeReads
import TypedHypergraph.Proofs.Typing

namespace TypedHypergraph

/-! ## One pass -/

namespace Census

/-- The counts are those of some atoms, each with the name of its type. -/
structure Tallies (c : Census) (seen : List (String × Record)) : Prop where
  atoms : c.atoms = seen.length
  nodes : c.nodes = seen.countP fun x => x.2.content.isNode
  links : c.links = seen.countP fun x => x.2.content.isLink
  known : c.known = seen.countP fun x => x.2.truth.isSome
  maxArity : IsGreatest {n | n = 0 ∨ ∃ x ∈ seen, x.2.content.members.length = n} c.maxArity
  /-- Only names that were seen are listed. -/
  perType : ∀ name : String, c.perType[name]? =
    if name ∈ seen.map (·.1) then some ((seen.map (·.1)).count name) else none

variable {c : Census} {seen : List (String × Record)}

/-- At the start of the count nothing has been tallied. -/
theorem tallies_start (types : Nat) : (start types).Tallies [] where
  atoms := rfl
  nodes := rfl
  links := rfl
  known := rfl
  maxArity := by simp [start]
  perType name := by simp [start]

/-- **One more atom** changes the counts by that atom. -/
theorem Tallies.count (h : c.Tallies seen) (typeName : String) (record : Record) :
    (c.count typeName record).Tallies (seen ++ [(typeName, record)]) where
  atoms := by rw [List.length_append, ← h.atoms]; rfl
  nodes := by
    rw [List.countP_append, ← h.nodes, List.countP_singleton]
    cases hc : record.content <;> simp [Census.count, hc, Content.isLink, Content.isNode]
  links := by
    rw [List.countP_append, ← h.links, List.countP_singleton]
    cases hc : record.content <;> simp [Census.count, hc, Content.isLink]
  known := by
    rw [List.countP_append, ← h.known, List.countP_singleton]
    cases ht : record.truth <;> simp [Census.count, ht]
  maxArity := by
    have lengths : {n | n = 0 ∨ ∃ x ∈ seen ++ [(typeName, record)], x.2.content.members.length = n}
        = insert record.content.members.length
          {n | n = 0 ∨ ∃ x ∈ seen, x.2.content.members.length = n} := by
      ext n
      simp only [Set.mem_insert_iff, Set.mem_ofPred_eq, List.mem_append, List.mem_singleton,
        or_and_right, exists_or, exists_eq_left, eq_comm (b := record.content.members.length)]
      rw [← or_assoc, or_comm]
    rw [lengths, Census.count, max_comm]
    exact h.maxArity.insert _
  perType name := by
    rw [Census.count, Std.TreeMap.getElem?_alter, h.perType typeName, h.perType name]
    simp only [Std.compare_eq_iff_eq, List.map_append, List.map_cons, List.map_nil, List.mem_append,
      List.mem_singleton, List.count_append, List.count_singleton]
    by_cases same : typeName = name
    · subst same
      by_cases old : typeName ∈ seen.map (·.1)
      · simp [old]
      · simp [old, List.count_eq_zero_of_not_mem old]
    · have other : ¬ name = typeName := fun h => same h.symm
      by_cases old : name ∈ seen.map (·.1) <;> simp [old, same, other]

/-- **A pass** over some atoms adds them to those that came before. -/
theorem Tallies.foldl (h : c.Tallies seen) (atoms : List (String × Record)) :
    (atoms.foldl (fun c x => c.count x.1 x.2) c).Tallies (seen ++ atoms) := by
  induction atoms generalizing c seen with
  | nil => rwa [List.append_nil]
  | cons x atoms ih =>
    have more := ih (h.count x.1 x.2)
    rwa [List.append_assoc] at more

/-- Counting atoms does not change how many types there are. -/
theorem types_foldl (atoms : List (String × Record)) (c : Census) :
    (atoms.foldl (fun c x => c.count x.1 x.2) c).types = c.types := by
  induction atoms generalizing c with
  | nil => rfl
  | cons x atoms ih => exact ih (c.count x.1 x.2)

/-- A table that counts how often each of some names occurs counts them all. -/
theorem sum_of_counts {table : Std.TreeMap String Nat} {names : List String}
    (counts : ∀ name, table[name]? = if name ∈ names then some (names.count name) else none) :
    (table.toList.map (·.2)).sum = names.length := by
  have entries : table.toList.map (·.2) = table.keys.map (names.count ·) := by
    rw [← Std.TreeMap.map_fst_toList_eq_keys, List.map_map]
    apply List.map_congr_left
    rintro ⟨name, n⟩ listed
    rw [Std.TreeMap.mem_toList_iff_getElem?_eq_some, counts] at listed
    split at listed
    · exact (Option.some.inj listed).symm
    · cases listed
  have keys : table.keys.Perm names.dedup := by
    rw [List.perm_ext_iff_of_nodup Std.TreeMap.nodup_keys names.nodup_dedup]
    intro name
    rw [Std.TreeMap.mem_keys, Std.TreeMap.mem_iff_isSome_getElem?, counts, List.mem_dedup]
    split <;> simp [*]
  rw [entries, (keys.map _).sum_eq, List.sum_map_count_dedup_eq_length]

end Census

/-! ## Counting a graph -/

namespace Graph

variable {digest : Content → UInt64} {g : Graph digest}

/-- The atoms of a graph, each with the name of its type, as the census meets them. -/
def named (g : Graph digest) : List (String × Record) :=
  g.records.map fun (_, record) => ((g.types.name? record.content.type).getD "?", record)

/-- What is counted of the records under the handles can be counted by a scan of the handles. -/
theorem countP_records (test : Record → Bool) :
    g.records.countP (fun x => test x.2) = g.handles.countP fun h => (g.atoms[h]?).any test := by
  rw [handles, ← Std.TreeMap.map_fst_toList_eq_keys, List.countP_map]
  apply List.countP_congr
  rintro ⟨h, record⟩ listed
  rw [records, Std.TreeMap.mem_toList_iff_getElem?_eq_some] at listed
  rw [Function.comp_apply, listed, Option.any_some]

/-- As many records as atoms have a content that passes a test. -/
theorem countP_content (test : Content → Bool) :
    g.records.countP (fun x => test x.2.content) = (g.scan test).length := by
  rw [countP_records fun record => test record.content, scan, List.countP_eq_length_filter]
  simp only [content?, Option.any_map]

/-- As many records as atoms have a known truth value. -/
theorem countP_truth :
    g.records.countP (fun x => x.2.truth.isSome)
      = (g.handles.filter fun h => (g.truth? h).isSome).length := by
  rw [countP_records fun record => record.truth.isSome, List.countP_eq_length_filter]
  simp only [truth?, Option.isSome_bind]

/-- A record has a content with a property exactly if an atom has. -/
theorem exists_record_iff {P : Content → Prop} :
    (∃ x ∈ g.records, P x.2.content) ↔ ∃ h c, g.content? h = some c ∧ P c := by
  constructor
  · rintro ⟨⟨h, record⟩, listed, hp⟩
    exact ⟨h, record.content, content?_of_mem_records listed, hp⟩
  · rintro ⟨h, c, hc, hp⟩
    obtain ⟨record, hr, rfl⟩ := Option.map_eq_some_iff.mp hc
    exact ⟨(h, record), Std.TreeMap.mem_toList_iff_getElem?_eq_some.mpr hr, hp⟩

/-- The name that the census reads is that of the type of a stored atom. -/
theorem WellTyped.getD_name?_iff (typed : g.WellTyped) {h : Handle} {c : Content}
    (hc : g.content? h = some c) {name : String} :
    (g.types.name? c.type).getD "?" = name ↔ g.types.name? c.type = some name := by
  obtain ⟨n, hn⟩ := (g.types.contains_iff_name? c.type).mp (typed.declared h c hc)
  rw [hn, Option.getD_some, Option.some.injEq]

/-- The atoms with the name of a type are the atoms of this type. -/
theorem WellTyped.count_named (typed : g.WellTyped) (ht : g.types.WellFormed) {type : TypeId}
    {name : String} (hn : g.types.name? type = some name) :
    (g.named.map (·.1)).count name = (g.scan fun c => c.type = type).length := by
  rw [← countP_content, named, List.map_map, List.count, List.countP_map]
  apply List.countP_congr
  rintro ⟨h, record⟩ listed
  have stored := content?_of_mem_records listed
  rw [Function.comp_apply, Function.comp_apply, beq_iff_eq, typed.getD_name?_iff stored,
    decide_eq_true_eq, ← ht.get?_iff, (ht.get?_iff name type).mpr hn, Option.some.injEq, eq_comm]

/-- The names of types that are counted are those of the types that have atoms. -/
theorem WellTyped.mem_named_iff (typed : g.WellTyped) {name : String} :
    name ∈ g.named.map (·.1) ↔
      ∃ h c, g.content? h = some c ∧ g.types.name? c.type = some name := by
  have shown : name ∈ g.named.map (·.1) ↔
      ∃ x ∈ g.records, (g.types.name? x.2.content.type).getD "?" = name := by
    rw [named, List.map_map, List.mem_map]
    rfl
  rw [shown, exists_record_iff (P := fun c => (g.types.name? c.type).getD "?" = name)]
  exact exists_congr fun h => exists_congr fun c => and_congr_right fun hc =>
    typed.getD_name?_iff hc

/-- A scan for a type finds what the index by type lists. -/
theorem Coherent.length_scan_type (hg : g.Coherent) (type : TypeId) :
    (g.scan fun c => c.type = type).length = g.countOfType type := by
  have same : (g.scan fun c => c.type = type) = g.handlesOfType type false := by
    apply ascending_ext (ascending_scan _) (ascending_handlesOfType type false)
    intro h
    rw [mem_scan, hg.mem_handlesOfType_exact_iff]
    simp only [decide_eq_true_eq]
  rw [same, countOfType_eq]

/-- An atom is either a node or a link. -/
theorem length_scan_nodes_add_links :
    (g.scan Content.isNode).length + (g.scan Content.isLink).length = g.handles.length := by
  rw [← countP_content, ← countP_content, handles, ← Std.TreeMap.map_fst_toList_eq_keys,
    List.length_map, List.length_eq_countP_add_countP fun x => x.2.content.isNode]
  congr 2
  funext x
  cases x.2.content <;> rfl

/-- What a census says of a graph. -/
structure CountedBy (g : Graph digest) (c : Census) : Prop where
  types : c.types = g.types.size
  atoms : c.atoms = g.handles.length
  nodes : c.nodes = (g.scan Content.isNode).length
  links : c.links = (g.scan Content.isLink).length
  atoms_eq : c.atoms = c.nodes + c.links
  /-- The types with atoms are listed by name, and no others, -/
  listed : ∀ name : String, (∃ n, c.perType[name]? = some n) ↔
    ∃ h content, g.content? h = some content ∧ g.types.name? content.type = some name
  /-- each with the number of its atoms, -/
  perType : ∀ (type : TypeId) (name : String), g.types.name? type = some name →
    (c.perType[name]?).getD 0 = (g.scan fun content => content.type = type).length
  /-- which is the number that the index by type has of them, given `HandlesLeft`. -/
  indexed : g.HandlesLeft → ∀ (type : TypeId) (name : String),
    g.types.name? type = some name → (c.perType[name]?).getD 0 = g.countOfType type
  sum : (c.perType.toList.map (·.2)).sum = c.atoms
  known : c.known = (g.handles.filter fun h => (g.truth? h).isSome).length
  maxArity : IsGreatest {n | n = 0 ∨ ∃ h type members,
    g.content? h = some (.link type members) ∧ members.length = n} c.maxArity
  maxArity_le : c.maxArity ≤ 1024
  /-- As long as the product can be written, it is not cut off. -/
  density : c.links * 1000000 < 2 ^ 64 → c.density = c.links * 1000000 / c.atoms
  density_le : c.density ≤ 1000000
  density_of_empty : c.atoms = 0 → c.density = 0

end Graph

namespace Census

/-- Where nothing overflows, the share in a million is the quotient rounded down. -/
theorem perMillion_eq {links atoms : Nat} (small : links * 1000000 < 2 ^ 64) :
    perMillion links atoms = links * 1000000 / atoms := by
  have writable : links * 1000000 ≤ Limits.lastCount := by
    rw [Limits.lastCount, UInt64.size]
    omega
  rw [perMillion, min_eq_left writable]
  split
  · rename_i none
    rw [none, Nat.div_zero]
  · rfl

/-- A part is at most a million in a million. -/
theorem perMillion_le {links atoms : Nat} (few : links ≤ atoms) :
    perMillion links atoms ≤ 1000000 := by
  rw [perMillion]
  split
  · exact Nat.zero_le _
  · apply Nat.div_le_of_le_mul
    calc min (links * 1000000) Limits.lastCount
      _ ≤ links * 1000000 := min_le_left _ _
      _ ≤ atoms * 1000000 := Nat.mul_le_mul_right _ few

end Census

namespace Graph

variable {digest : Content → UInt64} {g : Graph digest}

/-- The longest of the stored links has the most members of all atoms, as nodes have none. -/
theorem arities_eq :
    {n | n = 0 ∨ ∃ x ∈ g.named, x.2.content.members.length = n}
      = {n | n = 0 ∨ ∃ h type members,
          g.content? h = some (.link type members) ∧ members.length = n} := by
  ext n
  have shown : (∃ x ∈ g.named, x.2.content.members.length = n) ↔
      ∃ h c, g.content? h = some c ∧ c.members.length = n := by
    rw [← exists_record_iff (P := fun c => c.members.length = n), named]
    simp only [List.mem_map, exists_exists_and_eq_and]
  rw [Set.mem_ofPred_eq, Set.mem_ofPred_eq, shown]
  constructor
  · rintro (rfl | ⟨h, c, hc, rfl⟩)
    · exact .inl rfl
    · cases c with
      | node type name => exact .inl rfl
      | link type members => exact .inr ⟨h, type, members, hc, rfl⟩
  · rintro (rfl | ⟨h, type, members, hc, rfl⟩)
    · exact .inl rfl
    · exact .inr ⟨h, _, hc, rfl⟩

/-- Each atom is counted under one name of a type. -/
theorem length_named : g.named.length = g.handles.length := by
  rw [named, List.length_map, handles, ← Std.TreeMap.map_fst_toList_eq_keys, List.length_map,
    records]

/-- The census is the pass over all atoms, and then the density. -/
theorem ofGraph_eq (g : Graph digest) : ∃ counted : Census, counted.Tallies g.named ∧
    counted.types = g.types.size ∧
    Census.ofGraph g = { counted with
      density := Census.perMillion counted.links counted.atoms } := by
  refine ⟨_, (Census.tallies_start g.types.size).foldl g.named, Census.types_foldl g.named _, ?_⟩
  rw [Census.ofGraph, named, List.foldl_map]

/-- **The census of every reachable graph** recounts it. -/
theorem Reachable.countedBy_census (hg : g.Reachable) : g.CountedBy (.ofGraph g) := by
  have typed := hg.accepting.wellTyped hg.typesMakeSense
  have ht := hg.typesMakeSense.wellFormed
  -- one pass over the records has made all counts; each is compared with a scan of its own
  obtain ⟨counted, tallied, types, passed⟩ := g.ofGraph_eq
  have atoms : counted.atoms = g.handles.length := by rw [tallied.atoms, length_named]
  have nodes : counted.nodes = (g.scan Content.isNode).length := by
    rw [tallied.nodes, named, List.countP_map]
    exact countP_content Content.isNode
  have links : counted.links = (g.scan Content.isLink).length := by
    rw [tallied.links, named, List.countP_map]
    exact countP_content Content.isLink
  have atoms_eq : counted.atoms = counted.nodes + counted.links := by
    rw [atoms, nodes, links, length_scan_nodes_add_links]
  have perType : ∀ (type : TypeId) (name : String), g.types.name? type = some name →
      (counted.perType[name]?).getD 0 = (g.scan fun content => content.type = type).length := by
    intro type name hn
    rw [tallied.perType, ← typed.count_named ht hn]
    split
    · rfl
    · rename_i absent
      exact (List.count_eq_zero_of_not_mem absent).symm
  have maxArity := tallied.maxArity
  rw [arities_eq] at maxArity
  rw [passed]
  exact {
    types := types
    atoms := atoms
    nodes := nodes
    links := links
    atoms_eq := atoms_eq
    listed := by
      intro name
      rw [← typed.mem_named_iff, tallied.perType]
      split <;> simp [*]
    perType := perType
    indexed := by
      intro room type name hn
      rw [← (hg.coherent room).length_scan_type, ← perType type name hn]
    sum := by
      rw [tallied.atoms, ← List.length_map (·.1)]
      exact Census.sum_of_counts tallied.perType
    known := by
      rw [tallied.known, named, List.countP_map]
      exact countP_truth
    maxArity := maxArity
    maxArity_le := by
      rcases maxArity.1 with none | ⟨h, type, members, hc, length⟩
      · rw [none]
        exact Nat.zero_le _
      · rw [← length]
        exact (typed.link h type members hc).1
    density := Census.perMillion_eq
    density_le := Census.perMillion_le (by omega)
    density_of_empty := by
      intro none
      exact if_pos none }

/-- Nodes of two types and links, one of them over another one and with a member twice, after a
removal; the truth values of two atoms are known, and one was forgotten. -/
theorem countedBy_census_of_links :
    let g := (empty : Graph fun _ => 0).run
      [.declareType "Word" (some "Node"), .declareType "Pair" (some "Link"), .addNode "Word" "a",
        .addNode "Word" "b", .addNode "Node" "a", .addLink "Pair" [⟨0⟩, ⟨1⟩, ⟨0⟩],
        .addLink "Link" [⟨3⟩], .remove ⟨2⟩, .revise ⟨0⟩ ⟨1, 1⟩, .revise ⟨1⟩ ⟨0, 1⟩,
        .revise ⟨4⟩ ⟨1, 0⟩, .replace ⟨1⟩ none]
    let c := Census.ofGraph g
    g.HandlesLeft ∧ g.CountedBy c ∧ c.atoms = 4 ∧ c.nodes = 2 ∧ c.links = 2 ∧
      c.known = 2 ∧ c.maxArity = 3 ∧ c.density = 500000 ∧
      c.perType.toList = [("Link", 1), ("Pair", 1), ("Word", 2)] :=
  ⟨by decide +kernel, Reachable.countedBy_census ⟨_, rfl⟩, by decide +kernel⟩

end Graph

end TypedHypergraph
