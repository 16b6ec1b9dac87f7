/-
# The indices as relations

Each index stands for a relation, and each of its operations changes this relation in the obvious
way: the index by type relates types to handles (`TypeBuckets.contains`), the index by digest
relates digests to lists of handles (`DigestBuckets.candidates`), and the incidence relates links
to their members (`Incidence.Lists`).  What is read from an index comes in ascending order.

The first two indices never keep an empty bucket (`TypeBuckets.Tight`, `DigestBuckets.Tight`); the
third one keeps an empty entry, since there a missing entry means an unknown handle.
-/
import Mathlib.Tactic
import TypedHypergraph.Index.DigestBuckets
import TypedHypergraph.Index.Incidence
import TypedHypergraph.Index.TypeBuckets
import TypedHypergraph.Proofs.Ascending

namespace TypedHypergraph

/-! ## By type -/

namespace TypeBuckets

/-- No bucket is empty. -/
def Tight (b : TypeBuckets) : Prop := ∀ type : TypeId, b.bucket? type ≠ some []

/-- The empty index by type has no empty bucket. -/
theorem tight_empty : empty.Tight := by
  intro type
  simp [empty, bucket?]

/-- The empty index by type holds nothing. -/
theorem not_contains_empty (type : TypeId) (h : Handle) : ¬ empty.contains type h := by
  simp [empty, contains]

/-- The members of a bucket are the handles that it contains. -/
theorem mem_bucket (b : TypeBuckets) (type : TypeId) (h : Handle) :
    h ∈ (b.bucket? type).getD [] ↔ b.contains type h := by
  rw [bucket?, contains]
  cases b.buckets[type]? with
  | none => simp
  | some s => simp [Std.TreeSet.mem_toList]

/-- The bucket of a type is ascending. -/
theorem ascending_bucket (b : TypeBuckets) (type : TypeId) :
    ((b.bucket? type).getD []).Pairwise (· < ·) := by
  rw [bucket?]
  cases b.buckets[type]? with
  | none => exact List.Pairwise.nil
  | some s => exact ascending_toList s

/-- A bucket is counted by its members. -/
theorem count_eq_length (b : TypeBuckets) (type : TypeId) :
    b.count type = ((b.bucket? type).getD []).length := by
  rw [count, bucket?]
  cases b.buckets[type]? with
  | none => rfl
  | some s => simp [Std.TreeSet.length_toList]

/-- The buckets are listed by their types, ascending. -/
theorem mem_toList {b : TypeBuckets} {type : TypeId} {handles : List Handle} :
    (type, handles) ∈ b.toList ↔ b.bucket? type = some handles := by
  rw [toList, List.mem_map, bucket?, Option.map_eq_some_iff]
  constructor
  · rintro ⟨⟨type', s⟩, hs, heq⟩
    cases heq
    exact ⟨s, Std.TreeMap.mem_toList_iff_getElem?_eq_some.mp hs, rfl⟩
  · rintro ⟨s, hs, rfl⟩
    exact ⟨(type, s), Std.TreeMap.mem_toList_iff_getElem?_eq_some.mpr hs, rfl⟩

/-- The types of an index are listed in ascending order. -/
theorem ascending_types (b : TypeBuckets) : (b.toList.map (·.1)).Pairwise (· < ·) := by
  have keys : b.toList.map (·.1) = b.buckets.keys := by
    rw [toList, List.map_map, ← Std.TreeMap.map_fst_toList_eq_keys]
    rfl
  rw [keys]
  exact b.buckets.ordered_keys.imp TypeId.compare_eq_lt_iff.mp

/-- Putting an atom under its type changes the bucket of this type only. -/
theorem getElem?_insert (b : TypeBuckets) (type type' : TypeId) (h : Handle) :
    (b.insert type h).buckets[type']?
      = if type = type' then some ((b.buckets[type]?.getD ∅).insert h) else b.buckets[type']? := by
  rw [insert, Std.TreeMap.getElem?_alter]
  simp only [Std.compare_eq_iff_eq]

/-- Taking an atom from its type changes the bucket of this type only, which goes when it is empty.
-/
theorem getElem?_erase (b : TypeBuckets) (type type' : TypeId) (h : Handle) :
    (b.erase type h).buckets[type']?
      = if type = type' then
          b.buckets[type]?.bind fun s => if (s.erase h).isEmpty then none else some (s.erase h)
        else b.buckets[type']? := by
  rw [erase, Std.TreeMap.getElem?_alter]
  simp only [Std.compare_eq_iff_eq]

/-- After an atom was put under its type, it stands there and all else stands where it stood. -/
theorem contains_insert (b : TypeBuckets) (type type' : TypeId) (h h' : Handle) :
    (b.insert type h).contains type' h' ↔ type = type' ∧ h = h' ∨ b.contains type' h' := by
  rw [contains, getElem?_insert, contains]
  by_cases ht : type = type'
  · subst ht
    cases b.buckets[type]? <;> simp
  · simp [ht]

/-- After an atom was taken from its type, all else stands where it stood. -/
theorem contains_erase (b : TypeBuckets) (type type' : TypeId) (h h' : Handle) :
    (b.erase type h).contains type' h' ↔ b.contains type' h' ∧ ¬ (type = type' ∧ h = h') := by
  rw [contains, getElem?_erase, contains]
  by_cases ht : type = type'
  · subst ht
    rw [if_pos rfl]
    cases b.buckets[type]? with
    | none => simp
    | some s =>
      have left : (s.erase h).contains h' ↔ s.contains h' ∧ ¬ h = h' := by
        simp [and_comm]
      by_cases he : (s.erase h).isEmpty = true
      · -- a bucket that is dropped holds nothing but the handle that is erased
        have hno : (s.erase h).contains h' = false :=
          Std.TreeSet.isEmpty_iff_forall_contains.mp he h'
        simp only [Option.bind_some, if_pos he, true_and, Option.map_some, Option.getD_some,
          ← left, hno]
        simp
      · simp only [Option.bind_some, if_neg he, true_and, Option.map_some, Option.getD_some, left]
  · simp [ht]

/-- Putting an atom under its type leaves no empty bucket. -/
theorem Tight.insert {b : TypeBuckets} (hb : b.Tight) (type : TypeId) (h : Handle) :
    (b.insert type h).Tight := by
  intro type' hnil
  by_cases ht : type = type'
  · have hmem := (contains_insert b type type' h h).mpr (.inl ⟨ht, rfl⟩)
    rw [← mem_bucket, hnil] at hmem
    simp at hmem
  · rw [bucket?, getElem?_insert, if_neg ht] at hnil
    exact hb type' hnil

/-- Taking an atom from its type leaves no empty bucket. -/
theorem Tight.erase {b : TypeBuckets} (hb : b.Tight) (type : TypeId) (h : Handle) :
    (b.erase type h).Tight := by
  intro type' hnil
  rw [bucket?, getElem?_erase] at hnil
  split at hnil
  · obtain ⟨s, hs, hempty⟩ := Option.map_eq_some_iff.mp hnil
    obtain ⟨s', -, hs'⟩ := Option.bind_eq_some_iff.mp hs
    split at hs'
    · cases hs'
    · rename_i he
      cases hs'
      exact he (by rw [← Std.TreeSet.isEmpty_toList, hempty]; rfl)
  · exact hb type' hnil

/-- A union holds what one of its buckets holds. -/
theorem mem_union (b : TypeBuckets) (types : List TypeId) (h : Handle) :
    h ∈ b.union types ↔ ∃ type ∈ types, b.contains type h := by
  have fold : ∀ (types : List TypeId) (acc : Std.TreeSet Handle),
      h ∈ types.foldl (fun acc type => acc.insertMany ((b.bucket? type).getD [])) acc ↔
        h ∈ acc ∨ ∃ type ∈ types, b.contains type h := by
    intro types
    induction types with
    | nil => simp
    | cons type types ih =>
      intro acc
      rw [List.foldl_cons, ih, Std.TreeSet.mem_insertMany_list, List.contains_iff_mem, mem_bucket]
      simp [or_assoc]
  rw [union, Std.TreeSet.mem_toList, fold]
  simp

/-- The union of several buckets is ascending. -/
theorem ascending_union (b : TypeBuckets) (types : List TypeId) :
    (b.union types).Pairwise (· < ·) := ascending_toList _

/-- A union has no more handles than its buckets together. -/
theorem length_union_le (b : TypeBuckets) (types : List TypeId) :
    (b.union types).length ≤ (types.map b.count).sum := by
  have nodup : (b.union types).Nodup := nodup_of_ascending (b.ascending_union types)
  have sub : b.union types ⊆ types.flatMap fun type => (b.bucket? type).getD [] := by
    intro h
    simp only [mem_union, List.mem_flatMap, mem_bucket, imp_self]
  calc (b.union types).length
      ≤ (types.flatMap fun type => (b.bucket? type).getD []).length :=
        (List.subperm_of_subset nodup sub).length_le
    _ = (types.map b.count).sum := by rw [List.length_flatMap, funext b.count_eq_length]

/-- A union is counted bucket by bucket, if no handle is in two of them. -/
theorem length_union {b : TypeBuckets} {types : List TypeId} (distinct : types.Nodup)
    (apart : ∀ (type type' : TypeId) (h : Handle), b.contains type h → b.contains type' h →
      type = type') : (b.union types).length = (types.map b.count).sum := by
  have nodup : (types.flatMap fun type => (b.bucket? type).getD []).Nodup := by
    rw [List.nodup_flatMap]
    refine ⟨fun type _ => nodup_of_ascending (b.ascending_bucket type), distinct.imp ?_⟩
    intro type type' hne h hh hh'
    rw [mem_bucket] at hh hh'
    exact hne (apart type type' h hh hh')
  have perm : (b.union types).Perm (types.flatMap fun type => (b.bucket? type).getD []) := by
    rw [List.perm_ext_iff_of_nodup (nodup_of_ascending (b.ascending_union types)) nodup]
    intro h
    simp only [mem_union, List.mem_flatMap, mem_bucket]
  rw [perm.length_eq, List.length_flatMap, funext b.count_eq_length]

end TypeBuckets

/-! ## By digest -/

namespace DigestBuckets

/-- No bucket is empty. -/
def Tight (b : DigestBuckets) : Prop := ∀ digest : UInt64, b.buckets[digest]? ≠ some []

/-- The empty index by digest has no empty bucket. -/
theorem tight_empty : empty.Tight := by
  intro digest
  simp [empty]

/-- The empty index by digest has no candidates. -/
theorem candidates_empty (digest : UInt64) : empty.candidates digest = [] := by
  simp [empty, candidates]

/-- Putting an atom under its digest changes the bucket of this digest only. -/
theorem getElem?_insert (b : DigestBuckets) (digest digest' : UInt64) (h : Handle) :
    (b.insert digest h).buckets[digest']?
      = if digest = digest' then
          some (if h ∈ b.candidates digest then b.candidates digest
            else b.candidates digest ++ [h])
        else b.buckets[digest']? := by
  rw [insert, Std.TreeMap.getElem?_alter]
  simp only [Std.compare_eq_iff_eq, candidates]
  rfl

/-- Taking an atom from its digest changes the bucket of this digest only, which goes when it is
empty. -/
theorem getElem?_erase (b : DigestBuckets) (digest digest' : UInt64) (h : Handle) :
    (b.erase digest h).buckets[digest']?
      = if digest = digest' then
          b.buckets[digest]?.bind fun handles =>
            if (handles.filter (· ≠ h)).isEmpty then none else some (handles.filter (· ≠ h))
        else b.buckets[digest']? := by
  rw [erase, Std.TreeMap.getElem?_alter]
  simp only [Std.compare_eq_iff_eq]

/-- A handle that is new to its bucket comes last. -/
theorem candidates_insert (b : DigestBuckets) (digest digest' : UInt64) (h : Handle) :
    (b.insert digest h).candidates digest'
      = if digest = digest' then
          if h ∈ b.candidates digest then b.candidates digest else b.candidates digest ++ [h]
        else b.candidates digest' := by
  rw [candidates, getElem?_insert]
  split <;> rfl

/-- After an atom was put under its digest, it is a candidate there, as are all that were. -/
theorem mem_candidates_insert (b : DigestBuckets) (digest digest' : UInt64) (h h' : Handle) :
    h' ∈ (b.insert digest h).candidates digest' ↔
      digest = digest' ∧ h = h' ∨ h' ∈ b.candidates digest' := by
  rw [candidates_insert]
  by_cases hd : digest = digest'
  · subst hd
    by_cases hm : h ∈ b.candidates digest
    · rw [if_pos rfl, if_pos hm]
      refine (or_iff_right_of_imp ?_).symm
      rintro ⟨-, rfl⟩
      exact hm
    · simp [hm, or_comm, eq_comm]
  · simp [hd]

/-- The others keep their order. -/
theorem candidates_erase (b : DigestBuckets) (digest digest' : UInt64) (h : Handle) :
    (b.erase digest h).candidates digest'
      = if digest = digest' then (b.candidates digest).filter (· ≠ h)
        else b.candidates digest' := by
  rw [candidates, getElem?_erase]
  split
  · rw [candidates]
    cases b.buckets[digest]? with
    | none => rfl
    | some handles =>
      rw [Option.bind_some, Option.getD_some]
      split
      · rename_i he
        rw [List.isEmpty_iff.mp he]
        rfl
      · rfl
  · rfl

/-- After an atom was taken from its digest, all else that was a candidate is one. -/
theorem mem_candidates_erase (b : DigestBuckets) (digest digest' : UInt64) (h h' : Handle) :
    h' ∈ (b.erase digest h).candidates digest' ↔
      h' ∈ b.candidates digest' ∧ ¬ (digest = digest' ∧ h = h') := by
  rw [candidates_erase]
  by_cases hd : digest = digest'
  · rw [if_pos hd, hd, List.mem_filter, decide_eq_true_eq, eq_self, true_and, Ne,
      eq_comm (a := h')]
  · simp [hd]

/-- A bucket stays ascending if what is put into it is younger than what is there. -/
theorem ascending_insert {b : DigestBuckets} {digest digest' : UInt64} {h : Handle}
    (ascending : (b.candidates digest').Pairwise (· < ·))
    (younger : ∀ x ∈ b.candidates digest, x < h) :
    ((b.insert digest h).candidates digest').Pairwise (· < ·) := by
  rw [candidates_insert]
  split
  · rename_i hd
    subst hd
    split
    · exact ascending
    · rw [List.pairwise_append]
      refine ⟨ascending, List.pairwise_singleton _ _, ?_⟩
      intro x hx y hy
      rw [List.mem_singleton.mp hy]
      exact younger x hx
  · exact ascending

/-- Candidates that ascend still do after an atom was taken from its digest. -/
theorem ascending_erase {b : DigestBuckets} {digest digest' : UInt64}
    (ascending : (b.candidates digest').Pairwise (· < ·)) (h : Handle) :
    ((b.erase digest h).candidates digest').Pairwise (· < ·) := by
  rw [candidates_erase]
  split
  · rename_i hd
    subst hd
    exact ascending.filter _
  · exact ascending

/-- Putting an atom under its digest leaves no empty bucket. -/
theorem Tight.insert {b : DigestBuckets} (hb : b.Tight) (digest : UInt64) (h : Handle) :
    (b.insert digest h).Tight := by
  intro digest' hnil
  rw [getElem?_insert] at hnil
  split at hnil
  · rw [Option.some.injEq] at hnil
    split at hnil
    · rename_i hmem
      simp [hnil] at hmem
    · simp at hnil
  · exact hb digest' hnil

/-- Taking an atom from its digest leaves no empty bucket. -/
theorem Tight.erase {b : DigestBuckets} (hb : b.Tight) (digest : UInt64) (h : Handle) :
    (b.erase digest h).Tight := by
  intro digest' hnil
  rw [getElem?_erase] at hnil
  split at hnil
  · obtain ⟨handles, -, hrest⟩ := Option.bind_eq_some_iff.mp hnil
    split at hrest
    · cases hrest
    · rename_i he
      rw [Option.some.injEq] at hrest
      exact he (List.isEmpty_iff.mpr hrest)
  · exact hb digest' hnil

/-- All handles with their digests, bucket by bucket. -/
def pairs (b : DigestBuckets) : List (UInt64 × Handle) :=
  b.buckets.toList.flatMap fun (digest, handles) => handles.map (digest, ·)

/-- All handles, bucket by bucket. -/
def all (b : DigestBuckets) : List Handle := b.buckets.toList.flatMap (·.2)

/-- The atoms of all pairs are all atoms. -/
theorem map_snd_pairs (b : DigestBuckets) : b.pairs.map (·.2) = b.all := by
  simp [pairs, all, List.map_flatMap, Function.comp_def]

/-- There are as many atoms in an index by digest as its size says. -/
theorem length_all (b : DigestBuckets) : b.all.length = b.size := by
  have counted : ∀ (buckets : List (UInt64 × List Handle)) (n : Nat),
      buckets.foldl (fun n x => n + x.2.length) n = n + (buckets.flatMap (·.2)).length := by
    intro buckets
    induction buckets with
    | nil => intro n; rfl
    | cons x buckets ih =>
      intro n
      rw [List.foldl_cons, ih, List.flatMap_cons, List.length_append]
      omega
  have total := counted b.buckets.toList 0
  rw [Nat.zero_add] at total
  exact total.symm

/-- There are as many pairs in an index by digest as its size says. -/
theorem length_pairs (b : DigestBuckets) : b.pairs.length = b.size := by
  rw [← length_all, ← map_snd_pairs, List.length_map]

/-- The candidates for a digest are its bucket. -/
theorem candidates_of_mem {b : DigestBuckets} {digest : UInt64} {handles : List Handle}
    (hb : (digest, handles) ∈ b.buckets.toList) : b.candidates digest = handles := by
  rw [candidates, Std.TreeMap.mem_toList_iff_getElem?_eq_some.mp hb, Option.getD_some]

/-- A pair is listed exactly if the atom is a candidate for the digest. -/
theorem mem_pairs (b : DigestBuckets) (digest : UInt64) (h : Handle) :
    (digest, h) ∈ b.pairs ↔ h ∈ b.candidates digest := by
  rw [pairs, List.mem_flatMap]
  constructor
  · rintro ⟨⟨digest', handles⟩, hb, hh⟩
    obtain ⟨h', hh', heq⟩ := List.mem_map.mp hh
    cases heq
    rw [candidates_of_mem hb]
    exact hh'
  · intro hh
    rw [candidates] at hh
    cases hb : b.buckets[digest]? with
    | none => simp [hb] at hh
    | some handles =>
      rw [hb] at hh
      exact ⟨(digest, handles), Std.TreeMap.mem_toList_iff_getElem?_eq_some.mpr hb,
        List.mem_map_of_mem hh⟩

/-- An atom is listed exactly if it is a candidate for some digest. -/
theorem mem_all (b : DigestBuckets) (h : Handle) :
    h ∈ b.all ↔ ∃ digest, h ∈ b.candidates digest := by
  rw [← map_snd_pairs, List.mem_map]
  simp only [Prod.exists, mem_pairs, exists_eq_right]

/-- If no bucket holds a handle twice, there is no pair twice. -/
theorem nodup_pairs {b : DigestBuckets} (nodup : ∀ digest, (b.candidates digest).Nodup) :
    b.pairs.Nodup := by
  rw [pairs, List.nodup_flatMap]
  constructor
  · rintro ⟨digest, handles⟩ hb
    rw [← candidates_of_mem hb]
    exact (nodup digest).map (Prod.mk_right_injective digest)
  · refine b.buckets.distinct_keys_toList.imp ?_
    rintro ⟨digest, handles⟩ ⟨digest', handles'⟩ hne ⟨d, h⟩ hh hh'
    obtain ⟨_, _, heq⟩ := List.mem_map.mp hh
    obtain ⟨_, _, heq'⟩ := List.mem_map.mp hh'
    cases heq
    cases heq'
    exact hne (Std.compare_eq_iff_eq.mpr rfl)

/-- If buckets hold nothing twice and share nothing, no handle is counted twice. -/
theorem nodup_all {b : DigestBuckets} (nodup : ∀ digest, (b.candidates digest).Nodup)
    (apart : ∀ (digest digest' : UInt64) (h : Handle), h ∈ b.candidates digest →
      h ∈ b.candidates digest' → digest = digest') : b.all.Nodup := by
  rw [← map_snd_pairs]
  refine (nodup_pairs nodup).map_on ?_
  rintro ⟨digest, h⟩ hh ⟨digest', h'⟩ hh' heq
  cases heq
  rw [mem_pairs] at hh hh'
  rw [apart digest digest' h hh hh']

end DigestBuckets

/-! ## Incidence -/

namespace Incidence

/-- A link is recorded in the entry of a member. -/
def Lists (i : Incidence) (link member : Handle) : Prop := link ∈ (i.get? member).getD []

/-- An index by member knows of an atom exactly if it has a list for it. -/
theorem contains_iff_get? (i : Incidence) (h : Handle) :
    i.contains h ↔ ∃ links, i.get? h = some links := by
  rw [contains, Std.TreeMap.contains_eq_isSome_getElem?, get?]
  cases i.links[h]? <;> simp

/-- The links over an atom are listed in ascending order. -/
theorem ascending_get? {i : Incidence} {h : Handle} {links : List Handle}
    (hl : i.get? h = some links) : links.Pairwise (· < ·) := by
  obtain ⟨s, -, rfl⟩ := Option.map_eq_some_iff.mp hl
  exact ascending_toList s

/-- The members of an entry, be there one or not. -/
theorem ascending_entry (i : Incidence) (h : Handle) :
    ((i.get? h).getD []).Pairwise (· < ·) := by
  cases hl : i.get? h with
  | none => exact List.Pairwise.nil
  | some links => exact ascending_get? hl

/-- The number of links over an atom is the length of their list. -/
theorem degree_eq (i : Incidence) (h : Handle) :
    i.degree h = ((i.get? h).getD []).length := by
  rw [degree, get?]
  cases i.links[h]? with
  | none => rfl
  | some s => simp [Std.TreeSet.length_toList]

/-- The degree of an atom is the number of links over it. -/
theorem degree_eq_length {i : Incidence} {h : Handle} {links : List Handle}
    (hl : i.get? h = some links) : i.degree h = links.length := by
  rw [degree_eq, hl, Option.getD_some]

/-- The entries are listed by their handles, ascending. -/
theorem mem_toList {i : Incidence} {h : Handle} {links : List Handle} :
    (h, links) ∈ i.toList ↔ i.get? h = some links := by
  rw [toList, List.mem_map, get?, Option.map_eq_some_iff]
  constructor
  · rintro ⟨⟨h', s⟩, hs, heq⟩
    cases heq
    exact ⟨s, Std.TreeMap.mem_toList_iff_getElem?_eq_some.mp hs, rfl⟩
  · rintro ⟨s, hs, rfl⟩
    exact ⟨(h, s), Std.TreeMap.mem_toList_iff_getElem?_eq_some.mpr hs, rfl⟩

/-- The entries of an index by member are listed under its keys. -/
theorem map_fst_toList (i : Incidence) : i.toList.map (·.1) = i.links.keys := by
  rw [toList, List.map_map, ← Std.TreeMap.map_fst_toList_eq_keys]
  rfl

/-- The empty index by member knows of nothing. -/
theorem not_contains_empty (h : Handle) : ¬ empty.contains h := by
  simp [empty, contains]

/-- The empty index by member lists nothing. -/
theorem not_lists_empty (link member : Handle) : ¬ empty.Lists link member := by
  simp [empty, Lists, get?]

/-- A link is listed under a member exactly if it is in the set of the member. -/
theorem lists_iff (i : Incidence) (link member : Handle) :
    i.Lists link member ↔ ∃ s, i.links[member]? = some s ∧ link ∈ s := by
  rw [Lists, get?]
  cases i.links[member]? with
  | none => simp
  | some s => simp [Std.TreeSet.mem_toList]

/-- Registering an atom makes it known, and no other. -/
theorem contains_register (i : Incidence) (h h' : Handle) :
    (i.register h).contains h' ↔ h = h' ∨ i.contains h' := by
  simp only [contains, register, Std.TreeMap.contains_eq_isSome_getElem?,
    Std.TreeMap.getElem?_alter, Std.compare_eq_iff_eq]
  split <;> simp [*]

/-- Registering an atom does not touch the links. -/
theorem lists_register (i : Incidence) (h link member : Handle) :
    (i.register h).Lists link member ↔ i.Lists link member := by
  rw [lists_iff, lists_iff, register]
  simp only [Std.TreeMap.getElem?_alter, Std.compare_eq_iff_eq]
  split
  · rename_i hm
    subst hm
    cases i.links[h]? <;> simp
  · rfl

/-- Unregistering an atom makes it unknown, and no other. -/
theorem contains_unregister (i : Incidence) (h h' : Handle) :
    (i.unregister h).contains h' ↔ i.contains h' ∧ ¬ h = h' := by
  simp only [contains, unregister, Std.TreeMap.contains_eq_isSome_getElem?,
    Std.TreeMap.getElem?_erase, Std.compare_eq_iff_eq]
  split <;> simp [*]

/-- Unregistering an atom takes the links over it out, and no others. -/
theorem lists_unregister (i : Incidence) (h link member : Handle) :
    (i.unregister h).Lists link member ↔ i.Lists link member ∧ ¬ h = member := by
  rw [lists_iff, lists_iff, unregister]
  simp only [Std.TreeMap.getElem?_erase, Std.compare_eq_iff_eq]
  split <;> simp [*]

/-- Attaching a link to a member makes the member known. -/
theorem contains_attach (i : Incidence) (link member h : Handle) :
    (i.attach link member).contains h ↔ member = h ∨ i.contains h := by
  simp only [contains, attach, Std.TreeMap.contains_eq_isSome_getElem?,
    Std.TreeMap.getElem?_alter, Std.compare_eq_iff_eq]
  split <;> simp [*]

/-- Attaching a link to a member lists it there, and changes nothing else. -/
theorem lists_attach (i : Incidence) (link member link' member' : Handle) :
    (i.attach link member).Lists link' member' ↔
      link = link' ∧ member = member' ∨ i.Lists link' member' := by
  rw [lists_iff, lists_iff, attach]
  simp only [Std.TreeMap.getElem?_alter, Std.compare_eq_iff_eq]
  by_cases hm : member = member'
  · subst hm
    cases i.links[member]? <;> simp [Std.TreeSet.mem_insert]
  · simp [hm]

/-- Detaching a link from a member does not make the member unknown. -/
theorem contains_detach (i : Incidence) (link member h : Handle) :
    (i.detach link member).contains h ↔ i.contains h := by
  simp only [contains, detach, Std.TreeMap.contains_eq_isSome_getElem?,
    Std.TreeMap.getElem?_modify, Std.compare_eq_iff_eq]
  split
  · rename_i hm
    subst hm
    cases i.links[member]? <;> simp
  · rfl

/-- Detaching a link from a member takes it from there, and changes nothing else. -/
theorem lists_detach (i : Incidence) (link member link' member' : Handle) :
    (i.detach link member).Lists link' member' ↔
      i.Lists link' member' ∧ ¬ (link = link' ∧ member = member') := by
  rw [lists_iff, lists_iff, detach]
  simp only [Std.TreeMap.getElem?_modify, Std.compare_eq_iff_eq]
  by_cases hm : member = member'
  · subst hm
    cases i.links[member]? <;> simp [Std.TreeSet.mem_erase, and_comm]
  · simp [hm]

/-! ### Links with all their members -/

/-- Adding a link makes its members known. -/
theorem contains_addLink (i : Incidence) (link : Handle) (members : List Handle) (h : Handle) :
    (i.addLink link members).contains h ↔ h ∈ members ∨ i.contains h := by
  rw [addLink]
  induction members generalizing i with
  | nil => simp
  | cons member members ih =>
    rw [List.foldl_cons, ih, contains_attach, List.mem_cons, eq_comm]
    tauto

/-- Members may be named more than once. -/
theorem lists_addLink (i : Incidence) (link : Handle) (members : List Handle)
    (link' member' : Handle) :
    (i.addLink link members).Lists link' member' ↔
      link = link' ∧ member' ∈ members ∨ i.Lists link' member' := by
  rw [addLink]
  induction members generalizing i with
  | nil => simp
  | cons member members ih =>
    rw [List.foldl_cons, ih, lists_attach, List.mem_cons, eq_comm (a := member)]
    tauto

/-- Removing a link does not make its members unknown. -/
theorem contains_removeLink (i : Incidence) (link : Handle) (members : List Handle)
    (h : Handle) : (i.removeLink link members).contains h ↔ i.contains h := by
  rw [removeLink]
  induction members generalizing i with
  | nil => rfl
  | cons member members ih => rw [List.foldl_cons, ih, contains_detach]

/-- Removing a link takes it from each of its members, and changes nothing else. -/
theorem lists_removeLink (i : Incidence) (link : Handle) (members : List Handle)
    (link' member' : Handle) :
    (i.removeLink link members).Lists link' member' ↔
      i.Lists link' member' ∧ ¬ (link = link' ∧ member' ∈ members) := by
  rw [removeLink]
  induction members generalizing i with
  | nil => simp
  | cons member members ih =>
    rw [List.foldl_cons, ih, lists_detach, List.mem_cons, eq_comm (a := member)]
    tauto

end Incidence

end TypedHypergraph
