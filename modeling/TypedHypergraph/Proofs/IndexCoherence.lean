/-
# The indices can be recomputed

A graph is *indexed* if its three indices are what a scan of its atoms would make of them
(`Graph.Indexed`): no atom is missing from an index, none is left over after a removal, and no
empty bucket is kept.  Every reachable graph is indexed, and so the audit finds nothing in it.

The scan hands out handles in ascending order, as the indices do; this is why they can be equal as
lists and not only as sets.
-/
import TypedHypergraph.Graph.Audit
import TypedHypergraph.Proofs.Coherence

namespace TypedHypergraph

namespace Graph

variable {digest : Content → UInt64} {g : Graph digest}

/-! ## Scanning -/

/-- The handles of the atoms whose content passes a test, ascending. -/
def scan (g : Graph digest) (test : Content → Bool) : List Handle :=
  g.handles.filter fun h => (g.content? h).any test

/-- The handles of a graph are those of its atoms. -/
theorem mem_handles {h : Handle} : h ∈ g.handles ↔ g.contains h := by
  rw [handles, Std.TreeMap.mem_keys, contains, Std.TreeMap.mem_iff_contains]

/-- The handles of a graph are listed in ascending order. -/
theorem ascending_handles : g.handles.Pairwise (· < ·) := ascending_keys g.atoms

/-- A graph lists as many handles as it has atoms. -/
theorem length_handles (g : Graph digest) : g.handles.length = g.size :=
  Std.TreeMap.length_keys

/-- A scan finds exactly the atoms that pass its test. -/
theorem mem_scan {test : Content → Bool} {h : Handle} :
    h ∈ g.scan test ↔ ∃ c, g.content? h = some c ∧ test c := by
  rw [scan, List.mem_filter, mem_handles, contains_iff]
  constructor
  · rintro ⟨⟨c, hc⟩, htest⟩
    rw [hc] at htest
    exact ⟨c, hc, htest⟩
  · rintro ⟨c, hc, htest⟩
    rw [hc]
    exact ⟨⟨c, rfl⟩, htest⟩

/-- A scan finds atoms in ascending order. -/
theorem ascending_scan (test : Content → Bool) : (g.scan test).Pairwise (· < ·) :=
  ascending_handles.filter _

/-! ## What the indices should be -/

/-- The bucket that holds some handles.  There is none if there is nothing to hold. -/
def bucketOf : List Handle → Option (List Handle)
  | [] => none
  | h :: rest => some (h :: rest)

/-- The indices of a graph are those that a scan of its atoms makes. -/
structure Indexed (g : Graph digest) : Prop where
  byType : ∀ type : TypeId,
    g.byType.bucket? type = bucketOf (g.scan fun c => c.type = type)
  byDigest : ∀ d : UInt64,
    g.byDigest.buckets[d]? = bucketOf (g.scan fun c => digest c = d)
  once : g.byDigest.all.Perm g.handles
  incidence : ∀ h : Handle, g.incidence.get? h =
    if g.contains h then some (g.scan fun c => h ∈ c.members) else none

/-- A bucket that is not empty is made from its handles. -/
theorem eq_bucketOf {bucket : Option (List Handle)} (tight : bucket ≠ some []) :
    bucket = bucketOf (bucket.getD []) := by
  rcases bucket with _ | (_ | ⟨h, rest⟩)
  · rfl
  · exact absurd rfl tight
  · rfl

/-! ## Coherent graphs are indexed -/

/-- The bucket of a type is what a scan for the type finds, if it finds anything. -/
theorem Coherent.bucket?_eq (hg : g.Coherent) (type : TypeId) :
    g.byType.bucket? type = bucketOf (g.scan fun c => c.type = type) := by
  have members : (g.byType.bucket? type).getD [] = g.scan fun c => c.type = type := by
    apply ascending_ext (g.byType.ascending_bucket type) (ascending_scan _)
    intro h
    rw [TypeBuckets.mem_bucket, hg.byType, mem_scan]
    simp only [decide_eq_true_eq]
  rw [← members]
  exact eq_bucketOf (hg.byType_tight type)

/-- The bucket of a digest is what a scan for the digest finds, if it finds anything. -/
theorem Coherent.candidates_eq (hg : g.Coherent) (d : UInt64) :
    g.byDigest.buckets[d]? = bucketOf (g.scan fun c => digest c = d) := by
  have members : g.byDigest.candidates d = g.scan fun c => digest c = d := by
    apply ascending_ext (hg.byDigest_ascending d) (ascending_scan _)
    intro h
    rw [hg.byDigest, mem_scan]
    simp only [decide_eq_true_eq]
  rw [← members]
  exact eq_bucketOf (hg.byDigest_tight d)

/-- The links over a stored atom are what a scan for its links finds. -/
theorem Coherent.incidence_eq (hg : g.Coherent) (h : Handle) :
    g.incidence.get? h = if g.contains h then some (g.scan fun c => h ∈ c.members) else none := by
  cases hl : g.incidence.get? h with
  | none =>
    have absent : ¬ g.contains h := by
      rw [← hg.entry, Incidence.contains_iff_get?, hl]
      simp
    rw [if_neg absent]
  | some links =>
    have stored : g.contains h := by
      rw [← hg.entry, Incidence.contains_iff_get?]
      exact ⟨links, hl⟩
    rw [if_pos stored, Option.some.injEq]
    apply ascending_ext (Incidence.ascending_get? hl) (ascending_scan _)
    intro link
    rw [hg.mem_incident hl, mem_scan]
    simp only [decide_eq_true_eq]

/-- The index by digest holds every handle exactly once, since a content has only one digest. -/
theorem Coherent.perm_all (hg : g.Coherent) : g.byDigest.all.Perm g.handles := by
  have nodup : g.byDigest.all.Nodup := by
    apply DigestBuckets.nodup_all
    · intro d
      exact nodup_of_ascending (hg.byDigest_ascending d)
    · intro d d' h hd hd'
      obtain ⟨c, hc, rfl⟩ := (hg.byDigest d h).mp hd
      obtain ⟨c', hc', rfl⟩ := (hg.byDigest d' h).mp hd'
      rw [hc, Option.some.injEq] at hc'
      rw [hc']
  rw [List.perm_ext_iff_of_nodup nodup (nodup_of_ascending ascending_handles)]
  intro h
  rw [DigestBuckets.mem_all, mem_handles, contains_iff]
  constructor
  · rintro ⟨d, hd⟩
    obtain ⟨c, hc, -⟩ := (hg.byDigest d h).mp hd
    exact ⟨c, hc⟩
  · rintro ⟨c, hc⟩
    exact ⟨digest c, (hg.byDigest _ h).mpr ⟨c, hc, rfl⟩⟩

/-- **A coherent graph is indexed**: each index is the one computed anew from its atoms. -/
theorem Coherent.indexed (hg : g.Coherent) : g.Indexed :=
  ⟨hg.bucket?_eq, hg.candidates_eq, hg.perm_all, hg.incidence_eq⟩

/-! ## The audit of a coherent graph -/

/-- A record holds the content of its atom. -/
theorem content?_of_mem_records {h : Handle} {record : Record} (hr : (h, record) ∈ g.records) :
    g.content? h = some record.content := by
  rw [records, Std.TreeMap.mem_toList_iff_getElem?_eq_some] at hr
  rw [content?, hr]
  rfl

/-- In a coherent graph the audit finds nothing wrong with any atom. -/
theorem Coherent.auditAtom_eq_nil (hg : g.Coherent) {h : Handle} {c : Content}
    (hc : g.content? h = some c) : g.auditAtom h c = [] := by
  -- nothing is missing from the indices about the atom itself
  have inTypes : g.byType.contains c.type h := (hg.byType _ h).mpr ⟨c, hc, rfl⟩
  have inDigests : h ∈ g.byDigest.candidates (digest c) := (hg.byDigest _ h).mpr ⟨c, hc, rfl⟩
  have inIncidence : g.incidence.contains h := (hg.entry h).mpr (contains_of_content? hc)
  rw [auditAtom, if_pos inTypes, if_pos inDigests, if_pos inIncidence, List.nil_append,
    List.nil_append, List.nil_append, List.flatMap_eq_nil_iff]
  intro m hm
  have stored := (hg.entry m).mpr (hg.member h c hc m hm).1
  -- nor about any of its members
  obtain ⟨links, hl⟩ := (Incidence.contains_iff_get? _ _).mp stored
  have listed : h ∈ links := (hg.mem_incident hl).mpr ⟨c, hc, hm⟩
  simp only [hl, if_pos listed]

/-- In a coherent graph the audit finds nothing wrong with the index by type. -/
theorem Coherent.auditTypes_eq_nil (hg : g.Coherent) : g.auditTypes = [] := by
  rw [auditTypes, List.flatMap_eq_nil_iff]
  rintro ⟨type, handles⟩ hb
  rw [List.flatMap_eq_nil_iff]
  intro h hh
  have hin : g.byType.contains type h := by
    rw [← TypeBuckets.mem_bucket, TypeBuckets.mem_toList.mp hb]
    exact hh
  obtain ⟨c, hc, ht⟩ := (hg.byType type h).mp hin
  rw [hc, Option.map_some, ht, if_pos rfl]

/-- In a coherent graph the audit finds nothing wrong with the index by member. -/
theorem Coherent.auditIncidence_eq_nil (hg : g.Coherent) : g.auditIncidence = [] := by
  rw [auditIncidence, List.flatMap_eq_nil_iff]
  rintro ⟨h, links⟩ hb
  have hl := Incidence.mem_toList.mp hb
  have stored : g.contains h := by
    rw [← hg.entry, Incidence.contains_iff_get?]
    exact ⟨links, hl⟩
  dsimp only
  rw [if_pos stored, List.nil_append, List.flatMap_eq_nil_iff]
  intro link hlink
  obtain ⟨c, hc, hm⟩ := (hg.mem_incident hl).mp hlink
  rw [hc, Option.map_some, Option.getD_some, if_pos hm]

/-- **The audit** of a coherent graph is empty. -/
theorem Coherent.audit_eq_nil (hg : g.Coherent) : g.audit = [] := by
  have atoms : g.records.flatMap (fun x => g.auditAtom x.1 x.2.content) = [] := by
    rw [List.flatMap_eq_nil_iff]
    rintro ⟨h, record⟩ hr
    exact hg.auditAtom_eq_nil (content?_of_mem_records hr)
  have count : g.byDigest.size = g.size := by
    rw [← DigestBuckets.length_all, hg.perm_all.length_eq, handles, Std.TreeMap.length_keys, size]
  unfold audit
  rw [atoms, hg.auditTypes_eq_nil, if_pos count, hg.auditIncidence_eq_nil]
  rfl

/-- **The indices of every reachable graph**, whichever operations led to it and whichever of them
were refused, are those that a scan of its atoms makes, as long as there are handles left.  The
audit finds nothing. -/
theorem Reachable.indexed_and_audit (hg : g.Reachable)
    (room : g.HandlesLeft) : g.Indexed ∧ g.audit = [] :=
  ⟨(hg.coherent room).indexed, (hg.coherent room).audit_eq_nil⟩

/-- A graph in which all digests collide, after a refused removal, a link that names a member
twice, and a removal with a cascade. -/
theorem indexed_and_audit_of_collisions :
    let g := (empty : Graph fun _ => 0).run
      [.insertContent (.node ⟨1⟩ "a"), .insertContent (.link ⟨2⟩ [⟨0⟩, ⟨0⟩]), .remove ⟨0⟩,
        .insertContent (.node ⟨1⟩ "b"), .insertContent (.link ⟨2⟩ [⟨2⟩, ⟨1⟩, ⟨2⟩]),
        .removeCascade ⟨0⟩, .insertContent (.link ⟨2⟩ [⟨2⟩, ⟨2⟩])]
    g.HandlesLeft ∧ g.handles = [⟨2⟩, ⟨4⟩] ∧ g.Indexed ∧ g.audit = [] :=
  ⟨by decide +kernel, by decide +kernel,
    Reachable.indexed_and_audit ⟨_, rfl⟩ (by decide +kernel)⟩

end Graph

end TypedHypergraph
