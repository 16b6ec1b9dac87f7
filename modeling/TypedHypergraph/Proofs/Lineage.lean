/-
# Lineages and subtypes

One type is a kind of another if a chain of parents leads from the one to the other.  In a well
formed tree the bounded climb of `isA` follows this chain to its end (`isA_iff`), and the search
that goes down through the children finds the same pairs (`mem_subtypes`), each type once and in
the order of declaration (`subtypes_ascending`).

The search downwards is counted: a type comes out of `gather` as often as members of the queue
have it below them (`count_gather`), and this is at most once if the queue holds a single type.
-/
import Mathlib.Algebra.BigOperators.Ring.Finset
import Mathlib.Tactic
import TypedHypergraph.Proofs.Ascending
import TypedHypergraph.Proofs.TypeGrowth

namespace TypedHypergraph

namespace TypeTree

/-! ## Climbing -/

/-- A chain of parents leads from one type up to another. -/
def Below (t : TypeTree) : TypeId → TypeId → Prop :=
  Relation.ReflTransGen fun id p => t.parent? id = some p

/-- With enough fuel the climb visits exactly the types above. -/
theorem WellFormed.mem_climb {t : TypeTree} (h : t.WellFormed) {ancestor : TypeId} :
    ∀ (fuel : Nat) (id : TypeId), id.index < fuel →
      (ancestor ∈ t.climb fuel id ↔ t.Below id ancestor) := by
  intro fuel
  induction fuel with
  | zero => intro id hid; omega
  | succ fuel ih =>
    intro id hid
    rw [climb, List.mem_cons, Below, Relation.ReflTransGen.cases_head_iff, eq_comm]
    cases hp : t.parent? id with
    | none => simp
    | some p =>
      have hlt : p.index < id.index := h.parent_lt id p hp
      have hclimb := ih p (by omega)
      rw [Below] at hclimb
      simp [hclimb]

/-- **A type is a kind of another** exactly if a chain of parents leads there. -/
theorem WellFormed.isA_iff {t : TypeTree} (h : t.WellFormed) {id ancestor : TypeId} :
    t.isA id ancestor ↔ t.Below id ancestor := by
  rw [isA, decide_eq_true_eq, lineage, size]
  by_cases hid : t.contains id
  · have hlt := (t.contains_iff id).mp hid
    exact h.mem_climb _ id (by omega)
  · -- an unknown type has no parent, so that the climb ends where it begins
    have hp := parent?_of_not_contains hid
    rw [climb, hp, Below, Relation.ReflTransGen.cases_head_iff]
    simp [hp, eq_comm]

/-- Each type is a kind of itself. -/
theorem WellFormed.isA_refl {t : TypeTree} (h : t.WellFormed) (id : TypeId) : t.isA id id :=
  h.isA_iff.mpr .refl

/-- Kinds of a kind are kinds. -/
theorem WellFormed.isA_trans {t : TypeTree} (h : t.WellFormed) {a b c : TypeId}
    (hab : t.isA a b) (hbc : t.isA b c) : t.isA a c :=
  h.isA_iff.mpr ((h.isA_iff.mp hab).trans (h.isA_iff.mp hbc))

/-- Ancestors are older. -/
theorem WellFormed.le_of_isA {t : TypeTree} (h : t.WellFormed) {a b : TypeId}
    (hab : t.isA a b) : b.index ≤ a.index := by
  have path := h.isA_iff.mp hab
  induction path with
  | refl => exact le_rfl
  | tail hac hcb ih =>
    have hlt := h.parent_lt _ _ hcb
    exact (le_of_lt hlt).trans (ih (h.isA_iff.mpr hac))

/-- What stands below a registered type is registered. -/
theorem WellFormed.contains_of_isA {t : TypeTree} (h : t.WellFormed) {a b : TypeId}
    (hab : t.isA a b) (hb : t.contains b) : t.contains a := by
  have path := h.isA_iff.mp hab
  rw [Below, Relation.ReflTransGen.cases_head_iff] at path
  rcases path with rfl | ⟨p, hp, -⟩
  · exact hb
  · exact contains_of_parent? hp

/-- What stands above a registered type is registered. -/
theorem WellFormed.contains_ancestor {t : TypeTree} (h : t.WellFormed) {a b : TypeId}
    (hab : t.isA a b) (ha : t.contains a) : t.contains b := by
  have hle := h.le_of_isA hab
  rw [contains_iff] at ha ⊢
  omega

/-- The lineage of a registered type never changes. -/
theorem Extends.isA {t t' : TypeTree} (h : t.Extends t') (ht : t.WellFormed)
    (ht' : t'.WellFormed) {a : TypeId} (ha : t.contains a) (b : TypeId) :
    t'.isA a b = t.isA a b := by
  rw [Bool.eq_iff_iff, ht.isA_iff, ht'.isA_iff]
  constructor
  · intro path
    induction path with
    | refl => exact .refl
    | tail _ hp ih =>
      -- what stands above a registered type was registered all along
      have hc := ht.contains_ancestor (ht.isA_iff.mpr ih) ha
      exact ih.tail (by rw [← h.parent? hc]; exact hp)
  · intro path
    induction path with
    | refl => exact .refl
    | tail _ hp ih => exact ih.tail (by rw [h.parent? (contains_of_parent? hp)]; exact hp)

/-- A type allows nodes unless it is a type of links or of pattern variables. -/
theorem allowsNodes_iff {t : TypeTree} {id : TypeId} :
    t.allowsNodes id ↔ ¬ t.isA id .link ∧ ¬ t.isA id .variableNode := by
  rw [allowsNodes]
  simp

/-- A type allows links unless it is a type of nodes. -/
theorem allowsLinks_iff {t : TypeTree} {id : TypeId} :
    t.allowsLinks id ↔ ¬ t.isA id .node := by
  rw [allowsLinks]
  simp

/-! ## One generation down -/

/-- Below a type stands the type itself, and what stands below its children. -/
theorem WellFormed.isA_iff_children {t : TypeTree} (h : t.WellFormed) {a b : TypeId} :
    t.isA a b ↔ a = b ∨ ∃ child ∈ t.children b, t.isA a child := by
  rw [h.isA_iff, Below, Relation.ReflTransGen.cases_tail_iff, eq_comm]
  refine or_congr_right (exists_congr fun child => ?_)
  rw [h.mem_children, h.isA_iff, Below, and_comm]

/-- A child does not stand above its parent. -/
theorem WellFormed.not_isA_child {t : TypeTree} (h : t.WellFormed) {b child : TypeId}
    (hc : child ∈ t.children b) : ¬ t.isA b child := by
  intro hb
  have hlt : b.index < child.index := h.parent_lt child b ((h.mem_children b child).mp hc)
  have hle := h.le_of_isA hb
  omega

/-- No type stands below two children of the same type. -/
theorem WellFormed.child_unique {t : TypeTree} (h : t.WellFormed) {a b c c' : TypeId}
    (hc : c ∈ t.children b) (hc' : c' ∈ t.children b) (ha : t.isA a c) (ha' : t.isA a c') :
    c = c' := by
  have unique : Relator.RightUnique fun id p => t.parent? id = some p := by
    intro id p p' hp hp'
    exact Option.some.inj (hp.symm.trans hp')
  -- of two members of one chain one stands below the other
  have apart : ∀ {d d' : TypeId}, d ∈ t.children b → d' ∈ t.children b → t.Below d d' →
      d = d' := by
    intro d d' hd hd' path
    rw [Below, Relation.ReflTransGen.cases_head_iff] at path
    rcases path with rfl | ⟨p, hp, path⟩
    · rfl
    · have hpb : p = b := Option.some.inj (hp.symm.trans ((h.mem_children b d).mp hd))
      subst hpb
      exact absurd (h.isA_iff.mpr path) (h.not_isA_child hd')
  rcases Relation.ReflTransGen.total_of_right_unique unique (h.isA_iff.mp ha) (h.isA_iff.mp ha')
    with path | path
  · exact apart hc hc' path
  · exact (apart hc' hc path).symm

/-- Among the children of a type at most one has a given type below it, and there is one exactly
if the type stands below the parent without being the parent. -/
theorem WellFormed.countP_children {t : TypeTree} (h : t.WellFormed) (a b : TypeId) :
    [b].countP (t.isA a ·) = [b].count a + (t.children b).countP (t.isA a ·) := by
  -- two children above the same type would be the same child
  have distinct : (t.children b).Nodup := nodup_of_ascending (h.children_ascending b)
  have atMost : (t.children b).countP (t.isA a ·) ≤ 1 := by
    rw [List.countP_eq_length_filter]
    have alike : ∀ c ∈ (t.children b).filter (t.isA a ·),
        ∀ c' ∈ (t.children b).filter (t.isA a ·), c = c' := by
      intro c hc c' hc'
      rw [List.mem_filter] at hc hc'
      exact h.child_unique hc.1 hc'.1 hc.2 hc'.2
    have hnodup := distinct.filter (t.isA a ·)
    match hl : (t.children b).filter (t.isA a ·) with
    | [] => simp
    | [c] => simp
    | c :: c' :: rest =>
      rw [hl] at alike hnodup
      have heq := alike c (by simp) c' (by simp)
      simp [heq] at hnodup
  rw [List.countP_singleton, List.count_singleton]
  by_cases hab : a = b
  · subst hab
    have none : (t.children a).countP (t.isA a ·) = 0 := by
      rw [List.countP_eq_zero]
      intro c hc
      exact h.not_isA_child hc
    simp [none, h.isA_refl]
  · by_cases hisA : t.isA a b
    · have some : 0 < (t.children b).countP (t.isA a ·) := by
        rw [List.countP_pos_iff]
        exact (h.isA_iff_children.mp hisA).resolve_left hab
      have one : (t.children b).countP (t.isA a ·) = 1 := by omega
      simp [one, hisA, Ne.symm hab]
    · have none : (t.children b).countP (t.isA a ·) = 0 := by
        rw [List.countP_eq_zero]
        intro c hc hac
        exact hisA (h.isA_iff_children.mpr (.inr ⟨c, hc, hac⟩))
      simp [none, hisA, Ne.symm hab]

/-! ## All generations down -/

/-- How many pairs there are of a registered type and a member of a queue above it. -/
def weight (t : TypeTree) (queue : List TypeId) : Nat :=
  ∑ i ∈ Finset.range t.size, queue.countP (t.isA ⟨i⟩ ·)

/-- One turn of the search downwards uses up one such pair. -/
theorem WellFormed.weight_cons {t : TypeTree} (h : t.WellFormed) {id : TypeId}
    (hid : t.contains id) (queue : List TypeId) :
    t.weight (id :: queue) = 1 + t.weight (queue ++ t.children id) := by
  have split : ∀ a, (id :: queue).countP (t.isA a ·)
      = [id].count a + (queue ++ t.children id).countP (t.isA a ·) := by
    intro a
    rw [← List.singleton_append, List.countP_append, h.countP_children, List.countP_append]
    omega
  -- the head itself is counted for one type only
  have once : ∑ i ∈ Finset.range t.size, [id].count (⟨i⟩ : TypeId) = 1 := by
    rw [Finset.sum_eq_single id.index]
    · simp
    · intro i _ hne
      rw [List.count_singleton]
      have : id ≠ (⟨i⟩ : TypeId) := fun heq => hne (by rw [heq])
      simp [this]
    · intro hout
      rw [Finset.mem_range] at hout
      exact absurd ((t.contains_iff id).mp hid) hout
  rw [weight, weight, Finset.sum_congr rfl (fun i _ => split ⟨i⟩), Finset.sum_add_distrib, once]

/-- The search downwards yields each type as often as the queue has a member above it. -/
theorem WellFormed.count_gather {t : TypeTree} (h : t.WellFormed) (a : TypeId) :
    ∀ (fuel : Nat) (queue : List TypeId), (∀ id ∈ queue, t.contains id) →
      t.weight queue ≤ fuel → (t.gather fuel queue).count a = queue.countP (t.isA a ·) := by
  intro fuel
  induction fuel with
  | zero =>
    intro queue known enough
    cases queue with
    | nil => rfl
    | cons id queue =>
      rw [h.weight_cons (known id (by simp))] at enough
      omega
  | succ fuel ih =>
    intro queue known enough
    cases queue with
    | nil => rfl
    | cons id queue =>
      have hid : t.contains id := known id (by simp)
      rw [h.weight_cons hid] at enough
      have known' : ∀ c ∈ queue ++ t.children id, t.contains c := by
        intro c hc
        rcases List.mem_append.mp hc with hq | hc
        · exact known c (List.mem_cons_of_mem id hq)
        · exact contains_of_parent? ((h.mem_children id c).mp hc)
      have hhead := h.countP_children a id
      -- the head of the queue accounts for itself, and its children for what stands below it
      rw [gather, ← List.singleton_append, List.count_append, ih _ known' (by omega),
        ← List.singleton_append (l := queue), List.countP_append, List.countP_append]
      omega

/-- Among the subtypes of a registered type every type below it occurs once. -/
theorem WellFormed.count_subtypes {t : TypeTree} (h : t.WellFormed) {b : TypeId}
    (hb : t.contains b) (a : TypeId) : (t.subtypes b).count a = [b].countP (t.isA a ·) := by
  have enough : t.weight [b] ≤ t.size := by
    refine (Finset.sum_le_card_nsmul _ _ 1 fun i _ => List.countP_le_length).trans ?_
    rw [Finset.card_range, smul_eq_mul, mul_one]
  rw [subtypes, if_pos hb, (List.mergeSort_perm _ _).count_eq]
  exact h.count_gather a t.size [b] (by simpa using hb) enough

/-- **The subtypes** of a registered type are the types below it; an unknown type has none. -/
theorem WellFormed.mem_subtypes {t : TypeTree} (h : t.WellFormed) {a b : TypeId} :
    a ∈ t.subtypes b ↔ t.contains b ∧ t.isA a b := by
  by_cases hb : t.contains b
  · rw [← List.count_pos_iff, h.count_subtypes hb, List.countP_pos_iff]
    simp [hb]
  · simp [subtypes, hb]

/-- Subtypes are listed in the order of declaration, each one once. -/
theorem WellFormed.subtypes_ascending {t : TypeTree} (h : t.WellFormed) (b : TypeId) :
    (t.subtypes b).Pairwise (· < ·) := by
  by_cases hb : t.contains b
  · have nodup : (t.subtypes b).Nodup := by
      rw [List.nodup_iff_count_le_one]
      intro a
      rw [h.count_subtypes hb]
      exact List.countP_le_length
    have sorted : (t.subtypes b).Pairwise (fun x y => decide (x ≤ y) = true) := by
      rw [subtypes, if_pos hb]
      apply List.pairwise_mergeSort
      · intro x y z hxy hyz
        rw [decide_eq_true_eq, TypeId.le_iff] at *
        omega
      · intro x y
        rw [Bool.or_eq_true, decide_eq_true_eq, decide_eq_true_eq, TypeId.le_iff, TypeId.le_iff]
        omega
    refine (sorted.and nodup).imp ?_
    rintro x y ⟨hle, hne⟩
    rw [decide_eq_true_eq, TypeId.le_iff] at hle
    rw [ne_eq, TypeId.eq_iff] at hne
    rw [TypeId.lt_iff]
    omega
  · simp [subtypes, hb]

end TypeTree

end TypedHypergraph
