/-
# Revision where arithmetic is exact

The laws of revision over the rationals.  Between two values in range the outcome of a revision is a
weighted mean of the strengths, and the doubts, by which the confidences fall short of one, are
multiplied (`one_sub_merge`).  Both are in range again, so that they are never clamped
(`InRange.revise_eq`).

A place that held nothing *sums up* the observations that it has absorbed (`SumsUp`): its confidence
is told by all of theirs in any order, it is as great as each of theirs, and its strength lies
between two of theirs.  One more revision keeps this (`SumsUp.revise`), so that it holds after each
observation of a sequence (`RevisesExactly`).
-/
import Mathlib.Tactic
import TypedHypergraph.Truth

namespace TypedHypergraph

namespace TruthValue

variable {v o : TruthValue ℚ}

/-! ## Single revisions -/

/-- Strength and confidence lie between zero and one. -/
structure InRange (v : TruthValue ℚ) : Prop where
  strength_nonneg : 0 ≤ v.strength
  strength_le_one : v.strength ≤ 1
  confidence_nonneg : 0 ≤ v.confidence
  confidence_le_one : v.confidence ≤ 1

/-- The values that can be made are those in range. -/
theorem make?_eq_some_iff {strength confidence : ℚ} :
    make? strength confidence = some v ↔ v = ⟨strength, confidence⟩ ∧ v.InRange := by
  rw [make?]
  constructor
  · intro made
    split at made
    · rename_i units
      simp only [inUnit, Bool.and_eq_true, decide_eq_true_eq] at units
      cases made
      exact ⟨rfl, units.1.1, units.1.2, units.2.1, units.2.2⟩
    · cases made
  · rintro ⟨rfl, range⟩
    have units : (inUnit strength && inUnit confidence) = true := by
      simp only [inUnit, Bool.and_eq_true, decide_eq_true_eq]
      exact ⟨⟨range.strength_nonneg, range.strength_le_one⟩,
        range.confidence_nonneg, range.confidence_le_one⟩
    rw [if_pos units]

/-- The outcome of a revision before it is clamped. -/
def merge (value observation : TruthValue ℚ) : TruthValue ℚ where
  strength :=
    if 0 < value.confidence + observation.confidence then
      (value.strength * value.confidence + observation.strength * observation.confidence)
        / (value.confidence + observation.confidence)
    else observation.strength
  confidence := value.confidence + observation.confidence * (1 - value.confidence)

/-- A revision is the weighted mean, clamped. -/
theorem revise_eq_clamp_merge (v o : TruthValue ℚ) :
    v.revise o = ⟨clamp (v.merge o).strength, clamp (v.merge o).confidence⟩ := rfl

/-- Clamping changes nothing between zero and one. -/
theorem clamp_eq {x : ℚ} (nonneg : 0 ≤ x) (le_one : x ≤ 1) : clamp x = x := by
  rw [clamp, if_neg (not_lt.mpr nonneg), if_neg (not_lt.mpr le_one)]

/-- Doubts are multiplied. -/
theorem one_sub_merge (v o : TruthValue ℚ) :
    1 - (v.merge o).confidence = (1 - v.confidence) * (1 - o.confidence) := by
  rw [merge]
  ring

/-- Where there is evidence, it does not matter which value comes first. -/
theorem merge_comm (evidence : 0 < v.confidence + o.confidence) : v.merge o = o.merge v := by
  have evidence' : 0 < o.confidence + v.confidence := by rwa [add_comm]
  rw [merge, merge, if_pos evidence, if_pos evidence', mk.injEq]
  constructor
  · rw [add_comm v.confidence, add_comm (v.strength * v.confidence)]
  · ring

/-- **Revision commutes** wherever there is any evidence. -/
theorem revise_comm (evidence : 0 < v.confidence + o.confidence) : v.revise o = o.revise v := by
  rw [revise_eq_clamp_merge, revise_eq_clamp_merge, merge_comm evidence]

/-! ## Observations in a row -/

/-- What a place that held nothing holds after some observations. -/
def absorbAll (os : List (TruthValue ℚ)) : Option (TruthValue ℚ) :=
  os.foldl (fun place o => some (absorb place o)) none

/-- Absorbing one observation more is absorbing it last. -/
theorem absorbAll_concat (os : List (TruthValue ℚ)) (o : TruthValue ℚ) :
    absorbAll (os ++ [o]) = some (absorb (absorbAll os) o) := by
  rw [absorbAll, List.foldl_concat]
  rfl

/-- A value sums up some observations. -/
structure SumsUp (os : List (TruthValue ℚ)) (v : TruthValue ℚ) : Prop where
  bounded : v.InRange
  confidence_eq : v.confidence = 1 - (os.map fun o => 1 - o.confidence).prod
  confidence_ge : ∀ o ∈ os, o.confidence ≤ v.confidence
  strength_ge : ∃ o ∈ os, o.strength ≤ v.strength
  strength_le : ∃ o ∈ os, v.strength ≤ o.strength

/-- One observation sums up to itself. -/
theorem sumsUp_singleton (ho : o.InRange) : SumsUp [o] o where
  bounded := ho
  confidence_eq := by simp
  confidence_ge := by simp
  strength_ge := ⟨o, List.mem_singleton_self o, le_rfl⟩
  strength_le := ⟨o, List.mem_singleton_self o, le_rfl⟩

/-! ## Values in range -/

/-- A bound below both strengths is one below their mean, -/
theorem le_strength_merge (hv : v.InRange) (ho : o.InRange) {low : ℚ} (first : low ≤ v.strength)
    (second : low ≤ o.strength) : low ≤ (v.merge o).strength := by
  have hv' := hv.confidence_nonneg
  have ho' := ho.confidence_nonneg
  rw [merge]
  split
  · rename_i evidence
    rw [le_div_iff₀ evidence]
    calc low * (v.confidence + o.confidence)
        = low * v.confidence + low * o.confidence := by ring
      _ ≤ v.strength * v.confidence + o.strength * o.confidence := by gcongr
  · exact second

/-- and a bound above both is one above. -/
theorem strength_merge_le (hv : v.InRange) (ho : o.InRange) {high : ℚ} (first : v.strength ≤ high)
    (second : o.strength ≤ high) : (v.merge o).strength ≤ high := by
  have hv' := hv.confidence_nonneg
  have ho' := ho.confidence_nonneg
  rw [merge]
  split
  · rename_i evidence
    rw [div_le_iff₀ evidence]
    calc v.strength * v.confidence + o.strength * o.confidence
        ≤ high * v.confidence + high * o.confidence := by gcongr
      _ = high * (v.confidence + o.confidence) := by ring
  · exact second

/-- Confidence never decreases, -/
theorem confidence_le_merge (hv : v.InRange) (ho : o.InRange) :
    v.confidence ≤ (v.merge o).confidence := by
  have gain : 0 ≤ o.confidence * (1 - v.confidence) :=
    mul_nonneg ho.confidence_nonneg (sub_nonneg.mpr hv.confidence_le_one)
  rw [merge]
  linarith

/-- and is at least that of the observation. -/
theorem confidence_le_merge_right (hv : v.InRange) (ho : o.InRange) :
    o.confidence ≤ (v.merge o).confidence := by
  have gain : 0 ≤ v.confidence * (1 - o.confidence) :=
    mul_nonneg hv.confidence_nonneg (sub_nonneg.mpr ho.confidence_le_one)
  rw [merge]
  linarith

/-- The weighted mean of values in range is in range. -/
theorem InRange.merge (hv : v.InRange) (ho : o.InRange) : (v.merge o).InRange where
  strength_nonneg := le_strength_merge hv ho hv.strength_nonneg ho.strength_nonneg
  strength_le_one := strength_merge_le hv ho hv.strength_le_one ho.strength_le_one
  confidence_nonneg := hv.confidence_nonneg.trans (confidence_le_merge hv ho)
  confidence_le_one := by
    have doubt : 0 ≤ (1 - v.confidence) * (1 - o.confidence) :=
      mul_nonneg (sub_nonneg.mpr hv.confidence_le_one) (sub_nonneg.mpr ho.confidence_le_one)
    rw [← one_sub_merge] at doubt
    exact sub_nonneg.mp doubt

/-- **Nothing is clamped** between values in range. -/
theorem InRange.revise_eq (hv : v.InRange) (ho : o.InRange) : v.revise o = v.merge o := by
  have range := hv.merge ho
  rw [revise_eq_clamp_merge, clamp_eq range.strength_nonneg range.strength_le_one,
    clamp_eq range.confidence_nonneg range.confidence_le_one]

/-! ## What each observation leaves -/

/-- **One more observation** is summed up by revising. -/
theorem SumsUp.revise {os : List (TruthValue ℚ)} (h : SumsUp os v) (ho : o.InRange) :
    SumsUp (os ++ [o]) (v.revise o) := by
  have hv := h.bounded
  rw [hv.revise_eq ho]
  refine ⟨hv.merge ho, ?confidence_eq, ?confidence_ge, ?strength_ge, ?strength_le⟩
  case confidence_eq =>
    have doubt : 1 - v.confidence = (os.map fun o => 1 - o.confidence).prod := by
      rw [h.confidence_eq]
      ring
    rw [List.map_append, List.prod_append, List.map_singleton, List.prod_singleton, ← doubt,
      ← one_sub_merge]
    ring
  case confidence_ge =>
    intro x hx
    rcases List.mem_append.mp hx with old | new
    · exact (h.confidence_ge x old).trans (confidence_le_merge hv ho)
    · rw [List.mem_singleton.mp new]
      exact confidence_le_merge_right hv ho
  case strength_ge =>
    -- the mean is at least the lesser of the two strengths
    rcases le_total v.strength o.strength with hle | hle
    · obtain ⟨x, hx, below⟩ := h.strength_ge
      exact ⟨x, List.mem_append_left _ hx, below.trans (le_strength_merge hv ho le_rfl hle)⟩
    · exact ⟨o, by simp, le_strength_merge hv ho hle le_rfl⟩
  case strength_le =>
    rcases le_total v.strength o.strength with hle | hle
    · exact ⟨o, by simp, strength_merge_le hv ho hle le_rfl⟩
    · obtain ⟨x, hx, above⟩ := h.strength_le
      exact ⟨x, List.mem_append_left _ hx, (strength_merge_le hv ho le_rfl hle).trans above⟩

/-- **A place sums up** all that it has absorbed. -/
theorem exists_sumsUp {os : List (TruthValue ℚ)} (some_seen : os ≠ [])
    (inRange : ∀ o ∈ os, o.InRange) : ∃ v, absorbAll os = some v ∧ SumsUp os v := by
  induction os using List.reverseRecOn with
  | nil => exact absurd rfl some_seen
  | append_singleton os o ih =>
    rw [List.forall_mem_append, List.forall_mem_singleton] at inRange
    rw [absorbAll_concat]
    by_cases first : os = []
    · subst first
      exact ⟨o, rfl, sumsUp_singleton inRange.2⟩
    · obtain ⟨v, hv, sums⟩ := ih first inRange.1
      rw [hv]
      exact ⟨v.revise o, rfl, sums.revise inRange.2⟩

/-- **What is absorbed sums up** all the observations. -/
theorem SumsUp.of_absorbAll {os : List (TruthValue ℚ)} (inRange : ∀ o ∈ os, o.InRange)
    (hv : absorbAll os = some v) : SumsUp os v := by
  have some_seen : os ≠ [] := by
    rintro rfl
    cases hv
  obtain ⟨v', hv', sums⟩ := exists_sumsUp some_seen inRange
  rw [hv, Option.some.injEq] at hv'
  rwa [hv']

/-- The order of the observations makes no difference to the confidence. -/
theorem confidence_absorbAll_perm {os os' : List (TruthValue ℚ)} (inRange : ∀ o ∈ os, o.InRange)
    (reordered : os'.Perm os) :
    (absorbAll os').map (·.confidence) = (absorbAll os).map (·.confidence) := by
  have inRange' : ∀ o ∈ os', o.InRange := fun o ho => inRange o (reordered.mem_iff.mp ho)
  by_cases some_seen : os = []
  · subst some_seen
    rw [reordered.eq_nil]
  · have some_seen' : os' ≠ [] := fun none_seen =>
      some_seen (none_seen ▸ reordered).symm.eq_nil
    obtain ⟨v, hv, sums⟩ := exists_sumsUp some_seen inRange
    obtain ⟨v', hv', sums'⟩ := exists_sumsUp some_seen' inRange'
    have doubts := (reordered.map fun o => 1 - o.confidence).prod_eq
    rw [hv, hv', Option.map_some, Option.map_some, sums.confidence_eq, sums'.confidence_eq, doubts]

/-- What is known with some confidence stays known with it. -/
theorem confidence_le_of_prefix {earlier later : List (TruthValue ℚ)}
    (inRange : ∀ o ∈ later, o.InRange) (before : earlier <+: later) {u w : TruthValue ℚ}
    (hu : absorbAll earlier = some u) (hw : absorbAll later = some w) :
    u.confidence ≤ w.confidence := by
  obtain ⟨more, rfl⟩ := before
  induction more using List.reverseRecOn generalizing w with
  | nil =>
    rw [List.append_nil, hu, Option.some.injEq] at hw
    rw [hw]
  | append_singleton more o ih =>
    rw [← List.append_assoc, List.forall_mem_append, List.forall_mem_singleton] at inRange
    have some_seen : earlier ++ more ≠ [] := by
      intro none_seen
      rw [(List.append_eq_nil_iff.mp none_seen).1] at hu
      cases hu
    obtain ⟨v, hv, sums⟩ := exists_sumsUp some_seen inRange.1
    rw [← List.append_assoc, absorbAll_concat, hv, Option.some.injEq] at hw
    calc u.confidence
        ≤ v.confidence := ih inRange.1 hv
      _ ≤ (v.merge o).confidence := confidence_le_merge sums.bounded inRange.2
      _ = w.confidence := by rw [← hw, absorb, sums.bounded.revise_eq inRange.2]

/-- What a place that held nothing makes of a sequence of observations. -/
structure RevisesExactly (os : List (TruthValue ℚ)) : Prop where
  /-- After each observation it holds the sum of those so far. -/
  sumsUp : ∀ seen, seen ≠ [] → seen <+: os → ∃ v, absorbAll seen = some v ∧ SumsUp seen v
  /-- The confidence never decreases. -/
  growing : ∀ earlier later u w, earlier <+: later → later <+: os →
    absorbAll earlier = some u → absorbAll later = some w → u.confidence ≤ w.confidence
  /-- In any order of the observations it comes to the same confidence. -/
  unordered : ∀ os' : List (TruthValue ℚ), os'.Perm os →
    (absorbAll os').map (·.confidence) = (absorbAll os).map (·.confidence)
  /-- Nothing is ever clamped. -/
  unclamped : ∀ seen o v, seen ++ [o] <+: os → absorbAll seen = some v → v.revise o = v.merge o

/-- **Observations in range are revised exactly**, and of two values with some confidence between
them it does not matter which comes first. -/
theorem revisesExactly {os : List (TruthValue ℚ)} (inRange : ∀ o ∈ os, o.InRange) :
    RevisesExactly os
      ∧ ∀ a b : TruthValue ℚ, 0 < a.confidence + b.confidence → a.revise b = b.revise a := by
  constructor
  case right => exact fun a b evidence => revise_comm evidence
  case left =>
    refine ⟨?sumsUp, ?growing, fun os' => confidence_absorbAll_perm inRange, ?unclamped⟩
    case sumsUp =>
      intro seen some_seen before
      exact exists_sumsUp some_seen fun o ho => inRange o (before.subset ho)
    case growing =>
      intro earlier later u w before before' hu hw
      exact confidence_le_of_prefix (fun o ho => inRange o (before'.subset ho)) before hu hw
    case unclamped =>
      intro seen o v before hv
      have inRange' : ∀ x ∈ seen ++ [o], x.InRange := fun x hx => inRange x (before.subset hx)
      rw [List.forall_mem_append, List.forall_mem_singleton] at inRange'
      have sums := SumsUp.of_absorbAll inRange'.1 hv
      exact sums.bounded.revise_eq inRange'.2

/-- A strength of one without confidence, another value without confidence, and two with some. -/
def doubtfulFirst : List (TruthValue ℚ) := [⟨1, 0⟩, ⟨0, 0⟩, ⟨1 / 4, 1 / 2⟩, ⟨1, 1 / 2⟩]

/-- The two without confidence leave no trace in the outcome. -/
theorem revisesExactly_doubtfulFirst :
    (∀ o ∈ doubtfulFirst, o.InRange)
      ∧ absorbAll doubtfulFirst = some ⟨5 / 8, 3 / 4⟩
      ∧ RevisesExactly doubtfulFirst
      ∧ (⟨1 / 4, 1 / 2⟩ : TruthValue ℚ).revise ⟨1, 1 / 4⟩
        = (⟨1, 1 / 4⟩ : TruthValue ℚ).revise ⟨1 / 4, 1 / 2⟩ := by
  have made : ∀ o ∈ doubtfulFirst, make? o.strength o.confidence = some o := by decide +kernel
  have inRange : ∀ o ∈ doubtfulFirst, o.InRange := fun o ho =>
    (make?_eq_some_iff.mp (made o ho)).2
  obtain ⟨exactly, either_first⟩ := revisesExactly inRange
  exact ⟨inRange, by decide +kernel, exactly, either_first _ _ (by norm_num)⟩

end TruthValue

end TypedHypergraph
