/-
# Reading accepted computations backwards

A computation that can be refused is a sequence of guards and look-ups.  If it is accepted, every
one of them was; these lemmas take the sequence apart.  A traversal that is accepted, or that finds
something at every member, relates its results to the members one by one.
-/
import Mathlib.Tactic
import TypedHypergraph.Error

namespace TypedHypergraph

namespace Guards

variable {ε α β : Type}

/-- A sequence is accepted exactly if its first part is, and then the rest. -/
theorem bind_eq_ok {x : Except ε α} {f : α → Except ε β} {b : β} :
    (x >>= f) = .ok b ↔ ∃ a, x = .ok a ∧ f a = .ok b := by
  cases x <;> simp [bind, Except.bind]

/-- A sequence is refused where its first part is, or else where the rest is. -/
theorem bind_eq_error {x : Except ε α} {f : α → Except ε β} {e : ε} :
    (x >>= f) = .error e ↔ x = .error e ∨ ∃ a, x = .ok a ∧ f a = .error e := by
  cases x <;> simp [bind, Except.bind]

/-- A check has only one result that is accepted. -/
theorem exists_unit {p : Unit → Prop} : (∃ a, p a) ↔ p () :=
  ⟨fun ⟨_, h⟩ => h, fun h => ⟨(), h⟩⟩

/-- What is returned is what comes out. -/
theorem pure_eq_ok {a b : α} : (pure a : Except ε α) = .ok b ↔ a = b := by
  simp [pure, Except.pure]

/-- A guard that refuses in one case lets the other case through. -/
theorem ite_error_eq_ok {c : Prop} [Decidable c] {x : Except ε α} {e : ε} {a : α} :
    (if c then .error e else x) = .ok a ↔ ¬ c ∧ x = .ok a := by
  by_cases hc : c <;> simp [hc]

/-- A guard that stands in front of the rest lets nothing through that it refuses. -/
theorem ite_throw_eq_ok {c : Prop} [Decidable c] {e : ε} {rest : β → Except ε α}
    {x : Except ε α} {a : α} :
    (if c then (throw e : Except ε β) >>= rest else x) = .ok a ↔ ¬ c ∧ x = .ok a := by
  by_cases hc : c
  · simp [hc, throw, throwThe, MonadExceptOf.throw, bind, Except.bind]
  · simp [hc]

/-- A guard that lets through in one case stands in front of the rest. -/
theorem ite_pass_eq_ok {c : Prop} [Decidable c] {e : ε} {rest : β → Except ε α}
    {x : Except ε α} {a : α} :
    (if c then x else (throw e : Except ε β) >>= rest) = .ok a ↔ c ∧ x = .ok a := by
  rw [← ite_not, ite_throw_eq_ok, not_not]

/-- A guard in front of the rest refuses in its case, and in the other case the rest may. -/
theorem ite_throw_eq_error {c : Prop} [Decidable c] {e e' : ε} {rest : β → Except ε α}
    {x : Except ε α} :
    (if c then (throw e : Except ε β) >>= rest else x) = .error e' ↔
      c ∧ e = e' ∨ ¬ c ∧ x = .error e' := by
  by_cases hc : c
  · simp [hc, throw, throwThe, MonadExceptOf.throw, bind, Except.bind]
  · simp [hc]

/-- A test in front of the rest stops it exactly if it fails, with its own error. -/
theorem ite_pass_eq_error {c : Prop} [Decidable c] {e e' : ε} {rest : β → Except ε α}
    {x : Except ε α} :
    (if c then x else (throw e : Except ε β) >>= rest) = .error e' ↔
      ¬ c ∧ e = e' ∨ c ∧ x = .error e' := by
  rw [← ite_not, ite_throw_eq_error, not_not]

/-- What is returned is no error. -/
theorem pure_ne_error {a : α} {e : ε} : (pure a : Except ε α) ≠ .error e := by
  simp [pure, Except.pure]

/-- What is not refused is accepted. -/
theorem isOk_iff {x : Except ε α} : x.isOk ↔ ∀ e, ¬ x = .error e := by
  cases x <;> simp [Except.isOk, Except.toBool]

/-- What comes out of a map is the image of what came out before. -/
theorem map_eq_ok {x : Except ε α} {f : α → β} {b : β} :
    x.map f = .ok b ↔ ∃ a, x = .ok a ∧ f a = b := by
  cases x <;> simp [Except.map]

/-! ## Traversals -/

/-- A traversal is accepted exactly if every member is, in turn. -/
theorem mapM_eq_ok {f : α → Except ε β} {xs : List α} {ys : List β} :
    xs.mapM f = .ok ys ↔ List.Forall₂ (fun x y => f x = .ok y) xs ys := by
  induction xs generalizing ys with
  | nil =>
    rw [List.mapM_nil, pure_eq_ok, List.forall₂_nil_left_iff, eq_comm]
  | cons x xs ih =>
    rw [List.mapM_cons, bind_eq_ok]
    constructor
    · rintro ⟨y, hy, h⟩
      obtain ⟨ys', hys, h⟩ := bind_eq_ok.mp h
      rw [← pure_eq_ok.mp h]
      exact .cons hy (ih.mp hys)
    · rintro (_ | ⟨hy, hys⟩)
      exact ⟨_, hy, bind_eq_ok.mpr ⟨_, ih.mpr hys, rfl⟩⟩

/-- A traversal is refused for one of its members. -/
theorem exists_of_mapM_eq_error {f : α → Except ε β} {xs : List α} {e : ε}
    (h : xs.mapM f = .error e) : ∃ x ∈ xs, f x = .error e := by
  induction xs with
  | nil =>
    rw [List.mapM_nil] at h
    cases h
  | cons x xs ih =>
    rw [List.mapM_cons, bind_eq_error] at h
    rcases h with here | ⟨y, -, h⟩
    · exact ⟨x, List.mem_cons_self, here⟩
    · rcases bind_eq_error.mp h with later | ⟨ys, -, h⟩
      · obtain ⟨x', hx', fails⟩ := ih later
        exact ⟨x', List.mem_cons_of_mem _ hx', fails⟩
      · cases h

/-- A traversal that is accepted accepts each of its members. -/
theorem ok_of_mapM_eq_ok {f : α → Except ε β} {xs : List α} {ys : List β}
    (h : xs.mapM f = .ok ys) : ∀ x ∈ xs, ∃ y, f x = .ok y := by
  rw [mapM_eq_ok] at h
  intro x hx
  obtain ⟨i, hi, rfl⟩ := List.mem_iff_getElem.mp hx
  have hi' : i < ys.length := by rwa [← h.length_eq]
  exact ⟨ys[i], h.get hi hi'⟩

/-- A traversal finds something exactly if it does so at every member. -/
theorem mapM_eq_some {f : α → Option β} {xs : List α} {ys : List β} :
    xs.mapM f = some ys ↔ List.Forall₂ (fun x y => f x = some y) xs ys := by
  induction xs generalizing ys with
  | nil =>
    rw [List.mapM_nil, Option.pure_def, Option.some.injEq, List.forall₂_nil_left_iff, eq_comm]
  | cons x xs ih =>
    simp only [List.mapM_cons, Option.bind_eq_bind, Option.bind_eq_some_iff, Option.pure_def,
      Option.some.injEq, ih]
    constructor
    · rintro ⟨y, hy, ys', hys, rfl⟩
      exact .cons hy hys
    · rintro (_ | ⟨hy, hys⟩)
      exact ⟨_, hy, _, hys, rfl⟩

/-- Functions that agree on the items of a list do the same to all of them. -/
theorem mapM_congr {f f' : α → Option β} {xs : List α} (same : ∀ x ∈ xs, f x = f' x) :
    xs.mapM f = xs.mapM f' := by
  induction xs with
  | nil => rfl
  | cons x xs ih =>
    rw [List.forall_mem_cons] at same
    rw [List.mapM_cons, List.mapM_cons, same.1, ih same.2]

/-- Lists that are related to the same list are equal if related members are. -/
theorem eq_of_forall₂ {R : α → β → Prop} {xs xs' : List α} {ys : List β}
    (h : List.Forall₂ R xs ys) (h' : List.Forall₂ R xs' ys)
    (inj : ∀ x ∈ xs, ∀ x' ∈ xs', ∀ y ∈ ys, R x y → R x' y → x = x') : xs = xs' := by
  induction h generalizing xs' with
  | nil =>
    cases h'
    rfl
  | cons hxy _ ih =>
    obtain _ | ⟨hxy', hrest⟩ := h'
    simp only [List.forall_mem_cons] at inj
    rw [inj.1.1.1 hxy hxy', ih hrest fun x hx x' hx' => ((inj.2 x hx).2 x' hx').2]

/-- Each result of a traversal is that of a member. -/
theorem exists_of_forall₂ {R : α → β → Prop} {xs : List α} {ys : List β}
    (h : List.Forall₂ R xs ys) {y : β} (hy : y ∈ ys) : ∃ x ∈ xs, R x y := by
  induction h with
  | nil => cases hy
  | cons hxy _ ih =>
    rcases List.mem_cons.mp hy with rfl | hy
    · exact ⟨_, List.mem_cons_self, hxy⟩
    · obtain ⟨x, hx, hr⟩ := ih hy
      exact ⟨x, List.mem_cons_of_mem _ hx, hr⟩

end Guards

end TypedHypergraph
