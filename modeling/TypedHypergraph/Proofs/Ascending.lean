/-
# Ascending lists

Handles and types are compared by their numbers.  A strictly ascending list holds nothing twice
and is determined by its members (`ascending_ext`); the sorted sets and maps of the indices hand
out such lists.
-/
import Mathlib.Tactic
import TypedHypergraph.Handle

namespace TypedHypergraph

/-! ## Order of numbers -/

namespace Handle

theorem lt_iff (a b : Handle) : a < b ↔ a.value < b.value := Iff.rfl

theorem le_iff (a b : Handle) : a ≤ b ↔ a.value ≤ b.value := Iff.rfl

theorem eq_iff (a b : Handle) : a = b ↔ a.value = b.value := by
  cases a
  cases b
  simp

/-- No handle is smaller than itself. -/
instance : Std.Irrefl (α := Handle) (· < ·) := ⟨fun a => Nat.lt_irrefl a.value⟩

/-- Two handles are not smaller than each other. -/
instance : Std.Antisymm (α := Handle) (· < ·) :=
  ⟨fun _ _ hab hba => absurd hab (Nat.lt_asymm hba)⟩

end Handle

namespace TypeId

theorem lt_iff (a b : TypeId) : a < b ↔ a.index < b.index := Iff.rfl

theorem le_iff (a b : TypeId) : a ≤ b ↔ a.index ≤ b.index := Iff.rfl

theorem eq_iff (a b : TypeId) : a = b ↔ a.index = b.index := by
  cases a
  cases b
  simp

/-- No identifier is smaller than itself. -/
instance : Std.Irrefl (α := TypeId) (· < ·) := ⟨fun a => Nat.lt_irrefl a.index⟩

/-- Two identifiers are not smaller than each other. -/
instance : Std.Antisymm (α := TypeId) (· < ·) :=
  ⟨fun _ _ hab hba => absurd hab (Nat.lt_asymm hba)⟩

end TypeId

/-! ## Ascending lists -/

/-- Two ascending lists with the same members are equal. -/
theorem ascending_ext {α : Type} [LT α] [Std.Irrefl (α := α) (· < ·)]
    [Std.Antisymm (α := α) (· < ·)] {xs ys : List α} (hx : xs.Pairwise (· < ·))
    (hy : ys.Pairwise (· < ·)) (h : ∀ a, a ∈ xs ↔ a ∈ ys) : xs = ys :=
  List.Pairwise.eq_of_mem_iff hx hy h

/-- An ascending list holds nothing twice. -/
theorem nodup_of_ascending {α : Type} [LT α] [Std.Irrefl (α := α) (· < ·)] {xs : List α}
    (h : xs.Pairwise (· < ·)) : xs.Nodup := by
  refine List.Pairwise.imp ?_ h
  rintro a _ hlt rfl
  exact Std.Irrefl.irrefl (r := (· < ·)) a hlt

/-- A set of handles hands out its members in ascending order. -/
theorem ascending_toList (s : Std.TreeSet Handle) : s.toList.Pairwise (· < ·) :=
  s.ordered_toList.imp Handle.compare_eq_lt_iff.mp

/-- A table by handles hands out its keys in ascending order. -/
theorem ascending_keys {α : Type} (m : Std.TreeMap Handle α) : m.keys.Pairwise (· < ·) :=
  m.ordered_keys.imp Handle.compare_eq_lt_iff.mp

end TypedHypergraph
