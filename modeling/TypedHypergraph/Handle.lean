/-
# Handles and type identifiers

Atoms are named by handles and types by identifiers.  Both are numbers that are given out in
order and never taken back, so that comparing two of them compares their age.  They are kept
apart as types, since a number of the one kind means nothing in the other.

The order of each kind is the order of its numbers; it is transitive and separates unequal
values, which is what the sorted maps and sets of the library ask of their keys.
-/
import Std.Data.TreeMap
import Std.Data.TreeSet

namespace TypedHypergraph

/-! ## Handles -/

/-- The name of an atom in a graph. -/
structure Handle where
  value : Nat
  deriving DecidableEq, Repr, Inhabited

namespace Handle

/-- Handles are sorted by their numbers. -/
instance : Ord Handle := ⟨compareOn Handle.value⟩

/-- A handle that was given out earlier is smaller. -/
instance : LT Handle := ⟨fun a b => a.value < b.value⟩

/-- Handles are at most equal as their numbers are. -/
instance : LE Handle := ⟨fun a b => a.value ≤ b.value⟩

/-- Numbers decide which of two handles is smaller. -/
instance (a b : Handle) : Decidable (a < b) := inferInstanceAs (Decidable (a.value < b.value))

/-- Numbers decide whether one handle is at most another. -/
instance (a b : Handle) : Decidable (a ≤ b) := inferInstanceAs (Decidable (a.value ≤ b.value))

/-- The order of handles is transitive, as sorted maps ask of their keys. -/
instance : Std.TransOrd Handle := inferInstanceAs (Std.TransCmp (compareOn Handle.value))

/-- Two handles compare as their numbers do. -/
theorem compare_eq (a b : Handle) : compare a b = compare a.value b.value := rfl

/-- Handles that compare equal are equal, as sorted maps ask of their keys. -/
instance : Std.LawfulEqOrd Handle where
  eq_of_compare {a b} h := by
    have : a.value = b.value := Std.LawfulEqOrd.eq_of_compare h
    cases a; cases b; simp_all

/-- Comparing handles agrees with their order. -/
theorem compare_eq_lt_iff {a b : Handle} : compare a b = .lt ↔ a < b := by
  rw [compare_eq]; exact Nat.compare_eq_lt

/-- A handle is written as its number behind a hash sign. -/
instance : ToString Handle := ⟨fun h => s!"#{h.value}"⟩

end Handle

/-! ## Type identifiers -/

/-- The name of a declared type: its place in the order of declaration.  The place is a natural
number without a bound; an identifier of 32 bits tells types apart only as long as fewer than 2^32
of them are declared. -/
structure TypeId where
  index : Nat
  deriving DecidableEq, Repr, Inhabited

namespace TypeId

/-- Identifiers of types are sorted by their numbers. -/
instance : Ord TypeId := ⟨compareOn TypeId.index⟩

/-- A type that was declared earlier has the smaller identifier. -/
instance : LT TypeId := ⟨fun a b => a.index < b.index⟩

/-- Identifiers are at most equal as their numbers are. -/
instance : LE TypeId := ⟨fun a b => a.index ≤ b.index⟩

/-- Numbers decide which of two identifiers is smaller. -/
instance (a b : TypeId) : Decidable (a < b) := inferInstanceAs (Decidable (a.index < b.index))

/-- Numbers decide whether one identifier is at most another. -/
instance (a b : TypeId) : Decidable (a ≤ b) := inferInstanceAs (Decidable (a.index ≤ b.index))

/-- The order of identifiers is transitive, as sorted maps ask of their keys. -/
instance : Std.TransOrd TypeId := inferInstanceAs (Std.TransCmp (compareOn TypeId.index))

/-- Two identifiers compare as their numbers do. -/
theorem compare_eq (a b : TypeId) : compare a b = compare a.index b.index := rfl

/-- Identifiers that compare equal are equal, as sorted maps ask of their keys. -/
instance : Std.LawfulEqOrd TypeId where
  eq_of_compare {a b} h := by
    have : a.index = b.index := Std.LawfulEqOrd.eq_of_compare h
    cases a; cases b; simp_all

/-- Comparing identifiers agrees with their order. -/
theorem compare_eq_lt_iff {a b : TypeId} : compare a b = .lt ↔ a < b := by
  rw [compare_eq]; exact Nat.compare_eq_lt

/-- The root of the hierarchy. -/
def atom : TypeId := ⟨0⟩

/-- The ancestor of every type whose atoms are named. -/
def node : TypeId := ⟨1⟩

/-- The ancestor of every type whose atoms have members. -/
def link : TypeId := ⟨2⟩

/-- The ancestor of the types of pattern variables, whose atoms are never stored. -/
def variableNode : TypeId := ⟨3⟩

end TypeId

end TypedHypergraph
