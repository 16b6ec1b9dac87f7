/-
# Trees and their values

A value is the value of the tree that is made for it (`value?_ofValue`), and it has no numbers that
are not in a tree that it is the value of (`finite_of_value?`).  Numbers too great for a double are
kept apart in trees, so every number that a text can hold is finite (`Finite`).
-/
import Mathlib.Tactic
import TypedHypergraph.Json.Scanned

namespace TypedHypergraph

/-! ## Whole numbers -/

/-- A number up to a bound is read as it was written. -/
theorem Json.nat?_nat {most n : Nat} (h : n ≤ most) : (nat n).nat? most = some n := by
  rw [nat, nat?, if_pos ⟨Int.natCast_nonneg n, Int.ofNat_le.mpr h⟩, Int.toNat_natCast]

/-- A number that was read is within its bound. -/
theorem Json.le_of_nat? {most n : Nat} {v : Json} (h : v.nat? most = some n) : n ≤ most := by
  unfold nat? at h
  split at h
  case h_1 k =>
    rw [Option.ite_none_right_eq_some] at h
    obtain ⟨⟨-, le⟩, ⟨⟩⟩ := h
    exact Int.toNat_le.mpr le
  case h_2 => cases h

/-! ## Trees of values -/

namespace Scanned

mutual

/-- The value of a scanned value is the value. -/
theorem value?_ofValue : ∀ v : Json, (ofValue v).value? none = some v
  | .null => by rw [ofValue, value?]
  | .bool b => by rw [ofValue, value?]
  | .num n => by rw [ofValue, value?]
  | .str s => by rw [ofValue, value?]
  | .arr items => by
    rw [ofValue, value?, if_pos rfl]
    simp [Room.enter, values?_ofValues items]
  | .obj members => by
    rw [ofValue, value?, if_pos rfl]
    simp [Room.enter, memberValues?_ofMembers members]

/-- The values of several scanned values are the values. -/
theorem values?_ofValues : ∀ items : List Json, values? none (ofValues items) = some items
  | [] => by rw [ofValues, values?]
  | item :: rest => by
    rw [ofValues, values?]
    simp [value?_ofValue item, values?_ofValues rest]

/-- The values of scanned members are those of the members. -/
theorem memberValues?_ofMembers : ∀ members : List (String × Json),
    memberValues? none (ofMembers members) = some members
  | [] => by rw [ofMembers, memberValues?]
  | (name, value) :: rest => by
    rw [ofMembers, memberValues?]
    simp [value?_ofValue value, memberValues?_ofMembers rest]

end

/-- Several values are scanned one by one. -/
theorem ofValues_eq_map (items : List Json) : ofValues items = items.map ofValue := by
  induction items with
  | nil => rfl
  | cons item rest ih => rw [ofValues, List.map_cons, ih]

end Scanned

/-! ## Numbers of trees -/

namespace Scanned

mutual

/-- Every number in a tree is, as a double, finite. -/
def Finite : Scanned → Prop
  | num n => n.toFloat.isFinite = true
  | arr items _ => AllFinite items
  | obj members _ => MembersFinite members
  | _ => True

/-- All numbers in several parts are finite. -/
def AllFinite : List Scanned → Prop
  | [] => True
  | item :: rest => item.Finite ∧ AllFinite rest

/-- All numbers in the values of several members are finite. -/
def MembersFinite : List (Option String × Scanned) → Prop
  | [] => True
  | (_, value) :: rest => value.Finite ∧ MembersFinite rest

end

/-- Several parts are finite exactly if each of them is. -/
theorem allFinite_iff {items : List Scanned} : AllFinite items ↔ ∀ item ∈ items, item.Finite := by
  induction items with
  | nil => simp [AllFinite]
  | cons item rest ih => simp [AllFinite, ih]

mutual

/-- The value of a tree has no other numbers than the tree. -/
theorem finite_of_value? {room : Room} : ∀ {tree : Scanned} {v : Json}, tree.Finite →
    tree.value? room = some v → (ofValue v).Finite
  | .null, v, _, h => by
    rw [value?] at h
    cases h
    simp [ofValue, Finite]
  | .bool b, v, _, h => by
    rw [value?] at h
    cases h
    simp [ofValue, Finite]
  | .num n, v, hf, h => by
    rw [value?] at h
    cases h
    rw [ofValue]
    exact hf
  | .str s, v, _, h => by
    rw [value?] at h
    cases h
    simp [ofValue, Finite]
  | .arr items closed, v, hf, h => by
    rw [value?] at h
    simp only [Option.ite_none_right_eq_some, Option.bind_eq_bind, Option.bind_eq_some_iff,
      Option.pure_def, Option.some.injEq] at h
    obtain ⟨-, room', -, values, hvalues, rfl⟩ := h
    rw [Finite] at hf
    rw [ofValue, Finite]
    exact allFinite_of_values? hf hvalues
  | .obj members closed, v, hf, h => by
    rw [value?] at h
    simp only [Option.ite_none_right_eq_some, Option.bind_eq_bind, Option.bind_eq_some_iff,
      Option.pure_def, Option.some.injEq] at h
    obtain ⟨-, room', -, values, hvalues, rfl⟩ := h
    rw [Finite] at hf
    rw [ofValue, Finite]
    exact membersFinite_of_memberValues? hf hvalues
  | .oversized, v, _, h => by
    rw [value?] at h
    cases h
  | .unpaired, v, _, h => by
    rw [value?] at h
    cases h
  | .broken, v, _, h => by
    rw [value?] at h
    cases h

/-- Values of finite parts are finite. -/
theorem allFinite_of_values? {room : Room} : ∀ {items : List Scanned} {values : List Json},
    AllFinite items → values? room items = some values → AllFinite (ofValues values)
  | [], values, _, h => by
    rw [values?] at h
    cases h
    rw [ofValues, AllFinite]
    trivial
  | item :: rest, values, hf, h => by
    rw [values?] at h
    simp only [Option.bind_eq_bind, Option.bind_eq_some_iff, Option.pure_def,
      Option.some.injEq] at h
    obtain ⟨value, hvalue, more, hmore, rfl⟩ := h
    rw [AllFinite] at hf
    rw [ofValues, AllFinite]
    exact ⟨finite_of_value? hf.1 hvalue, allFinite_of_values? hf.2 hmore⟩

/-- Values of finite members are finite. -/
theorem membersFinite_of_memberValues? {room : Room} :
    ∀ {members : List (Option String × Scanned)} {values : List (String × Json)},
      MembersFinite members → memberValues? room members = some values →
        MembersFinite (ofMembers values)
  | [], values, _, h => by
    rw [memberValues?] at h
    cases h
    rw [ofMembers, MembersFinite]
    trivial
  | (name, item) :: rest, values, hf, h => by
    rw [memberValues?] at h
    simp only [Option.bind_eq_bind, Option.bind_eq_some_iff, Option.pure_def,
      Option.some.injEq] at h
    obtain ⟨name', -, value, hvalue, more, hmore, rfl⟩ := h
    rw [MembersFinite] at hf
    rw [ofMembers, MembersFinite]
    exact ⟨finite_of_value? hf.1 hvalue, membersFinite_of_memberValues? hf.2 hmore⟩

end

end Scanned

end TypedHypergraph
