/-
# Values that are recognised by their members

Descriptions, terms and targets carry no mark of their kind.  A reader tries one kind after the
other, and an object that has the members of several kinds is read as the first of them.  What was
written is never read as another kind: of all the attempts just one reads the members that are
written for a value, and it reads this value (`Unambiguous`).  So the order of the attempts does not
matter for what was written, on no level of a description or of a term.

A value can be written if its numbers fit into 64 bits (`Expressible`), and every value that is read
is of this sort.
-/
import TypedHypergraph.Form.Description
import TypedHypergraph.Form.Pattern
import TypedHypergraph.Proofs.Forms

namespace TypedHypergraph

/-! ## Attempts -/

/-- Just one of several attempts reads the members that are written for a value, and it reads the
value. -/
def Unambiguous {α : Type} (write : α → Json) (attempts : List (List (String × Json) → Option α))
    (a : α) : Prop :=
  ∃ members, write a = .obj members ∧ attempts.filterMap (· members) = [a]

/-- A reader makes several attempts at an object, and of what was written only one succeeds. -/
structure Untagged {α : Type} (write : α → Json) (read : Json → Option α)
    (attempts : List (List (String × Json) → Option α)) (Expressible : α → Prop) : Prop where
  /-- The first attempt that succeeds counts. -/
  tries : ∀ members, read (.obj members) = attempts.findSome? (· members)
  unambiguous : ∀ a, Expressible a → Unambiguous write attempts a

/-- What is written without ambiguity is read back by trying one attempt after the other. -/
theorem Unambiguous.read_eq {α : Type} {write : α → Json} {read : Json → Option α}
    {attempts : List (List (String × Json) → Option α)} {a : α}
    (h : Unambiguous write attempts a)
    (tries : ∀ members, read (.obj members) = attempts.findSome? (· members)) :
    read (write a) = some a := by
  obtain ⟨members, written, only⟩ := h
  rw [written, tries, ← List.head?_filterMap, only]
  rfl

/-- A reader that makes several attempts reads what was written, and it reads nothing else if no
attempt does. -/
theorem Untagged.lawful {α : Type} {write : α → Json} {read : Json → Option α}
    {attempts : List (List (String × Json) → Option α)} {Expressible : α → Prop}
    (untagged : Untagged write read attempts Expressible)
    (expressible : ∀ v a, read v = some a → Expressible a) :
    (Reader.ofJson read).Lawful write Expressible :=
  Reader.lawful_ofJson (fun a ha => (untagged.unambiguous a ha).read_eq untagged.tries) expressible

/-! ## Trees of atoms -/

namespace Recogniser

variable {α : Type} {r : Recogniser α} {write : α → Json} {P : α → Prop}

/-- The link that an object describes. -/
def linkOf? (r : Recogniser α) (members : List (String × Json)) : Option α := do
  let typeName ← (← Json.only? "type" members).str?
  return r.link typeName (← r.outgoing? members)

/-- What an object is tried as, in this order. -/
def attempts (r : Recogniser α) : List (List (String × Json) → Option α) :=
  r.storedOf? :: r.further ++ [r.nodeOf?, r.linkOf?]

/-- **An object is read** by the first attempt that succeeds. -/
theorem ofJson?_obj (r : Recogniser α) (members : List (String × Json)) :
    r.ofJson? (.obj members) = r.attempts.findSome? (· members) := by
  rw [ofJson?, attempts, List.cons_append, List.findSome?_cons, List.findSome?_append]
  cases r.storedOf? members with
  | some a => rfl
  | none =>
    cases r.further.findSome? (· members) with
    | some a => rfl
    | none =>
      rw [List.findSome?_cons]
      cases r.nodeOf? members with
      | some a => rfl
      | none => simp [linkOf?]

/-! ### What was written -/

/-- Stored atoms, nodes and links are written so that they can be recognised, and all further kinds
have a member of their own. -/
structure Writes (r : Recogniser α) (write : α → Json) : Prop where
  stored : ∀ h, write (r.stored h) = .obj [("handle", .nat h.value)]
  node : ∀ typeName name,
    write (r.node typeName name) = .obj [("type", .str typeName), ("name", .str name)]
  link : ∀ typeName members, write (r.link typeName members)
    = .obj [("type", .str typeName), ("outgoing", .arr (members.map write))]
  apart : ∀ members, Json.only? "var" members = none →
    ∀ attempt ∈ r.further, attempt members = none

/-- What was written item by item is read item by item. -/
theorem ofItems?_map {items : List α} (each : ∀ a ∈ items, r.ofJson? (write a) = some a) :
    r.ofItems? (items.map write) = some items := by
  induction items with
  | nil => rfl
  | cons a rest ih =>
    rw [List.forall_mem_cons] at each
    rw [List.map_cons, ofItems?, each.1, ih each.2]
    rfl

namespace Writes

/-- No further kind is seen in an object without the member of its own. -/
theorem filterMap_further (writes : r.Writes write) (members : List (String × Json))
    (none : Json.only? "var" members = .none) : r.further.filterMap (· members) = [] :=
  List.filterMap_eq_nil_iff.mpr (writes.apart members none)

/-- A reference to an atom is recognised by its first attempt. -/
theorem unambiguous_stored (writes : r.Writes write) {h : Handle}
    (fits : h.value ≤ Limits.lastHandle) : Unambiguous write r.attempts (r.stored h) := by
  refine ⟨_, writes.stored h, ?_⟩
  have others := writes.filterMap_further [("handle", .nat h.value)] rfl
  simp [attempts, others, storedOf?, nodeOf?, linkOf?, Json.only?, Json.nat?_nat fits]

/-- A node is recognised, since its object has no member that earlier attempts look for. -/
theorem unambiguous_node (writes : r.Writes write) (typeName name : String) :
    Unambiguous write r.attempts (r.node typeName name) := by
  refine ⟨_, writes.node typeName name, ?_⟩
  have others := writes.filterMap_further [("type", .str typeName), ("name", .str name)] rfl
  simp [attempts, others, storedOf?, nodeOf?, linkOf?, outgoing?, Json.only?, Json.str?]

/-- A link is recognised if each of its members is. -/
theorem unambiguous_link (writes : r.Writes write) (typeName : String) {members : List α}
    (each : ∀ a ∈ members, Unambiguous write r.attempts a) :
    Unambiguous write r.attempts (r.link typeName members) := by
  refine ⟨_, writes.link typeName members, ?_⟩
  have others := writes.filterMap_further
    [("type", .str typeName), ("outgoing", .arr (members.map write))] rfl
  have back : r.ofItems? (members.map write) = some members :=
    ofItems?_map fun a ha => (each a ha).read_eq r.ofJson?_obj
  simp [attempts, others, storedOf?, nodeOf?, linkOf?, outgoing?, Json.only?, Json.str?, back]

end Writes

/-! ### What is read -/

/-- A property holds of all that a recogniser can make, if it holds of the members of a link. -/
structure Admits (r : Recogniser α) (P : α → Prop) : Prop where
  stored : ∀ h : Handle, h.value ≤ Limits.lastHandle → P (r.stored h)
  node : ∀ typeName name, P (r.node typeName name)
  link : ∀ typeName members, (∀ a ∈ members, P a) → P (r.link typeName members)
  further : ∀ attempt ∈ r.further, ∀ members a, attempt members = some a → P a

namespace Admits

mutual

/-- **Whatever is recognised** has the property, -/
theorem of_ofJson? (admits : r.Admits P) : ∀ {v : Json} {a : α}, r.ofJson? v = some a → P a
  | .obj members, a, h => by
    rw [ofJson?_obj] at h
    obtain ⟨attempt, mem, h⟩ := List.exists_of_findSome?_eq_some h
    simp only [attempts, List.cons_append, List.mem_cons, List.mem_append, List.not_mem_nil,
      or_false] at mem
    obtain rfl | mem | rfl | rfl := mem
    · simp only [storedOf?, Option.bind_eq_bind, Option.bind_eq_some_iff, Option.pure_def,
        Option.some.injEq] at h
      obtain ⟨v, -, n, fits, rfl⟩ := h
      exact admits.stored _ (Json.le_of_nat? fits)
    · exact admits.further attempt mem members a h
    · simp only [nodeOf?, Option.bind_eq_bind, Option.bind_eq_some_iff, Option.pure_def,
        Option.some.injEq] at h
      obtain ⟨_, -, typeName, -, _, -, name, -, rfl⟩ := h
      exact admits.node typeName name
    · simp only [linkOf?, Option.bind_eq_bind, Option.bind_eq_some_iff, Option.pure_def,
        Option.some.injEq] at h
      obtain ⟨_, -, typeName, -, items, hitems, rfl⟩ := h
      exact admits.link typeName items (admits.of_outgoing? hitems)
  | .null, _, h | .bool _, _, h | .num _, _, h | .str _, _, h | .arr _, _, h => by
    rw [ofJson?.eq_2 _ _ (by simp)] at h
    cases h

/-- so have the items of a list -/
theorem of_ofItems? (admits : r.Admits P) : ∀ {items : List Json} {found : List α},
    r.ofItems? items = some found → ∀ a ∈ found, P a
  | [], found, h => by
    rw [ofItems?] at h
    cases h
    simp
  | item :: rest, found, h => by
    rw [ofItems?] at h
    simp only [Option.bind_eq_bind, Option.bind_eq_some_iff, Option.pure_def,
      Option.some.injEq] at h
    obtain ⟨a, ha, more, hmore, rfl⟩ := h
    rw [List.forall_mem_cons]
    exact ⟨admits.of_ofJson? ha, admits.of_ofItems? hmore⟩

/-- and the members of a link. -/
theorem of_outgoing? (admits : r.Admits P) : ∀ {members : List (String × Json)} {found : List α},
    r.outgoing? members = some found → ∀ a ∈ found, P a
  | [], found, h => by
    rw [outgoing?] at h
    cases h
  | (name, value) :: rest, found, h => by
    cases value with
    | arr items =>
      rw [outgoing?] at h
      split at h
      · split at h
        · cases h
        · exact admits.of_ofItems? h
      · exact admits.of_outgoing? h
    | _ =>
      rw [outgoing?.eq_3 _ _ _ _ (by simp), Option.ite_none_left_eq_some] at h
      exact admits.of_outgoing? h.2

end

end Admits

end Recogniser

/-! ## Descriptions -/

namespace Description

/-- All handles of a description fit into 64 bits. -/
inductive Expressible : Description → Prop
  | node (typeName name : String) : Expressible (.node typeName name)
  | link {typeName : String} {members : List Description} (each : ∀ d ∈ members, Expressible d) :
      Expressible (.link typeName members)
  | stored {h : Handle} (fits : h.value ≤ Limits.lastHandle) : Expressible (.stored h)

/-- What an object is tried as: a stored atom, a node and a link, in this order. -/
def attempts : List (List (String × Json) → Option Description) := recogniser.attempts

/-- Several descriptions are written one by one. -/
theorem toJsonAll_eq_map (ds : List Description) : toJsonAll ds = ds.map toJson := by
  induction ds with
  | nil => rfl
  | cons d rest ih => rw [toJsonAll, ih, List.map_cons]

/-- Descriptions are written as their recogniser expects them. -/
theorem writes : recogniser.Writes toJson where
  stored _ := by rw [recogniser, toJson]
  node _ _ := by rw [recogniser, toJson]
  link _ _ := by rw [recogniser, toJson, toJsonAll_eq_map]
  apart _ _ _ mem := absurd mem List.not_mem_nil

/-- **No kind of description is taken for another one.** -/
theorem Expressible.unambiguous {d : Description} (h : d.Expressible) :
    Unambiguous toJson attempts d := by
  induction h with
  | node typeName name => exact writes.unambiguous_node typeName name
  | link _ ih => exact writes.unambiguous_link _ ih
  | stored fits => exact writes.unambiguous_stored fits

/-- What the recogniser makes of JSON can be written down again. -/
theorem admits : recogniser.Admits Expressible where
  stored _ := .stored
  node := .node
  link _ _ := .link
  further _ mem := absurd mem List.not_mem_nil

/-- The variants of descriptions are told apart by the members of their objects. -/
theorem untagged : Untagged toJson ofJson? attempts Expressible :=
  ⟨recogniser.ofJson?_obj, fun _ h => h.unambiguous⟩

/-- **Descriptions** are read back as they were written, and nothing else is read. -/
theorem lawful_read : read.Lawful toJson Expressible :=
  untagged.lawful fun _ _ => admits.of_ofJson?

end Description

/-! ## Terms -/

namespace Term

/-- All handles of a term fit into 64 bits. -/
inductive Expressible : Term → Prop
  | stored {h : Handle} (fits : h.value ≤ Limits.lastHandle) : Expressible (.stored h)
  | var (v : Variable) : Expressible (.var v)
  | node (typeName name : String) : Expressible (.node typeName name)
  | link {typeName : String} {members : List Term} (each : ∀ t ∈ members, Expressible t) :
      Expressible (.link typeName members)

/-- What an object is tried as: a stored atom, a variable, a node and a link, in this order. -/
def attempts : List (List (String × Json) → Option Term) := recogniser.attempts

/-- Several terms are written one by one. -/
theorem toJsonAll_eq_map (ts : List Term) : toJsonAll ts = ts.map toJson := by
  induction ts with
  | nil => rfl
  | cons t rest ih => rw [toJsonAll, ih, List.map_cons]

/-- What is recognised as a variable is one. -/
theorem eq_var_of_varOf? {members : List (String × Json)} {t : Term} (h : varOf? members = some t) :
    ∃ v, t = .var v := by
  simp only [varOf?, Option.bind_eq_bind, Option.bind_eq_some_iff] at h
  obtain ⟨_, -, name, -, type, -, h⟩ := h
  cases type with
  | none =>
    cases h
    exact ⟨_, rfl⟩
  | some type =>
    simp only [Option.bind_eq_some_iff, Option.pure_def, Option.some.injEq] at h
    obtain ⟨typeName, -, rfl⟩ := h
    exact ⟨_, rfl⟩

/-- Terms are written as their recogniser expects them. -/
theorem writes : recogniser.Writes toJson where
  stored _ := by rw [recogniser, toJson]
  node _ _ := by rw [recogniser, toJson]
  link _ _ := by rw [recogniser, toJson, toJsonAll_eq_map]
  apart members missing attempt mem := by
    rw [List.mem_singleton.mp mem, varOf?, missing]
    rfl

/-- **No kind of term is taken for another one**: a variable with a type has no name of a node and
no members, and nothing else has the name of a variable. -/
theorem Expressible.unambiguous {t : Term} (h : t.Expressible) :
    Unambiguous toJson attempts t := by
  induction h with
  | stored fits => exact writes.unambiguous_stored fits
  | var v =>
    obtain ⟨name, typeName⟩ := v
    refine ⟨_, by rw [toJson], ?_⟩
    cases typeName <;>
      simp [attempts, Recogniser.attempts, recogniser, Recogniser.storedOf?, varOf?,
        Recogniser.nodeOf?, Recogniser.linkOf?, Recogniser.outgoing?, Json.only?, Json.atMost?,
        Json.str?, Json.member?]
  | node typeName name => exact writes.unambiguous_node typeName name
  | link _ ih => exact writes.unambiguous_link _ ih

/-- What the recogniser makes of JSON can be written down again. -/
theorem admits : recogniser.Admits Expressible where
  stored _ := .stored
  node := .node
  link _ _ := .link
  further attempt mem members t h := by
    rw [List.mem_singleton.mp mem] at h
    obtain ⟨v, rfl⟩ := eq_var_of_varOf? h
    exact .var v

/-- The variants of terms are told apart by the members of their objects. -/
theorem untagged : Untagged toJson ofJson? attempts Expressible :=
  ⟨recogniser.ofJson?_obj, fun _ h => h.unambiguous⟩

/-- **Terms** are read back as they were written, and nothing else is read. -/
theorem lawful_read : read.Lawful toJson Expressible :=
  untagged.lawful fun _ _ => admits.of_ofJson?

end Term

/-! ## Targets -/

namespace Target

/-- The index of a clause fits into 64 bits. -/
inductive Expressible : Target → Prop
  | var (name : String) : Expressible (.var name)
  | clause {index : Nat} (fits : index ≤ Limits.lastCount) : Expressible (.clause index)

/-- The variable that an object names. -/
def varOf? (members : List (String × Json)) : Option Target :=
  ((Json.only? "var" members).bind Json.str?).map .var

/-- The clause that an object names. -/
def clauseOf? (members : List (String × Json)) : Option Target :=
  ((Json.only? "clause" members).bind (Json.nat? Limits.lastCount)).map .clause

/-- What an object is tried as, in this order. -/
def attempts : List (List (String × Json) → Option Target) := [varOf?, clauseOf?]

/-- A target is read by trying a variable and then a clause. -/
theorem ofJson?_obj (members : List (String × Json)) :
    ofJson? (.obj members) = attempts.findSome? (· members) := by
  show (varOf? members <|> clauseOf? members) = _
  simp only [attempts, List.findSome?]
  cases varOf? members with
  | some t => rfl
  | none => cases clauseOf? members <;> rfl

/-- A target that can be written down is written without ambiguity. -/
theorem Expressible.unambiguous {t : Target} (h : t.Expressible) :
    Unambiguous toJson attempts t := by
  cases h with
  | var name =>
    refine ⟨_, rfl, ?_⟩
    simp [attempts, varOf?, clauseOf?, Json.only?, Json.str?]
  | clause fits =>
    refine ⟨_, rfl, ?_⟩
    simp [attempts, varOf?, clauseOf?, Json.only?, Json.nat?_nat fits]

/-- A target that was read can be written down again. -/
theorem expressible_of_ofJson? {v : Json} {t : Target} (h : ofJson? v = some t) :
    t.Expressible := by
  cases v with
  | obj members =>
    rw [ofJson?_obj] at h
    obtain ⟨attempt, mem, h⟩ := List.exists_of_findSome?_eq_some h
    simp only [attempts, List.mem_cons, List.not_mem_nil, or_false] at mem
    obtain rfl | rfl := mem
    · obtain ⟨name, -, rfl⟩ := Option.map_eq_some_iff.mp h
      exact .var name
    · obtain ⟨n, hn, rfl⟩ := Option.map_eq_some_iff.mp h
      obtain ⟨v, -, fits⟩ := Option.bind_eq_some_iff.mp hn
      exact .clause (Json.le_of_nat? fits)
  | _ => cases h

/-- The variants of targets are told apart by the members of their objects. -/
theorem untagged : Untagged toJson ofJson? attempts Expressible :=
  ⟨ofJson?_obj, fun _ h => h.unambiguous⟩

/-- **Targets** are read back as they were written, and nothing else is read. -/
theorem lawful_read : read.Lawful toJson Expressible :=
  untagged.lawful fun _ _ => expressible_of_ofJson?

end Target

end TypedHypergraph
