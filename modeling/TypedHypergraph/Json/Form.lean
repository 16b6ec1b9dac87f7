/-
# Readers of trees

A reader makes a value of the library out of a tree.  It goes through the tree in the order of the
text and stops at the first fault.

A *form* lists the named fields of a record.  A record is written as an object, whose members may
come in any order and of which unknown ones are skipped, or as a list of the fields in their order,
of which the last ones may be missing.  Forms are put together from single fields with `Form.both`.
-/
import TypedHypergraph.Json.Reader

namespace TypedHypergraph

/-! ## Readers -/

/-- What a reader of a tree lets pass. -/
structure Manner where
  /-- How deep the tree may be. -/
  room : Scanned.Room
  /-- Whether a list may hold more items than the record that it stands for has fields. -/
  surplus : Bool
  /-- Whether a list may stand for a record behind a tag. -/
  taggedLists : Bool
  deriving Repr

namespace Manner

/-- Values that do not come from a text may have any depth. -/
def free : Manner := ⟨none, false, false⟩

/-- A JSON text has at most 127 levels. -/
def text : Manner := ⟨some 127, false, true⟩

/-- A TOML document has its own bound on levels, and of a list that is too long the end is
skipped. -/
def document : Manner := ⟨none, true, false⟩

/-- The manner inside of a list or object. -/
def enter (m : Manner) : Except ReadFault Manner :=
  match m.room.enter with
  | some room => .ok { m with room }
  | none => .error .syntactic

end Manner

/-- A way to read a value out of what was scanned. -/
abbrev Reader (α : Type) := Manner → Scanned → Except ReadFault α

/-- The fault of a tree that is not of the kind that is wanted.  What is no value is not JSON,
whatever is wanted; of lists and objects only the beginning is looked at. -/
def Scanned.fault : Scanned → ReadFault
  | oversized => .syntactic
  | unpaired => .syntactic
  | broken => .syntactic
  | _ => .mismatch

/-- Whether a tree is a list or an object without anything in it. -/
def Scanned.isVoid : Scanned → Bool
  | arr [] true => true
  | obj [] true => true
  | _ => false

namespace Reader

variable {α β : Type}

/-- The reader of texts. -/
def text : Reader String
  | _, .str s => .ok s
  | _, tree => .error tree.fault

/-- The reader of truth flags. -/
def flag : Reader Bool
  | _, .bool b => .ok b
  | _, tree => .error tree.fault

/-- A whole number from zero up to a bound. -/
def upTo (most : Nat) : Reader Nat
  | _, .num n =>
    match (Json.num n).nat? most with
    | some n => .ok n
    | none => .error .mismatch
  | _, tree => .error tree.fault

/-- A number of any kind. -/
def float : Reader Float
  | _, .num n => .ok n.toFloat
  | _, tree => .error tree.fault

/-- A value or null. -/
def nullable (read : Reader α) : Reader (Option α)
  | _, .null => .ok none
  | m, tree => (read m tree).map some

/-- A list of values of one kind. -/
def list (read : Reader α) : Reader (List α)
  | m, .arr items closed => do
    let m ← m.enter
    let values ← items.mapM (read m)
    if closed then return values else throw .syntactic
  | _, tree => .error tree.fault

/-- A value that is made ready as a whole before it is looked at. -/
def ofJson (read : Json → Option α) : Reader α := fun m tree =>
  match tree.value? m.room with
  | none => .error .syntactic
  | some value =>
    match read value with
    | some a => .ok a
    | none => .error .mismatch

/-- Read a text that has to be JSON from its beginning to its end. -/
def ofText (read : Reader α) (s : String) : Except ReadFault α :=
  let (tree, complete) := Scanned.ofText s
  match read .text tree with
  | .error fault => .error fault
  | .ok a => if complete then .ok a else .error .syntactic

/-- Read a value and look at it again. -/
def check (read : Reader α) (f : α → Option β) : Reader β := fun m tree => do
  match f (← read m tree) with
  | some b => return b
  | none => throw .mismatch

end Reader

/-! ## Fields and forms -/

/-- A field of a record. -/
structure Field (α : Type) where
  name : String
  read : Reader α
  /-- The value if an object has no such member. -/
  absent : Option α
  /-- The value if a list ends before this field. -/
  omitted : Option α

namespace Field

variable {α : Type}

/-- A field that has to be there. -/
def required (name : String) (read : Reader α) : Field α := ⟨name, read, none, none⟩

/-- A field that has a value also if it is not there. -/
def withDefault (name : String) (read : Reader α) (value : α) : Field α :=
  ⟨name, read, some value, some value⟩

/-- A field that may be missing or null. -/
def optional (name : String) (read : Reader α) : Field (Option α) :=
  withDefault name (Reader.nullable read) none

/-- A field that may be missing from an object or null, but not missing from a list. -/
def nullable (name : String) (read : Reader α) : Field (Option α) :=
  ⟨name, Reader.nullable read, some none, none⟩

end Field

/-- The fields of a record, which are read one by one into a draft. -/
structure Form (α : Type) where
  Draft : Type
  /-- No field has been read. -/
  blank : Draft
  /-- How to read the member of a name, if there is a field of that name. -/
  accept : Draft → String → Option (Manner → Scanned → Except ReadFault Draft)
  /-- The record that a draft stands for. -/
  finish : Draft → Except ReadFault α
  /-- Take the fields from the beginning of a list, of which it is known whether it is closed. -/
  take : Manner → Bool → List Scanned → Except ReadFault (α × List Scanned)

namespace Form

variable {α β γ : Type}

/-! ### Building -/

/-- A value that has to be there. -/
def orMismatch : Option α → Except ReadFault α
  | some a => .ok a
  | none => .error .mismatch

/-- The form with a single field.  A field that is given twice is not read again. -/
def field (f : Field α) : Form α where
  Draft := Option α
  blank := none
  accept draft name :=
    if name = f.name then
      some fun m tree =>
        match draft with
        | some _ => .error .mismatch
        | none => (f.read m tree).map some
    else none
  finish draft := orMismatch (draft <|> f.absent)
  take m closed
    | [] => do
      unless closed do
        throw .syntactic
      return (← orMismatch f.omitted, [])
    | item :: rest => return (← f.read m item, rest)

/-- The fields of one form and then those of another. -/
def both (r : Form α) (s : Form β) : Form (α × β) where
  Draft := r.Draft × s.Draft
  blank := (r.blank, s.blank)
  accept draft name :=
    match r.accept draft.1 name with
    | some read => some fun m tree => return (← read m tree, draft.2)
    | none =>
      match s.accept draft.2 name with
      | some read => some fun m tree => return (draft.1, ← read m tree)
      | none => none
  finish draft := return (← r.finish draft.1, ← s.finish draft.2)
  take m closed items := do
    let (a, items) ← r.take m closed items
    let (b, items) ← s.take m closed items
    return ((a, b), items)

/-- The same fields with another meaning. -/
def map (f : α → β) (r : Form α) : Form β where
  Draft := r.Draft
  blank := r.blank
  accept := r.accept
  finish draft := (r.finish draft).map f
  take m closed items := (r.take m closed items).map fun (a, rest) => (f a, rest)

/-- A form with two fields. -/
def two (f : Field α) (g : Field β) : Form (α × β) := both (field f) (field g)

/-- A form with three fields. -/
def three (f : Field α) (g : Field β) (h : Field γ) : Form (α × β × γ) :=
  both (field f) (two g h)

/-! ### Reading -/

/-- Read the members of an object into a draft. -/
def fill (r : Form α) (m : Manner) :
    r.Draft → List (Option String × Scanned) → Except ReadFault r.Draft
  | draft, [] => .ok draft
  | _, (none, _) :: _ => .error .syntactic
  | draft, (some name, value) :: rest =>
    match r.accept draft name with
    | some read =>
      match read m value with
      | .ok draft => r.fill m draft rest
      | .error fault => .error fault
    | none => if value.isWhole then r.fill m draft rest else .error .syntactic

/-- Read a record. -/
def read (r : Form α) : Reader α
  | m, .obj members closed => do
    let inner ← m.enter
    let draft ← r.fill inner r.blank members
    if closed then r.finish draft else throw .syntactic
  | m, .arr items closed => do
    let inner ← m.enter
    let (a, rest) ← r.take inner closed items
    if closed && (rest.isEmpty || m.surplus) then return a else throw .syntactic
  | _, tree => .error tree.fault

/-- Read a record behind a tag. -/
def readTagged (r : Form α) : Reader α
  | m, .arr items closed =>
    if m.taggedLists then r.read m (.arr items closed) else .error .mismatch
  | m, tree => r.read m tree

/-- Read a record from a value that has been read before. -/
def ofJson? (r : Form α) (value : Json) : Option α :=
  match r.read .free (.ofValue value) with
  | .ok a => some a
  | .error _ => none

end Form

end TypedHypergraph
