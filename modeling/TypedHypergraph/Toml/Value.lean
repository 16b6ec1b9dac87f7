/-
# TOML documents

A document is a sequence of statements, each of which adds something to the table of the document: a
header opens a table or a further item of a list of tables, and an entry puts a value under a key of
the table that was opened last.

A statement must not change what another one has made complete.  Each table remembers how it came
about, since that decides what may still be added to it.
-/
import TypedHypergraph.Json.Scanned

namespace TypedHypergraph.Toml

/-! ## Values -/

/-- How a table came about. -/
inductive Origin
  /-- By a header of its own. -/
  | header
  /-- As a table on the way to one with a header. -/
  | passage
  /-- By a dotted key of an entry, which may also have put that entry into a table on the way. -/
  | dotted
  /-- As a value in braces. -/
  | inline
  deriving DecidableEq, Repr

/-- A value of a configuration file. -/
inductive Value
  | str (value : String)
  | int (value : Int)
  | float (value : Float)
  | bool (value : Bool)
  /-- A date, a time or both, as it is written. -/
  | moment (text : String)
  | array (items : List Value)
  | table (origin : Origin) (entries : List (String × Value))
  /-- A list of tables that was made by headers. -/
  | tables (items : List (List (String × Value)))
  deriving Repr, Inhabited

/-- The entries of a table, in the order of their keys' first occurrences. -/
abbrev Entries := List (String × Value)

namespace Entries

/-- The value under a key. -/
def find? (entries : Entries) (key : String) : Option Value :=
  (List.find? (·.1 = key) entries).map (·.2)

/-- Put another value under a key that is there. -/
def replace (entries : Entries) (key : String) (value : Value) : Entries :=
  entries.map fun entry => if entry.1 = key then (key, value) else entry

/-- Change the table at the end of a path.  Tables that are missing on the way are made.  A list of
tables stands for its last item.  A dotted key does not lead through a table with a header. -/
def changeAt (missing : Origin) (f : Origin → Entries → Option (Origin × Entries)) :
    List String → Origin → Entries → Option (Origin × Entries)
  | [], origin, entries => f origin entries
  | key :: path, origin, entries =>
    match entries.find? key with
    | none => do
      let (o, sub) ← changeAt missing f path missing []
      return (origin, entries ++ [(key, .table o sub)])
    | some (.table .inline _) => none
    | some (.table o sub) =>
      if missing = .dotted ∧ o = .header then none
      else do
        let (o, sub) ← changeAt missing f path o sub
        return (origin, entries.replace key (.table o sub))
    | some (.tables items) => do
      let (_, last) ← changeAt missing f path .header (items.getLastD [])
      return (origin, entries.replace key (.tables (items.dropLast ++ [last])))
    | some _ => none

/-- Put a value under a dotted key, given as the path before its last part and that part.  If there
is a path, the table that receives the value must have no header, and it counts as made by a dotted
key from then on. -/
def insert (path : List String) (key : String) (value : Value) :
    Origin → Entries → Option (Origin × Entries) :=
  changeAt .dotted
    (fun origin entries =>
      if (entries.find? key).isSome then none
      else if path.isEmpty then some (origin, entries ++ [(key, value)])
      else if origin = .header then none
      else some (.dotted, entries ++ [(key, value)]))
    path

/-- Open a table. -/
def openTable (path : List String) (key : String) (entries : Entries) : Option Entries :=
  (changeAt .passage
    (fun origin entries =>
      match entries.find? key with
      | none => some (origin, entries ++ [(key, .table .header [])])
      | some (.table .passage sub) => some (origin, entries.replace key (.table .header sub))
      | some _ => none)
    path .header entries).map (·.2)

/-- Open a further item of a list of tables. -/
def openItem (path : List String) (key : String) (entries : Entries) : Option Entries :=
  (changeAt .passage
    (fun origin entries =>
      match entries.find? key with
      | none => some (origin, entries ++ [(key, .tables [[]])])
      | some (.tables items) => some (origin, entries.replace key (.tables (items ++ [[]])))
      | some _ => none)
    path .header entries).map (·.2)

end Entries

/-- A dotted key: the parts before the last one, and the last one. -/
abbrev Key := List String × String

/-- The table in braces with some entries. -/
def inlineTable (entries : List (Key × Value)) : Option Value := do
  let (_, entries) ← entries.foldlM
    (fun (origin, table) (key, value) => Entries.insert key.1 key.2 value origin table)
    (Origin.passage, [])
  return .table .inline entries

/-! ## Documents -/

/-- A line of a configuration file: the header of a table or of an item of a list, or an entry. -/
inductive Statement
  | table (key : Key)
  | item (key : Key)
  | entry (key : Key) (value : Value)
  deriving Repr

/-- The table of a document, given the one that earlier statements made and the path of the table
that was opened last. -/
def assemble : List String → Entries → List Statement → Option Entries
  | _, entries, [] => some entries
  | _, entries, .table key :: rest => do
    assemble (key.1 ++ [key.2]) (← entries.openTable key.1 key.2) rest
  | _, entries, .item key :: rest => do
    assemble (key.1 ++ [key.2]) (← entries.openItem key.1 key.2) rest
  | place, entries, .entry key value :: rest => do
    let (_, entries) ← entries.changeAt .passage (Entries.insert key.1 key.2 value) place .header
    assemble place entries rest

/-! ## Trees -/

/-- Whole numbers beyond 128 bits cannot be read as anything. -/
def intTree (n : Int) : Scanned :=
  if -Int.pow 2 127 ≤ n ∧ n < Int.pow 2 128 then .num (.int n) else .broken

mutual

/-- The tree that a value is read from.  A date or time is like an object whose only member nobody
asks for. -/
def Value.toTree : Value → Scanned
  | .str s => .str s
  | .int n => intTree n
  | .float x => .num (.float x)
  | .bool b => .bool b
  | .moment text => .obj [(some "moment", .str text)] true
  | .array items => .arr (itemTrees items) true
  | .table _ entries => .obj (entryTrees entries) true
  | .tables items => .arr (tableTrees items) true

/-- Several items as scanned JSON. -/
def itemTrees : List Value → List Scanned
  | [] => []
  | item :: rest => item.toTree :: itemTrees rest

/-- Several entries as members of scanned JSON. -/
def entryTrees : List (String × Value) → List (Option String × Scanned)
  | [] => []
  | (key, value) :: rest => (some key, value.toTree) :: entryTrees rest

/-- Several tables as objects of scanned JSON. -/
def tableTrees : List (List (String × Value)) → List Scanned
  | [] => []
  | entries :: rest => .obj (entryTrees entries) true :: tableTrees rest

end

end TypedHypergraph.Toml
