/-
# Running commands

What an invocation prints, given the files that it reads and the variables of its environment.  A
command either fails or prints one text at its end.
-/
import TypedHypergraph.Command.Line
import TypedHypergraph.Form.Reply
import TypedHypergraph.Json.Printer
import TypedHypergraph.Settings.Toml

namespace TypedHypergraph

/-! ## Files -/

/-- What stands at a path. -/
inductive FileEntry
  /-- A file: where it really is, its size in bytes, and what it says if it is a text. -/
  | file (path : String) (bytes : Nat) (text : Option String)
  | directory
  | other
  deriving Repr

/-- What stands at each path. -/
abbrev Files := String → Except FileFault FileEntry

namespace Files

/-- The text at a path. -/
def read (files : Files) (path : String) : Except FileFault String := do
  match ← files path with
  | .file _ _ (some text) => return text
  | .file _ _ none => throw .notText
  | .directory => throw .isDirectory
  | .other => return ""

/-- The most bytes a script may have. -/
def scriptBytes : Nat := 100 * 1024 * 1024

/-- The text of a script. -/
def readScript (files : Files) (path : String) : Except Failure String := do
  match files path with
  | .error fault => throw (.noSuchPath path fault)
  | .ok .directory => throw (.notAFile path)
  | .ok .other => throw (.notAFile path)
  | .ok (.file real bytes text) => do
    if scriptBytes < bytes then
      throw (.fileTooLarge bytes scriptBytes)
    match text with
    | some text => return text
    | none => throw (.unreadable real .notText)

end Files

/-! ## Settings -/

/-- The settings of a file, or the standard ones, as the environment overrides them. -/
def Settings.load (files : Files) (lookup : String → Option String) (path : Option String) :
    Except SettingsFault Settings := do
  let settings ←
    match path with
    | none => pure Settings.standard
    | some path =>
      match files.read path with
      | .ok text => Settings.ofToml text
      | .error fault => throw (.unreadable path fault)
  match Settings.override lookup settings with
  | .error fault _ => throw fault
  | .ok _ settings => do
    settings.check
    return settings

/-! ## Texts -/

/-- Lines, each with its end. -/
def linesText (lines : List String) : String := String.join (lines.map (· ++ "\n"))

/-- The atoms of the variables of a row. -/
def Row.text (r : Row) : String :=
  "  " ++ " ".intercalate (r.values.toList.map fun (name, h) => name ++ "=" ++ toString h)

/-- The lines about an answer, given its place. -/
def Answer.lines (place : Nat) (a : Answer) : List String :=
  let truncated := if a.truncated then " (result cap reached)" else ""
  let exhausted := if a.exhausted then " (step cap reached)" else ""
  "" :: s!"Query {place}: {a.rows.length} solution(s){truncated}{exhausted}" :: a.rows.map Row.text

/-- The lines about a report, given how many atoms there are. -/
def Report.lines (size : Nat) (r : Report) : List String :=
  s!"Atoms:   {r.stored.length} inserted ({(r.stored.filter (·.created)).length} new)" ::
    s!"Store:   {size} atoms" ::
    r.answers.zipIdx.flatMap fun (a, place) => a.lines place

/-- What the server says before it listens. -/
def Settings.greeting (s : Settings) (types : Nat) : List String :=
  ["AtomSpace Server Starting...",
    "",
    "Configuration:",
    "  Host:        " ++ s.server.host,
    s!"  Port:        {s.server.port}",
    s!"  Types:       {types}",
    s!"  Max results: {s.query.results}",
    s!"  Max steps:   {s.query.steps}",
    "",
    "Endpoints:",
    "  POST /atoms              - Insert an atom",
    "  GET  /atoms/\x7bhandle\x7d     - Fetch an atom",
    "  PUT  /atoms/\x7bhandle\x7d/truth - Revise a truth value",
    "  POST /query              - Run a pattern query",
    "  GET  /types              - List types",
    "  GET  /status             - Store counts",
    "  GET  /health             - Health check",
    "",
    "Press Ctrl+C to stop",
    ""]

/-! ## Commands -/

namespace CommandLine

/-- The graph of some settings. -/
def build (s : Settings) : Except Failure (Graph Content.fingerprint) :=
  s.build.mapError .settings

/-- The settings of a server whose host and port are given on the command line. -/
def serverSettings (s : Settings) (host : Option String) (port : Option Nat) : Settings :=
  { s with server :=
    { s.server with host := host.getD s.server.host, port := port.getD s.server.port } }

/-- Show the types of some settings. -/
def showTypes (s : Settings) (jsonMode : Bool) : Except Failure String := do
  let graph ← build s
  if jsonMode then
    return (Json.arr (graph.types.declarations.map TypeDeclaration.toJson)).pretty ++ "\n"
  else
    return linesText graph.types.outline

/-- Run the script at a path. -/
def runScript (files : Files) (s : Settings) (path : String) (jsonMode : Bool) :
    Except Failure String := do
  let text ← files.readScript path
  match Reader.ofText Script.form.read text with
  | .error _ => throw .malformedScript
  | .ok script => do
    let graph ← build s
    match script.run s.caps graph with
    | .error refusal _ => throw (.store refusal)
    | .ok report graph =>
      if jsonMode then return report.toJson.pretty ++ "\n"
      else return linesText (report.lines graph.size)

/-- What an invocation prints under some settings.  Of a server this is what it says before it
listens. -/
def Invocation.output (i : Invocation) (files : Files) (s : Settings) : Except Failure String :=
  match i.command with
  | some (.server host port) => do
    let s := serverSettings s host port
    s.check.mapError .settings
    let graph ← build s
    return linesText (s.greeting graph.types.size)
  | some (.run path) => runScript files s path i.jsonMode
  | some .config => .ok s.toToml
  | some .types => showTypes s i.jsonMode
  | none => showTypes s i.jsonMode

end CommandLine

end TypedHypergraph
