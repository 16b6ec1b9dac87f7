/-
# Settings

What can be set from outside: where the server listens and whom it answers, how it writes its log,
the caps on every query, and the types that are declared at the start.
-/
import TypedHypergraph.Graph.Basic
import TypedHypergraph.Pattern.Basic
import TypedHypergraph.Service.Failure
import TypedHypergraph.Text.Blank

namespace TypedHypergraph

/-- How lines of the log are written. -/
inductive LogFormat
  | text
  | json
  deriving DecidableEq, Repr

/-- Where and how the server listens. -/
structure ServerSettings where
  host : String
  port : Nat
  /-- The origins that may read answers; a star stands for all. -/
  origins : List String
  /-- The most bytes the body of a request may have. -/
  bodyLimit : Nat
  deriving DecidableEq, Repr

/-- How the log is written. -/
structure LogSettings where
  format : LogFormat
  filter : String
  deriving DecidableEq, Repr

/-- The caps on every query. -/
structure QuerySettings where
  results : Nat
  steps : Nat
  deriving DecidableEq, Repr

/-- All settings of the service. -/
structure Settings where
  server : ServerSettings
  log : LogSettings
  query : QuerySettings
  /-- The types to be declared at the start, parents before children. -/
  types : List TypeDeclaration
  deriving DecidableEq, Repr

/-! ## Defaults -/

/-- The settings of the server when nothing is said. -/
def ServerSettings.standard : ServerSettings where
  host := "127.0.0.1"
  port := 8080
  origins :=
    ["http://localhost:3000", "http://localhost:8080", "http://127.0.0.1:3000",
      "http://127.0.0.1:8080"]
  bodyLimit := 2 * 1024 * 1024

/-- The settings of the log when nothing is said. -/
def LogSettings.standard : LogSettings where
  format := .text
  filter := "atomspace=info,atomspace_core=info,tower_http=debug"

/-- The caps on queries when nothing is said. -/
def QuerySettings.standard : QuerySettings := ⟨10000, 1000000⟩

/-- The settings when nothing is said. -/
def Settings.standard : Settings := ⟨.standard, .standard, .standard, []⟩

/-- The greatest number of a port. -/
def Limits.lastPort : Nat := UInt16.size - 1

/-- The word for a format of the log. -/
def LogFormat.name : LogFormat → String
  | .text => "text"
  | .json => "json"

/-- The format of the log that a word stands for. -/
def LogFormat.ofName? (s : String) : Option LogFormat :=
  [LogFormat.text, .json].find? (·.name = s)

namespace Settings

/-! ## Use -/

/-- The caps on every query. -/
def caps (s : Settings) : Caps := ⟨some s.query.results, some s.query.steps⟩

/-- The first fault that makes settings unusable. -/
def check (s : Settings) : Except SettingsFault Unit := do
  if s.server.port = 0 then
    throw .zeroPort
  if s.server.bodyLimit = 0 then
    throw .zeroBodyLimit
  if s.query.results = 0 || s.query.steps = 0 then
    throw .zeroCap
  match s.types.find? fun d => Text.isAllBlank d.name with
  | some d => throw (.blankTypeName d.parent)
  | none => return

variable {digest : Content → UInt64}

/-- Declare types one after the other. -/
def declareAll : List TypeDeclaration → Graph digest → Except SettingsFault (Graph digest)
  | [], g => .ok g
  | d :: rest, g =>
    match Graph.declareType d.name d.parent g with
    | .ok _ g => declareAll rest g
    | .error refusal _ => .error (.type d.name refusal)

/-- The graph with the types of the settings and no atoms. -/
def build (s : Settings) : Except SettingsFault (Graph digest) := declareAll s.types .empty

/-! ## Overriding -/

/-- Let a variable change settings, if it is set. -/
def overrideBy (lookup : String → Option String) (name : String)
    (change : String → Settings → Except SettingsFault Settings) :
    EStateM SettingsFault Settings Unit := fun s =>
  match lookup name with
  | none => .ok () s
  | some text =>
    match change text s with
    | .ok s => .ok () s
    | .error fault => .error fault s

/-- The origins in a text, which are separated by commas. -/
def originsOf (text : String) : List String :=
  ((Text.splitAt ',' text).map Text.trim).filter (!·.isEmpty)

/-- Let variables of the environment change settings, one after the other.  What was changed before
a fault stays changed. -/
def override (lookup : String → Option String) : EStateM SettingsFault Settings Unit := do
  overrideBy lookup "ATOMSPACE_HOST" fun text s =>
    .ok { s with server.host := text }
  overrideBy lookup "ATOMSPACE_PORT" fun text s =>
    match Decimal.readUnsigned Limits.lastPort text with
    | .ok port => .ok { s with server.port := port }
    | .error fault => .error (.port text fault)
  overrideBy lookup "ATOMSPACE_LOG_FORMAT" fun text s =>
    match LogFormat.ofName? text with
    | some format => .ok { s with log.format := format }
    | none => .error (.logFormat text)
  overrideBy lookup "ATOMSPACE_CORS_ORIGINS" fun text s =>
    .ok { s with server.origins := originsOf text }

end Settings

end TypedHypergraph
