/-
# The program

Reads the command line, the files that it names and the environment, and prints what the command
says.  All decisions are made elsewhere; listening for requests is left to whoever embeds
`Http.Server`.
-/
import TypedHypergraph.Command.Run

namespace TypedHypergraph.Program

open CommandLine

/-! ## Files and environment -/

/-- The cause of an error that a file system reports. -/
def faultOf : IO.Error → FileFault
  | .noFileOrDirectory _ _ _ => .notFound
  | .noSuchThing _ _ _ => .notFound
  | .inappropriateType _ _ _ => .notADirectory
  | .invalidArgument _ 36 _ => .nameTooLong
  | e => .other (toString e)

/-- Look at what stands at a path. -/
def lookAt (path : String) : IO (Except FileFault FileEntry) := do
  if path.contains '\x00' then
    return .error .unusableName
  try
    let real ← IO.FS.realPath path
    let data ← real.metadata
    match data.type with
    | .dir => return .ok .directory
    | .file =>
      let bytes ← IO.FS.readBinFile real
      return .ok (.file real.toString bytes.size (String.fromUTF8? bytes))
    | _ => return .ok .other
  catch e =>
    return .error (faultOf e)

/-- The paths that an invocation names. -/
def pathsOf (i : Invocation) : List String :=
  i.config.toList ++
    match i.command with
    | some (.run path) => [path]
    | _ => []

/-- What stands at each of some paths. -/
def lookAtAll (paths : List String) : IO Files := do
  let entries ← paths.mapM fun path => return (path, ← lookAt path)
  return fun path => ((entries.find? (·.1 = path)).map (·.2)).getD (.error .notFound)

/-- The variables of the environment that override settings. -/
def environment : IO (String → Option String) := do
  let names :=
    ["ATOMSPACE_HOST", "ATOMSPACE_PORT", "ATOMSPACE_LOG_FORMAT", "ATOMSPACE_CORS_ORIGINS"]
  let values ← names.mapM fun name => return (name, ← IO.getEnv name)
  return fun name => (values.find? (·.1 = name)).bind (·.2)

/-! ## Texts -/

/-- The help text. -/
def usage : String :=
  "Usage: atomspace [OPTIONS] [COMMAND]\n\n" ++
  "Commands:\n" ++
  "  server  Start HTTP server (-H, --host <HOST>; -p, --port <PORT>)\n" ++
  "  run     Run a JSON script against a fresh store (-f, --file <FILE>)\n" ++
  "  types   Show the configured type hierarchy\n" ++
  "  config  Print the effective configuration\n" ++
  "  help    Print this message\n\n" ++
  "Options:\n" ++
  "  -v, --verbose          Enable verbose output\n" ++
  "  -q, --quiet            Suppress banner output\n" ++
  "  -c, --config <CONFIG>  Path to a TOML configuration file\n" ++
  "      --json-mode        Output in JSON format (for programmatic access)\n" ++
  "  -h, --help             Print help\n" ++
  "  -V, --version          Print version\n"

/-- What a user is told about a command line that makes no sense. -/
def complaint : Stop → String
  | .repeated => "a switch cannot be used multiple times"
  | .unknownSwitch => "unexpected argument found"
  | .missingValue => "a value is required but none was supplied"
  | .badValue => "invalid value"
  | .needlessValue => "unexpected value found"
  | .unknownCommand => "unrecognized subcommand"
  | .missingSwitch => "a required argument was not provided"
  | .help => ""
  | .version => ""

end TypedHypergraph.Program

open TypedHypergraph TypedHypergraph.Program in
/-- Read the words of the command line and do what they ask for. -/
def main (args : List String) : IO UInt32 := do
  match CommandLine.invocation args with
  | .error .help =>
    IO.print usage
    return 0
  | .error .version =>
    IO.println ("atomspace " ++ version)
    return 0
  | .error stop =>
    IO.eprintln ("error: " ++ complaint stop)
    return 2
  | .ok invocation =>
    let files ← lookAtAll (pathsOf invocation)
    let lookup ← environment
    let result : Except Failure String := do
      let settings ← (Settings.load files lookup invocation.config).mapError Failure.settings
      invocation.output files settings
    match result with
    | .ok text =>
      IO.print text
      return 0
    | .error failure =>
      IO.eprintln ("Error: " ++ failure.message)
      return 1
