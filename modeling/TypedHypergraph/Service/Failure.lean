/-
# Failures

What can go wrong in the program around a graph: a refusal of the graph itself, settings that cannot
be used, files that cannot be read, and requests that make no sense.

A failure has a fixed word for its kind, a message, and a status by which it is answered over HTTP.
-/
import TypedHypergraph.Decimal.Unsigned
import TypedHypergraph.Error
import TypedHypergraph.Text.Shown

namespace TypedHypergraph

/-! ## Causes -/

/-- Why a file could not be reached. -/
inductive FileFault
  | notFound
  | isDirectory
  | notADirectory
  | nameTooLong
  /-- The name holds the character with number zero. -/
  | unusableName
  | notText
  | other (message : String)
  deriving DecidableEq, Repr

/-- Why settings cannot be used. -/
inductive SettingsFault
  | unreadable (path : String) (fault : FileFault)
  | malformed
  | port (text : String) (fault : Decimal.DigitsFault)
  | logFormat (text : String)
  | zeroPort
  | zeroBodyLimit
  | zeroCap
  | blankTypeName (parent : Option String)
  | type (name : String) (refusal : Refusal)
  deriving Repr

/-- What can go wrong when the service is used. -/
inductive Failure
  | store (refusal : Refusal)
  | settings (fault : SettingsFault)
  | noSuchPath (path : String) (fault : FileFault)
  | notAFile (path : String)
  | unreadable (path : String) (fault : FileFault)
  | fileTooLarge (bytes most : Nat)
  | malformedScript
  /-- A stored atom has a type that is not declared. -/
  | untypedAtom (handle : Handle)
  deriving Repr

/-! ## Texts -/

/-- What is wrong with a file, in words. -/
def FileFault.message : FileFault → String
  | notFound => "No such file or directory (os error 2)"
  | isDirectory => "Is a directory (os error 21)"
  | notADirectory => "Not a directory (os error 20)"
  | nameTooLong => "File name too long (os error 36)"
  | unusableName => "file name contained an unexpected NUL byte"
  | notText => "stream did not contain valid UTF-8"
  | other message => message

/-- A name that may be missing, as it is shown in messages. -/
def shownOption : Option String → String
  | some s => "Some(" ++ Text.shown s ++ ")"
  | none => "None"

/-- What is wrong with the settings, in words. -/
def SettingsFault.message : SettingsFault → String
  | unreadable path fault => "Failed to read config file " ++ path ++ ": " ++ fault.message
  | malformed => "Failed to parse config file:"
  | port text fault => "ATOMSPACE_PORT '" ++ text ++ "': " ++ fault.message
  | logFormat text => "ATOMSPACE_LOG_FORMAT must be 'text' or 'json', got '" ++ text ++ "'"
  | zeroPort => "server.port must be greater than 0"
  | zeroBodyLimit => "server.body_limit_bytes must be greater than 0"
  | zeroCap => "query.max_results and query.max_steps must be greater than 0"
  | blankTypeName parent => "type names must not be empty (parent " ++ shownOption parent ++ ")"
  | type name refusal => "type '" ++ name ++ "': " ++ refusal.message

namespace Failure

/-- The kinds of failures besides those of a graph. -/
inductive Class
  | store (refusal : Refusal)
  | settings
  | file
  | request
  | internal

/-- The class of a failure, which decides its kind and its status. -/
def toClass : Failure → Class
  | store refusal => .store refusal
  | settings _ => .settings
  | noSuchPath _ _ => .file
  | notAFile _ => .file
  | unreadable _ _ => .file
  | fileTooLarge _ _ => .request
  | malformedScript => .request
  | untypedAtom _ => .internal

/-- The fixed word for the kind of a failure. -/
def kind (f : Failure) : String :=
  match f.toClass with
  | .store refusal => refusal.kind
  | .settings => "config"
  | .file => "io"
  | .request => "invalid_request"
  | .internal => "internal"

/-- What a failure tells a reader. -/
def message : Failure → String
  | store refusal => refusal.message
  | settings fault => "Configuration error: " ++ fault.message
  | noSuchPath path fault => "I/O error: Invalid file path '" ++ path ++ "': " ++ fault.message
  | notAFile path => "I/O error: Path '" ++ path ++ "' is not a regular file"
  | unreadable path fault => "I/O error: Cannot read '" ++ path ++ "': " ++ fault.message
  | fileTooLarge bytes most =>
    s!"Invalid request: File size {bytes} bytes exceeds maximum allowed {most} bytes"
  | malformedScript => "Invalid request: Invalid script:"
  | untypedAtom handle => s!"Internal error: atom {handle} has unregistered type"

/-- The status by which a refusal is answered. -/
def statusOfRefusal : Refusal → Nat
  | .notFound _ => 404
  | .stillReferenced _ _ => 409
  | .typeConflict _ _ => 409
  | _ => 400

/-- The status by which a failure is answered. -/
def status (f : Failure) : Nat :=
  match f.toClass with
  | .store refusal => statusOfRefusal refusal
  | .request => 400
  | .settings => 500
  | .file => 500
  | .internal => 500

/-- The links that stand in the way of a removal; none for the other failures. -/
def referrers : Failure → List Handle
  | store refusal => refusal.referrers
  | _ => []

end Failure

end TypedHypergraph
