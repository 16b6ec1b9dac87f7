/-
# The command line

A command line is a list of words: switches, and at most one command, behind which switches of the
command can follow.  Some switches are known to all commands and may stand before or behind the
command; what is said behind it counts more.

A switch has a long name behind two dashes and mostly a short one, a letter behind one dash; letters
can be put together.  The value of a switch is the next word, or is attached: to a long name with an
equals sign, to a letter with or without one.  Behind two dashes alone no switch is recognised.

Whether a switch can have the value that was given is decided when the next switch is met or the
words of its level end.
-/
import TypedHypergraph.Decimal.Unsigned
import TypedHypergraph.Settings.Basic

namespace TypedHypergraph.CommandLine

/-! ## Switches -/

/-- What a switch or an argument of the command line is for. -/
inductive Key
  | verbose
  | quiet
  | jsonMode
  | config
  | help
  | version
  | host
  | port
  | file
  deriving DecidableEq, Repr

/-- What the value of a switch can be. -/
inductive ValueKind
  | text
  | path
  | port
  deriving DecidableEq, Repr

/-- A switch of the command line, with the ways to write it. -/
structure Switch where
  key : Key
  short : Option Char
  long : String
  /-- The kind of its value; a switch without one is only there or not. -/
  value : Option ValueKind
  deriving DecidableEq, Repr

/-- The names of commands. -/
inductive CommandName
  | server
  | run
  | types
  | config
  deriving DecidableEq, Repr

/-- The word that names a command. -/
def CommandName.text : CommandName → String
  | server => "server"
  | run => "run"
  | types => "types"
  | config => "config"

/-- The command that a word names. -/
def CommandName.ofText? (s : String) : Option CommandName :=
  [server, run, types, config].find? (·.text = s)

/-- The word that asks for help on a command. -/
def helpWord : String := "help"

/-- Whether a word is recognised as a command. -/
def isCommand (word : String) : Bool := (CommandName.ofText? word).isSome || word = helpWord

/-- The place of a switch: before the command, or behind it. -/
abbrev Level := Option CommandName

/-- The switches that all commands know. -/
def commonSwitches : List Switch :=
  [⟨.verbose, some 'v', "verbose", none⟩, ⟨.quiet, some 'q', "quiet", none⟩,
    ⟨.config, some 'c', "config", some .path⟩, ⟨.jsonMode, none, "json-mode", none⟩,
    ⟨.help, some 'h', "help", none⟩]

/-- The switches that are known at a level. -/
def switchesAt : Level → List Switch
  | none => commonSwitches ++ [⟨.version, some 'V', "version", none⟩]
  | some .server =>
    commonSwitches ++ [⟨.host, some 'H', "host", some .text⟩, ⟨.port, some 'p', "port", some .port⟩]
  | some .run => commonSwitches ++ [⟨.file, some 'f', "file", some .path⟩]
  | some .types => commonSwitches
  | some .config => commonSwitches

/-! ## Values -/

/-- Why no invocation comes out of a command line. -/
inductive Stop
  /-- A switch is given twice at one level. -/
  | repeated
  | unknownSwitch
  /-- The value of a switch is missing or empty. -/
  | missingValue
  | badValue
  /-- A value is given to a switch that has none. -/
  | needlessValue
  | unknownCommand
  | missingSwitch
  | help
  | version
  deriving DecidableEq, Repr

/-- The port that a text names.  A minus sign may stand before zero. -/
def readPort (s : String) : Option Nat :=
  match Decimal.readUnsigned Limits.lastPort s with
  | .ok n => some n
  | .error _ =>
    match s.toList with
    | '-' :: c :: rest => if (c :: rest).all (· = '0') then some 0 else none
    | _ => none

/-- Whether a switch can have a value. -/
def checkValue (kind : ValueKind) (value : String) : Except Stop Unit :=
  match kind with
  | .text => .ok ()
  | .path => if value.isEmpty then .error .missingValue else .ok ()
  | .port => if (readPort value).isSome then .ok () else .error .badValue

/-- What has been given at a level so far. -/
structure Given where
  /-- The switches that were accepted, with their values. -/
  accepted : List (Key × Option String)
  /-- A switch whose value has not been decided on, and the value if it has been given. -/
  pending : Option (Switch × Option String)
  deriving Repr

namespace Given

/-- Nothing has been read yet. -/
def nothing : Given := ⟨[], none⟩

/-- Whether a switch has been given. -/
def has (g : Given) (key : Key) : Bool := g.accepted.any (·.1 = key)

/-- The value that has been given to a switch. -/
def value? (g : Given) (key : Key) : Option String :=
  (g.accepted.find? (·.1 = key)).bind (·.2)

/-- Whether the next word is the value of a switch. -/
def awaitsValue (g : Given) : Bool :=
  match g.pending with
  | some (_, none) => true
  | _ => false

/-- Accept a switch with its value. -/
def accept (g : Given) (switch : Switch) (value : Option String) : Except Stop Given := do
  if g.has switch.key then
    throw .repeated
  match switch.value, value with
  | some kind, some value => checkValue kind value
  | _, _ => pure ()
  return { g with accepted := (switch.key, value) :: g.accepted }

/-- Decide on the pending switch. -/
def settle (g : Given) : Except Stop Given :=
  match g.pending with
  | none => .ok g
  | some (_, none) => .error .missingValue
  | some (switch, some value) => accept { g with pending := none } switch (some value)

/-- Take a switch without value. -/
def takeFlag (g : Given) (switch : Switch) : Except Stop Given := do
  let g ← g.settle
  match switch.key with
  | .help => throw .help
  | .version => throw .version
  | _ => g.accept switch none

/-- Take a switch with an attached value. -/
def takeAttached (g : Given) (switch : Switch) (value : String) : Except Stop Given := do
  (← g.settle).accept switch (some value)

/-- Take a switch whose value is the next word. -/
def takeOpen (g : Given) (switch : Switch) : Except Stop Given := do
  return { ← g.settle with pending := some (switch, none) }

end Given

/-! ## Words -/

/-- Take the letters behind one dash. -/
def takeLetters (switches : List Switch) : Given → List Char → Except Stop Given
  | g, [] => .ok g
  | g, c :: rest =>
    match switches.find? (·.short = some c) with
    | none => .error .unknownSwitch
    | some switch =>
      match switch.value, rest with
      | none, rest =>
        match g.takeFlag switch with
        | .ok g => takeLetters switches g rest
        | .error stop => .error stop
      | some _, [] => g.takeOpen switch
      | some _, '=' :: value => g.takeAttached switch (String.ofList value)
      | some _, value => g.takeAttached switch (String.ofList value)

/-- Take what stands behind two dashes. -/
def takeLong (switches : List Switch) (g : Given) (cs : List Char) : Except Stop Given :=
  let name := String.ofList (cs.takeWhile (· ≠ '='))
  match switches.find? (·.long = name) with
  | none => .error .unknownSwitch
  | some switch =>
    match switch.value, cs.dropWhile (· ≠ '=') with
    | none, [] => g.takeFlag switch
    | none, _ :: _ => .error .needlessValue
    | some _, [] => g.takeOpen switch
    | some _, _ :: value => g.takeAttached switch (String.ofList value)

/-- The fault of a word that has no place at a level. -/
def misplaced (level : Level) (behindDashes : Bool) (word : String) : Stop :=
  match level with
  | some _ => .unknownSwitch
  | none => if behindDashes && isCommand word then .unknownSwitch else .unknownCommand

/-- What stands behind the word that asks for help. -/
def helpOn : List String → Stop
  | [] => .help
  | [word] => if isCommand word then .help else .unknownCommand
  | _ => .unknownCommand

/-- Take the words of a level, up to the command if there is one: what was given, the command, and
the words behind it. -/
def takeWords (level : Level) (behindDashes : Bool) :
    Given → List String → Except Stop (Given × Option (CommandName × List String))
  | g, [] => .ok (g, none)
  | g, word :: rest =>
    if behindDashes then .error (misplaced level true word)
    else if level.isNone && !g.awaitsValue && isCommand word then
      match CommandName.ofText? word with
      | some command => .ok (g, some (command, rest))
      | none => .error (helpOn rest)
    else
      let taken :=
        match word.toList with
        | ['-', '-'] => none
        | '-' :: '-' :: cs => some (takeLong (switchesAt level) g cs)
        | '-' :: c :: cs => some (takeLetters (switchesAt level) g (c :: cs))
        | _ =>
          match g.pending with
          | some (switch, none) => some (.ok { g with pending := some (switch, some word) })
          | _ => some (.error (misplaced level false word))
      match taken with
      | none => takeWords level true g rest
      | some (.ok g) => takeWords level false g rest
      | some (.error stop) => .error stop

/-! ## Invocations -/

/-- What the program is to do. -/
inductive Command
  | server (host : Option String) (port : Option Nat)
  | run (file : String)
  | types
  | config
  deriving DecidableEq, Repr

/-- What the words of a command line ask for. -/
structure Invocation where
  verbose : Bool
  quiet : Bool
  jsonMode : Bool
  config : Option String
  command : Option Command
  deriving DecidableEq, Repr

/-- The command that was asked for with some switches. -/
def commandOf (name : CommandName) (g : Given) : Except Stop Command :=
  match name with
  | .server => .ok (.server (g.value? .host) ((g.value? .port).bind readPort))
  | .run =>
    match g.value? .file with
    | some file => .ok (.run file)
    | none => .error .missingSwitch
  | .types => .ok .types
  | .config => .ok .config

/-- Take all words behind a command. -/
def takeCommand (name : CommandName) (words : List String) : Except Stop (Given × Command) := do
  let (g, _) ← takeWords (some name) false .nothing words
  let g ← g.settle
  return (g, ← commandOf name g)

/-- The invocation that a command line says.  The words behind a command are looked at before the
last switch in front of it is decided on. -/
def invocation (words : List String) : Except Stop Invocation := do
  let (outer, command) ← takeWords none false .nothing words
  let inner ← command.mapM fun (name, rest) => takeCommand name rest
  let outer ← outer.settle
  let given := (inner.map (·.1)).getD .nothing
  return {
    verbose := given.has .verbose || outer.has .verbose
    quiet := given.has .quiet || outer.has .quiet
    jsonMode := given.has .jsonMode || outer.has .jsonMode
    config := given.value? .config <|> outer.value? .config
    command := inner.map (·.2) }

end TypedHypergraph.CommandLine
