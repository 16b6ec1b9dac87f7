/-
# The TOML form of settings

Settings are read from a TOML document as from JSON, and written with all their parts.
-/
import TypedHypergraph.Settings.Form
import TypedHypergraph.Toml.Printer
import TypedHypergraph.Toml.Reader

namespace TypedHypergraph

/-! ## Reading -/

/-- The settings that a document says, whether or not they are usable. -/
def Settings.ofToml? (text : String) : Option Settings := do
  let entries ← Toml.ofText? text
  match Settings.form.read .document (.obj (Toml.entryTrees entries) true) with
  | .ok settings => some settings
  | .error _ => none

/-- The usable settings that a document says. -/
def Settings.ofToml (text : String) : Except SettingsFault Settings :=
  match Settings.ofToml? text with
  | none => .error .malformed
  | some settings => settings.check.map fun _ => settings

/-! ## Writing -/

namespace TypeDeclaration

/-- The block of a type. -/
def toToml (d : TypeDeclaration) : String :=
  "\n[[types]]\n" ++ Toml.entry "name" (Toml.quote d.name) ++
    match d.parent with
    | some parent => Toml.entry "parent" (Toml.quote parent)
    | none => ""

end TypeDeclaration

/-- Settings as a TOML document. -/
def Settings.toToml (s : Settings) : String :=
  (if s.types.isEmpty then "types = []\n\n" else "") ++
    "[server]\n" ++
    Toml.entry "host" (Toml.quote s.server.host) ++
    Toml.entry "port" (toString s.server.port) ++
    Toml.entry "cors_origins" (Toml.quoteAll s.server.origins) ++
    Toml.entry "body_limit_bytes" (toString s.server.bodyLimit) ++
    "\n[logging]\n" ++
    Toml.entry "format" (Toml.quote s.log.format.name) ++
    Toml.entry "filter" (Toml.quote s.log.filter) ++
    "\n[query]\n" ++
    Toml.entry "max_results" (toString s.query.results) ++
    Toml.entry "max_steps" (toString s.query.steps) ++
    String.join (s.types.map TypeDeclaration.toToml)

end TypedHypergraph
