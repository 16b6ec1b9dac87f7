/-
# The JSON form of settings

Every part of settings may be missing and then has its standard value.
-/
import TypedHypergraph.Form.Request
import TypedHypergraph.Settings.Basic

namespace TypedHypergraph

namespace LogFormat

/-- Read the name of a format.  The name may also stand alone in an object, before an empty
value. -/
def read : Reader LogFormat
  | m, .obj [(some name, value)] closed => do
    let _ ← m.enter
    let format ← Form.orMismatch (ofName? name)
    match value with
    | .null => if closed then return format else throw .syntactic
    | value => if m.surplus && value.isVoid then return format else throw value.fault
  | m, tree => Reader.check Reader.text ofName? m tree

end LogFormat

namespace ServerSettings

/-- The settings of the server as JSON. -/
def toJson (s : ServerSettings) : Json :=
  .obj [("host", .str s.host), ("port", .nat s.port), ("cors_origins", .arr (s.origins.map .str)),
    ("body_limit_bytes", .nat s.bodyLimit)]

/-- The fields of the settings of the server; a missing one has its standard value. -/
def form : Form ServerSettings :=
  (Form.both
    (Form.two (.withDefault "host" Reader.text standard.host)
      (.withDefault "port" (Reader.upTo Limits.lastPort) standard.port))
    (Form.two (.withDefault "cors_origins" (Reader.list Reader.text) standard.origins)
      (.withDefault "body_limit_bytes" (Reader.upTo Limits.lastCount) standard.bodyLimit))).map
    fun ((host, port), (origins, bodyLimit)) => ⟨host, port, origins, bodyLimit⟩

end ServerSettings

namespace LogSettings

/-- The settings of the log as JSON. -/
def toJson (s : LogSettings) : Json :=
  .obj [("format", .str s.format.name), ("filter", .str s.filter)]

/-- The fields of the settings of the log. -/
def form : Form LogSettings :=
  (Form.two (.withDefault "format" LogFormat.read standard.format)
    (.withDefault "filter" Reader.text standard.filter)).map
    fun (format, filter) => ⟨format, filter⟩

end LogSettings

namespace QuerySettings

/-- The caps on queries as JSON. -/
def toJson (s : QuerySettings) : Json :=
  .obj [("max_results", .nat s.results), ("max_steps", .nat s.steps)]

/-- The fields of the caps on queries. -/
def form : Form QuerySettings :=
  (Form.two (.withDefault "max_results" (Reader.upTo Limits.lastCount) standard.results)
    (.withDefault "max_steps" (Reader.upTo Limits.lastCount) standard.steps)).map
    fun (results, steps) => ⟨results, steps⟩

end QuerySettings

namespace Settings

/-- The settings as JSON. -/
def toJson (s : Settings) : Json :=
  .obj [("server", s.server.toJson), ("logging", s.log.toJson), ("query", s.query.toJson),
    ("types", .arr (s.types.map TypeDeclaration.toJson))]

/-- The fields of the settings; a missing group has its standard values. -/
def form : Form Settings :=
  (Form.both
    (Form.two (.withDefault "server" ServerSettings.form.read .standard)
      (.withDefault "logging" LogSettings.form.read .standard))
    (Form.two (.withDefault "query" QuerySettings.form.read .standard)
      (.withDefault "types" (Reader.list TypeDeclaration.form.read) []))).map
    fun ((server, log), (query, types)) => ⟨server, log, query, types⟩

end Settings

end TypedHypergraph
