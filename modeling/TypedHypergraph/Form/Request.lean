/-
# The JSON form of requests

Requests are records.  Fields without a value are left out when a request is written, with the
exception of the observation in a change of truth, which is written as null.
-/
import TypedHypergraph.Form.Description
import TypedHypergraph.Form.Pattern
import TypedHypergraph.Request.Basic

namespace TypedHypergraph

/-! ## Observations -/

namespace Observation

/-- An observation as JSON. -/
def toJson (o : Observation) : Json :=
  .obj [("strength", .float o.strength), ("confidence", .float o.confidence)]

/-- The fields of an observation. -/
def form : Form Observation :=
  (Form.two (.required "strength" Reader.float) (.required "confidence" Reader.float)).map
    fun (strength, confidence) => ⟨strength, confidence⟩

end Observation

/-! ## Types -/

namespace TypeDeclaration

/-- A declaration of a type as JSON; a missing parent is left out. -/
def toJson (d : TypeDeclaration) : Json :=
  .obj (("name", .str d.name) :: Json.member? "parent" .str d.parent)

/-- The fields of a declaration of a type. -/
def form : Form TypeDeclaration :=
  (Form.two (.required "name" Reader.text) (.optional "parent" Reader.text)).map
    fun (name, parent) => ⟨name, parent⟩

end TypeDeclaration

/-! ## Atoms -/

namespace Insertion

/-- An insertion as JSON; a missing truth value is left out. -/
def toJson (i : Insertion) : Json :=
  .obj (("atom", i.atom.toJson) :: Json.member? "truth" Observation.toJson i.truth)

/-- The fields of an insertion. -/
def form : Form Insertion :=
  (Form.two (.required "atom" Description.read)
    (.optional "truth" Observation.form.read)).map fun (atom, truth) => ⟨atom, truth⟩

end Insertion

namespace TruthChange

/-- A change of a truth value as JSON. -/
def toJson (c : TruthChange) : Json :=
  .obj [("truth", Json.option Observation.toJson c.truth), ("replace", .bool c.replace)]

/-- The fields of a change of a truth value; null forgets it. -/
def form : Form TruthChange :=
  (Form.two (.nullable "truth" Observation.form.read)
    (.withDefault "replace" Reader.flag false)).map fun (truth, replace) => ⟨truth, replace⟩

end TruthChange

/-! ## Inquiries -/

namespace Inquiry

/-- The conditions of an inquiry as a member, if there are any. -/
def conditionsMember : List Condition → List (String × Json)
  | [] => []
  | conditions => [("constraints", .arr (conditions.map Condition.toJson))]

/-- An inquiry as JSON; caps and conditions that are missing are left out. -/
def toJson (i : Inquiry) : Json :=
  .obj (("clauses", .arr (i.clauses.map Term.toJson)) :: conditionsMember i.conditions ++
    Json.member? "max_results" .nat i.caps.results ++ Json.member? "max_steps" .nat i.caps.steps)

/-- The fields of an inquiry. -/
def form : Form Inquiry :=
  (Form.both
    (Form.two (.required "clauses" (Reader.list Term.read))
      (.withDefault "constraints" (Reader.list Condition.read) []))
    (Form.two (.optional "max_results" (Reader.upTo Limits.lastCount))
      (.optional "max_steps" (Reader.upTo Limits.lastCount)))).map
    fun ((clauses, conditions), (results, steps)) => ⟨clauses, conditions, ⟨results, steps⟩⟩

end Inquiry

/-! ## Scripts -/

namespace Script

/-- A script as JSON. -/
def toJson (s : Script) : Json :=
  .obj [("types", .arr (s.types.map TypeDeclaration.toJson)),
    ("atoms", .arr (s.insertions.map Insertion.toJson)),
    ("queries", .arr (s.inquiries.map Inquiry.toJson))]

/-- The fields of a script, each of which may be missing. -/
def form : Form Script :=
  (Form.three (.withDefault "types" (Reader.list TypeDeclaration.form.read) [])
    (.withDefault "atoms" (Reader.list Insertion.form.read) [])
    (.withDefault "queries" (Reader.list Inquiry.form.read) [])).map
    fun (types, insertions, inquiries) => ⟨types, insertions, inquiries⟩

end Script

end TypedHypergraph
