/-
# The JSON form of patterns

Terms and targets are recognised by their members, as descriptions are.  A term with a `var` is a
variable unless it also has a `handle`.  A condition says its kind in the member `kind`, which may
stand anywhere among its members.
-/
import TypedHypergraph.Form.Recogniser
import TypedHypergraph.Pattern.Basic

namespace TypedHypergraph

/-! ## Terms -/

namespace Term

mutual

/-- A term as JSON. -/
def toJson : Term → Json
  | .stored h => .obj [("handle", .nat h.value)]
  | .var v => .obj (("var", .str v.name) :: Json.member? "type" .str v.typeName)
  | .node typeName name => .obj [("type", .str typeName), ("name", .str name)]
  | .link typeName members =>
    .obj [("type", .str typeName), ("outgoing", .arr (toJsonAll members))]

/-- Several terms as JSON. -/
def toJsonAll : List Term → List Json
  | [] => []
  | term :: rest => term.toJson :: toJsonAll rest

end

/-- The variable that an object stands for. -/
def varOf? (members : List (String × Json)) : Option Term := do
  let name ← (← Json.only? "var" members).str?
  match ← Json.atMost? "type" members with
  | some type => return .var ⟨name, some (← type.str?)⟩
  | none => return .var ⟨name, none⟩

/-- Stored atoms, variables, nodes and links. -/
def recogniser : Recogniser Term := ⟨.stored, .node, .link, [varOf?]⟩

/-- The term that a value stands for. -/
def ofJson? : Json → Option Term := recogniser.ofJson?

/-- The reader of terms. -/
def read : Reader Term := Reader.ofJson ofJson?

end Term

/-! ## Targets -/

namespace Target

/-- A target as JSON. -/
def toJson : Target → Json
  | .var name => .obj [("var", .str name)]
  | .clause index => .obj [("clause", .nat index)]

/-- The target that a JSON value is; a variable is looked for before a clause. -/
def ofJson? : Json → Option Target
  | .obj members =>
    ((Json.only? "var" members).bind Json.str?).map .var <|>
      ((Json.only? "clause" members).bind (Json.nat? Limits.lastCount)).map .clause
  | _ => none

/-- The reader of targets. -/
def read : Reader Target := Reader.ofJson ofJson?

end Target

/-! ## Conditions -/

namespace Condition

/-- The kinds of conditions by their names. -/
inductive Kind
  | truthAtLeast
  | typeIs
  | distinct
  deriving DecidableEq, Repr

namespace Kind

/-- The word that names a kind of condition. -/
def name : Kind → String
  | truthAtLeast => "truth_at_least"
  | typeIs => "type_is"
  | distinct => "distinct"

/-- The kind of condition that a word names. -/
def ofName? (s : String) : Option Kind := [truthAtLeast, typeIs, distinct].find? (·.name = s)

/-- The reader of kinds. -/
def read : Reader Kind := Reader.check Reader.text ofName?

end Kind

/-- A condition as JSON, with its kind in front. -/
def toJson : Condition → Json
  | .truthAtLeast target minStrength minConfidence =>
    .obj [("kind", .str Kind.truthAtLeast.name), ("target", target.toJson),
      ("min_strength", .float minStrength), ("min_confidence", .float minConfidence)]
  | .typeIs target typeName withSubtypes =>
    .obj [("kind", .str Kind.typeIs.name), ("target", target.toJson), ("type", .str typeName),
      ("include_subtypes", .bool withSubtypes)]
  | .distinct a b =>
    .obj [("kind", .str Kind.distinct.name), ("a", .str a), ("b", .str b)]

/-- The fields of a condition besides its kind. -/
def form : Kind → Form Condition
  | .truthAtLeast =>
    (Form.three (.required "target" Target.read) (.withDefault "min_strength" Reader.float 0)
      (.withDefault "min_confidence" Reader.float 0)).map fun (target, s, c) =>
        .truthAtLeast target s c
  | .typeIs =>
    (Form.three (.required "target" Target.read) (.required "type" Reader.text)
      (.withDefault "include_subtypes" Reader.flag false)).map fun (target, typeName, sub) =>
        .typeIs target typeName sub
  | .distinct =>
    (Form.two (.required "a" Reader.text) (.required "b" Reader.text)).map fun (a, b) =>
      .distinct a b

/-- Read a condition of a known kind. -/
def ofFields (kind : Kind) (fields : Json) : Except ReadFault Condition :=
  Form.orMismatch ((form kind).ofJson? fields)

/-- Split the members of an object into its kind and the others. -/
def splitKind (m : Manner) : Option Kind → List (Option String × Scanned) →
    Except ReadFault (Option Kind × List (String × Json))
  | kind, [] => .ok (kind, [])
  | _, (none, _) :: _ => .error .syntactic
  | kind, (some name, value) :: rest =>
    if name = "kind" then
      match kind with
      | some _ => .error .mismatch
      | none => do
        let kind ← Kind.read m value
        splitKind m (some kind) rest
    else
      match value.value? m.room with
      | none => .error .syntactic
      | some value => do
        let (kind, others) ← splitKind m kind rest
        return (kind, (name, value) :: others)

/-- Read a condition.  In a list the kind stands first. -/
def read : Reader Condition
  | m, .obj members closed => do
    let inner ← m.enter
    let (kind, others) ← splitKind inner none members
    unless closed do
      throw .syntactic
    ofFields (← Form.orMismatch kind) (.obj others)
  | m, .arr (first :: rest) closed => do
    let inner ← m.enter
    let kind ← Kind.read inner first
    match Scanned.values? inner.room rest with
    | some fields => if closed then ofFields kind (.arr fields) else throw .syntactic
    | none => throw .syntactic
  | _, .arr [] closed => .error (if closed then .mismatch else .syntactic)
  | _, tree => .error tree.fault

end Condition

end TypedHypergraph
