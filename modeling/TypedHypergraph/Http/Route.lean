/-
# Routes

Which operation a request asks for.  The path is looked at first, then the method, then the parts of
the path and the query, and the body last.
-/
import TypedHypergraph.Decimal.Unsigned
import TypedHypergraph.Form.Request
import TypedHypergraph.Http.MediaType
import TypedHypergraph.Http.Message
import TypedHypergraph.Http.Target
import TypedHypergraph.Service.Operation

namespace TypedHypergraph.Http

/-! ## Rejections -/

/-- Why a request asks for no operation. -/
inductive Rejection
  | unknownPath
  | wrongMethod
  | badTarget
  | notJson
  | bodyTooLong
  | body (fault : ReadFault)
  deriving DecidableEq, Repr

/-- The status by which a rejected request is answered. -/
def Rejection.status : Rejection → Nat
  | unknownPath => 404
  | wrongMethod => 405
  | badTarget => 400
  | notJson => 415
  | bodyTooLong => 413
  | body .syntactic => 400
  | body .mismatch => 422

/-! ## Parts of a request -/

/-- Whether the headers say that the body is JSON. -/
def Request.isJson (r : Request) : Bool :=
  match (r.header? "content-type").bind MediaType.ofText? with
  | some m => m.isJson
  | none => false

/-- Read the body of a request. -/
def Request.read {α : Type} (r : Request) (limit : Nat) (read : Reader α) : Except Rejection α :=
  if !r.isJson then .error .notJson
  else if limit < r.body.utf8ByteSize then .error .bodyTooLong
  else (Reader.ofText read r.body).mapError .body

/-- The text of a segment. -/
def segmentText (s : String) : Except Rejection String :=
  match decodeSegment? s with
  | some s => .ok s
  | none => .error .badTarget

/-- The handle that a segment names. -/
def segmentHandle (s : String) : Except Rejection Handle := do
  match Decimal.readUnsigned Limits.lastHandle (← segmentText s) with
  | .ok n => return ⟨n⟩
  | .error _ => throw .badTarget

/-- The flag of the query, or the refusal of a query that does not say one. -/
def Target.flag (t : Target) (name : String) : Except Rejection Bool :=
  match t.flag? name with
  | some flag => .ok flag
  | none => .error .badTarget

/-! ## Routes -/

/-- The operation that a request asks for, given the most bytes its body may have.  A request for
the head of a response is like one for all of it. -/
def Request.operation (r : Request) (limit : Nat) : Except Rejection Operation :=
  let target := Target.ofText r.target
  let method := if r.method = "HEAD" then "GET" else r.method
  match target.segments with
  | ["health"] =>
    match method with
    | "GET" => .ok .health
    | _ => .error .wrongMethod
  | ["status"] =>
    match method with
    | "GET" => .ok .census
    | _ => .error .wrongMethod
  | ["types"] =>
    match method with
    | "GET" => .ok .listTypes
    | "POST" => (r.read limit TypeDeclaration.form.read).map .declareType
    | _ => .error .wrongMethod
  | ["types", name, "atoms"] =>
    match method with
    | "GET" => do
      let name ← segmentText name
      return .atomsOfType name (← target.flag "subtypes")
    | _ => .error .wrongMethod
  | ["atoms"] =>
    match method with
    | "POST" => (r.read limit Insertion.form.read).map .insert
    | _ => .error .wrongMethod
  | ["atoms", handle] =>
    if handle.isEmpty then .error .unknownPath
    else
      match method with
      | "GET" => (segmentHandle handle).map .atom
      | "DELETE" => do
        let h ← segmentHandle handle
        return .remove h (← target.flag "cascade")
      | _ => .error .wrongMethod
  | ["atoms", handle, "incoming"] =>
    match method with
    | "GET" => (segmentHandle handle).map .incoming
    | _ => .error .wrongMethod
  | ["atoms", handle, "truth"] =>
    match method with
    | "GET" => (segmentHandle handle).map .truth
    | "PUT" => do
      let h ← segmentHandle handle
      return .changeTruth h (← r.read limit TruthChange.form.read)
    | _ => .error .wrongMethod
  | ["query"] =>
    match method with
    | "POST" => (r.read limit Inquiry.form.read).map .inquire
    | _ => .error .wrongMethod
  | _ => .error .unknownPath

end TypedHypergraph.Http
