/-
# The server

The server holds a graph and answers requests one after the other.  Only the graph changes.
-/
import TypedHypergraph.Form.Reply
import TypedHypergraph.Http.Origins
import TypedHypergraph.Http.Route

namespace TypedHypergraph.Http

/-- A server: the graph that the requests work on, and the settings it answers them by. -/
structure Server (digest : Content → UInt64) where
  graph : Graph digest
  /-- The caps on every query. -/
  caps : Caps
  /-- The most bytes the body of a request may have. -/
  bodyLimit : Nat
  origins : Origins

namespace Server

variable {digest : Content → UInt64}

/-- The server of some settings over a graph. -/
def ofSettings (s : Settings) (graph : Graph digest) : Server digest :=
  ⟨graph, s.caps, s.server.bodyLimit, .ofSettings s.server.origins⟩

/-- Perform the operation that a request asks for: the status and the body of the response, and the
server afterwards. -/
def serve (s : Server digest) (r : Request) : Nat × Option Json × Server digest :=
  match r.operation s.bodyLimit with
  | .error rejection => (rejection.status, none, s)
  | .ok operation =>
    match operation.perform s.caps s.graph with
    | .ok reply graph => (reply.status, some reply.toJson, { s with graph })
    | .error failure graph => (failure.status, some failure.toJson, { s with graph })

/-- Answer a request.  The question which requests a page may send is answered whatever the path. -/
def respond (s : Server digest) (r : Request) : Response × Server digest :=
  let headers := s.origins.headers (r.header? "origin")
  if r.method = "OPTIONS" then (⟨200, headers ++ s.origins.preflightHeaders, none⟩, s)
  else
    let (status, body, s) := s.serve r
    (⟨status, headers, if r.method = "HEAD" then none else body⟩, s)

end Server

end TypedHypergraph.Http
