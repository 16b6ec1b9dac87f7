/-
# Origins

A browser tells the server from which origin a page comes, and lets the page read a response only if
the server says that this origin may.
-/
import TypedHypergraph.Http.Message
import TypedHypergraph.Settings.Basic

namespace TypedHypergraph.Http

/-- The origins that may read responses. -/
inductive Origins
  | all
  | listed (origins : List String)
  deriving DecidableEq, Repr

namespace Origins

/-- Whether a text can be the value of a header. -/
def canBeHeader (s : String) : Bool :=
  s.toList.all fun c => (32 ≤ c.toNat && c.toNat ≠ 127) || c = '\t'

/-- The origins of a list of settings.  A star stands for all.  Blanks around an origin do not
count, and without a usable origin the standard ones are taken. -/
def ofSettings (origins : List String) : Origins :=
  if "*" ∈ origins then .all
  else
    match (origins.map Text.trim).filter canBeHeader with
    | [] => .listed ServerSettings.standard.origins
    | usable => .listed usable

/-- The headers that say whether the origin of a request may read the response. -/
def headers (o : Origins) (origin : Option String) : List (String × String) :=
  match o, origin with
  | .all, _ => [("access-control-allow-origin", "*")]
  | .listed origins, some origin =>
    if origin ∈ origins then [("access-control-allow-origin", origin)] else []
  | .listed _, none => []

/-- The headers that say which requests a page may send. -/
def preflightHeaders : Origins → List (String × String)
  | .all => [("access-control-allow-methods", "*"), ("access-control-allow-headers", "*")]
  | .listed _ =>
    [("access-control-allow-methods", "GET,POST,PUT,DELETE,OPTIONS"),
      ("access-control-allow-headers", "content-type")]

end Origins

end TypedHypergraph.Http
