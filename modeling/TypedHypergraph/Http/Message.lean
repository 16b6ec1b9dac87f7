/-
# Requests and responses

An HTTP exchange as far as the server looks at it.  Names of headers do not distinguish between
upper and lower case.
-/
import TypedHypergraph.Json.Value

namespace TypedHypergraph.Http

/-- What a client asks. -/
structure Request where
  method : String
  /-- The path with the query behind it. -/
  target : String
  headers : List (String × String)
  body : String
  deriving Repr

/-- What the server answers. -/
structure Response where
  status : Nat
  headers : List (String × String)
  body : Option Json
  deriving Repr

/-- The first header with a name, which is given in lower case. -/
def Request.header? (r : Request) (name : String) : Option String :=
  (r.headers.find? (·.1.toLower = name)).map (·.2)

end TypedHypergraph.Http
