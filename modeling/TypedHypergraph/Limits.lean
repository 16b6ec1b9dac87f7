/-
# Limits

The bounds that every insertion and every query is checked against.  Lengths of texts are
counted in bytes of their UTF-8 form.
-/
import Std.Data.TreeMap

namespace TypedHypergraph.Limits

/-- The most bytes a type name may have. -/
def typeNameBytes : Nat := 256

/-- The most bytes the name of a node may have. -/
def nodeNameBytes : Nat := 65536

/-- The most members a link may have. -/
def arity : Nat := 1024

/-- The deepest level at which a part of a description or of a clause may stand; the whole
stands at level zero. -/
def depth : Nat := 64

/-- The most clauses a pattern may have. -/
def clauses : Nat := 128

/-- The last number that can name an atom: the supply of handles stays there. -/
def lastHandle : Nat := UInt64.size - 1

/-- The greatest count or cap that can be written down. -/
def lastCount : Nat := UInt64.size - 1

end TypedHypergraph.Limits
