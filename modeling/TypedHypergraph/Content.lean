/-
# Contents

The content of an atom is what it is made of: its exact type and either a name or a list of
members.  A graph never holds two atoms with equal contents, so a content names at most one atom
of a graph.

Contents are ordered by type, nodes before links, and then by name or by members.  A digest of a
content helps to find an atom by its content; nothing depends on which digest it is.
-/
import TypedHypergraph.Handle

namespace TypedHypergraph

/-- The exact type of an atom, with its name or its members. -/
inductive Content
  | node (type : TypeId) (name : String)
  | link (type : TypeId) (members : List Handle)
  deriving DecidableEq, Repr

namespace Content

/-! ## Parts -/

/-- The type of an atom. -/
def type : Content → TypeId
  | node type _ => type
  | link type _ => type

/-- Whether the atom is a node. -/
def isNode : Content → Bool
  | node _ _ => true
  | link _ _ => false

/-- Whether the atom is a link. -/
def isLink : Content → Bool
  | node _ _ => false
  | link _ _ => true

/-- The name of a node. -/
def name? : Content → Option String
  | node _ name => some name
  | link _ _ => none

/-- The members of a link, in order; a node has none. -/
def members : Content → List Handle
  | node _ _ => []
  | link _ members => members

/-! ## Order -/

/-- Lists of handles are compared member by member, and a list comes before its extensions. -/
def compareMembers : List Handle → List Handle → Ordering
  | [], [] => .eq
  | [], _ :: _ => .lt
  | _ :: _, [] => .gt
  | a :: as, b :: bs => (compare a b).then (compareMembers as bs)

/-- The order of contents. -/
def order (a b : Content) : Ordering :=
  (compare a.type b.type).then <|
    match a, b with
    | node _ x, node _ y => compare x y
    | node _ _, link _ _ => .lt
    | link _ _, node _ _ => .gt
    | link _ xs, link _ ys => compareMembers xs ys

/-- Contents are sorted by this order. -/
instance : Ord Content := ⟨order⟩

/-! ## Digest -/

/-- Mix one number into a digest. -/
def mix (state : UInt64) (x : UInt64) : UInt64 := (state ^^^ x) * 1099511628211

/-- A number computed from a content, by which stored atoms are looked up. -/
def fingerprint : Content → UInt64
  | node type name =>
    name.toList.foldl (fun s c => mix s c.toNat.toUInt64)
      (mix (mix 14695981039346656037 type.index.toUInt64) 0)
  | link type members =>
    members.foldl (fun s h => mix s h.value.toUInt64)
      (mix (mix 14695981039346656037 type.index.toUInt64) 1)

end Content

/-- A stored atom: its handle and its content. -/
structure Atom where
  handle : Handle
  content : Content
  deriving DecidableEq, Repr

end TypedHypergraph
