/-
# Handles by type

For each type the handles of the atoms of exactly that type, ascending.  A type without handles
has no bucket.
-/
import TypedHypergraph.Handle

namespace TypedHypergraph

/-- The index by type: for each exact type the atoms of that type. -/
structure TypeBuckets where
  buckets : Std.TreeMap TypeId (Std.TreeSet Handle)

namespace TypeBuckets

/-- The index over no atoms. -/
def empty : TypeBuckets := ⟨∅⟩

/-- Put an atom under its type. -/
def insert (b : TypeBuckets) (type : TypeId) (h : Handle) : TypeBuckets :=
  ⟨b.buckets.alter type fun bucket => some ((bucket.getD ∅).insert h)⟩

/-- Drop a handle from a bucket, and the bucket if that leaves it empty. -/
def erase (b : TypeBuckets) (type : TypeId) (h : Handle) : TypeBuckets :=
  ⟨b.buckets.alter type fun bucket =>
    bucket.bind fun handles =>
      let rest := handles.erase h
      if rest.isEmpty then none else some rest⟩

/-- The handles of exactly a type, if there are any. -/
def bucket? (b : TypeBuckets) (type : TypeId) : Option (List Handle) :=
  b.buckets[type]?.map (·.toList)

/-- The number of atoms of an exact type. -/
def count (b : TypeBuckets) (type : TypeId) : Nat :=
  (b.buckets[type]?.map (·.size)).getD 0

/-- Whether an atom stands under an exact type. -/
def contains (b : TypeBuckets) (type : TypeId) (h : Handle) : Bool :=
  (b.buckets[type]?.map (·.contains h)).getD false

/-- The handles of any of some types, ascending; a type may be named more than once. -/
def union (b : TypeBuckets) (types : List TypeId) : List Handle :=
  (types.foldl
    (fun (acc : Std.TreeSet Handle) type => acc.insertMany ((b.bucket? type).getD []))
    ∅).toList

/-- All buckets, in the order of types. -/
def toList (b : TypeBuckets) : List (TypeId × List Handle) :=
  b.buckets.toList.map fun (type, handles) => (type, handles.toList)

end TypeBuckets

end TypedHypergraph
