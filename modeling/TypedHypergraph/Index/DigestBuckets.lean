/-
# Handles by digest

For each digest the handles of the atoms whose content has that digest, oldest first.  Contents
with one digest can differ, so a look-up has to compare contents among the candidates.
-/
import TypedHypergraph.Handle

namespace TypedHypergraph

/-- The index by content: for each digest the atoms with that digest, oldest first. -/
structure DigestBuckets where
  buckets : Std.TreeMap UInt64 (List Handle)

namespace DigestBuckets

/-- The index over no atoms. -/
def empty : DigestBuckets := ⟨∅⟩

/-- Append a handle to a bucket; one that is there already stays where it is. -/
def insert (b : DigestBuckets) (digest : UInt64) (h : Handle) : DigestBuckets :=
  ⟨b.buckets.alter digest fun bucket =>
    let handles := bucket.getD []
    some (if h ∈ handles then handles else handles ++ [h])⟩

/-- Drop a handle from a bucket, and the bucket if that leaves it empty. -/
def erase (b : DigestBuckets) (digest : UInt64) (h : Handle) : DigestBuckets :=
  ⟨b.buckets.alter digest fun bucket =>
    bucket.bind fun handles =>
      let rest := handles.filter (· ≠ h)
      if rest.isEmpty then none else some rest⟩

/-- The handles with a digest, oldest first. -/
def candidates (b : DigestBuckets) (digest : UInt64) : List Handle := b.buckets[digest]?.getD []

/-- The number of handles in all buckets. -/
def size (b : DigestBuckets) : Nat := b.buckets.toList.foldl (fun n (_, hs) => n + hs.length) 0

/-- Whether no digest has an atom. -/
def isEmpty (b : DigestBuckets) : Bool := b.buckets.isEmpty

end DigestBuckets

end TypedHypergraph
