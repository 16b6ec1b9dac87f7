/-
# The indices under any calls

A graph keeps its indices in step with its atoms.  Here they are taken by themselves: things are
put into an index and taken out of it in any order and with any arguments, also things that are
there already or are not there at all.  After any calls an index stands for the relation of what has
been put in and not been taken out since (`Standing`), and all that is read from it is read off
this relation (`TypeBuckets.Represents`, `DigestBuckets.Represents`, `Incidence.Represents`).

The index by digest also keeps the order in which things have come in (`StandingSince`).  A link is
recorded for a handle in the incidence as long as nothing ends this: neither a removal of the link
that names the handle nor an end of the entry itself.
-/
import Mathlib.Data.Set.Card
import TypedHypergraph.Proofs.Indices

namespace TypedHypergraph

/-! ## What stands after some calls -/

section Standing

variable {α : Type} {makes ends : α → Prop} {calls : List α} {c : α}

/-- Some call makes a thing, and no later one ends it. -/
def Standing (makes ends : α → Prop) (calls : List α) : Prop :=
  ∃ before call after, calls = before ++ call :: after ∧
    makes call ∧ ∀ later ∈ after, ¬ ends later

/-- A thing has been standing since a call, which is given by the number of calls before it. -/
def StandingSince (makes ends : α → Prop) (calls : List α) (k : Nat) : Prop :=
  ∃ before call after, calls = before ++ call :: after ∧
    (before.length = k ∧ ¬ Standing makes ends before ∧ makes call) ∧
      ∀ later ∈ after, ¬ ends later

/-- Without calls nothing stands. -/
theorem not_standing_nil : ¬ Standing makes ends [] := by
  rintro ⟨before, call, after, hsplit, -⟩
  simp at hsplit

/-- A call among some calls with one more at their end is this last one or one of the others. -/
theorem exists_split_concat {P : List α → α → Prop} {Q : α → Prop} :
    (∃ before call after, calls ++ [c] = before ++ call :: after ∧
        P before call ∧ ∀ later ∈ after, Q later) ↔
      P calls c ∨ (∃ before call after, calls = before ++ call :: after ∧
        P before call ∧ ∀ later ∈ after, Q later) ∧ Q c := by
  constructor
  · rintro ⟨before, call, after, hsplit, hp, hq⟩
    rcases List.eq_nil_or_concat after with rfl | ⟨after, last, rfl⟩
    · obtain ⟨rfl, heq⟩ := List.append_inj' hsplit rfl
      cases heq
      exact .inl hp
    · rw [List.concat_eq_append] at hsplit hq
      rw [← List.cons_append, ← List.append_assoc] at hsplit
      obtain ⟨rfl, heq⟩ := List.append_inj' hsplit rfl
      cases heq
      rw [List.forall_mem_append, List.forall_mem_singleton] at hq
      exact .inr ⟨⟨before, call, after, rfl, hp, hq.1⟩, hq.2⟩
  · rintro (hp | ⟨⟨before, call, after, rfl, hp, hq⟩, hc⟩)
    · exact ⟨calls, c, [], rfl, hp, by simp⟩
    · refine ⟨before, call, after ++ [c], by simp, hp, ?_⟩
      rw [List.forall_mem_append, List.forall_mem_singleton]
      exact ⟨hq, hc⟩

/-- **One more call**: what it makes is standing then, and what it ends is not. -/
theorem standing_concat : Standing makes ends (calls ++ [c]) ↔
    makes c ∨ Standing makes ends calls ∧ ¬ ends c :=
  exists_split_concat (P := fun _ => makes) (Q := (¬ ends ·))

/-- After one call more a thing has been standing since it was made anew, or since before if the
call does not end it. -/
theorem standingSince_concat {k : Nat} : StandingSince makes ends (calls ++ [c]) k ↔
    (calls.length = k ∧ ¬ Standing makes ends calls ∧ makes c) ∨
      StandingSince makes ends calls k ∧ ¬ ends c :=
  exists_split_concat
    (P := fun before call => before.length = k ∧ ¬ Standing makes ends before ∧ makes call)
    (Q := (¬ ends ·))

/-- The call since which a thing has been standing is one of the calls. -/
theorem StandingSince.lt_length {k : Nat} (since : StandingSince makes ends calls k) :
    k < calls.length := by
  obtain ⟨before, call, after, rfl, ⟨rfl, -, -⟩, -⟩ := since
  simp

/-- What has been standing since some call stands. -/
theorem StandingSince.standing {k : Nat} (since : StandingSince makes ends calls k) :
    Standing makes ends calls := by
  obtain ⟨before, call, after, hsplit, ⟨-, -, made⟩, kept⟩ := since
  exact ⟨before, call, after, hsplit, made, kept⟩

/-- There is only one call since which a thing has been standing. -/
theorem StandingSince.unique {k k' : Nat} (since : StandingSince makes ends calls k)
    (since' : StandingSince makes ends calls k') : k = k' := by
  induction calls using List.reverseRecOn with
  | nil => exact absurd since.standing not_standing_nil
  | append_singleton calls c ih =>
    rcases standingSince_concat.mp since with ⟨rfl, new, -⟩ | ⟨old, -⟩
    · rcases standingSince_concat.mp since' with ⟨hk', -, -⟩ | ⟨old, -⟩
      · exact hk'
      · exact absurd old.standing new
    · rcases standingSince_concat.mp since' with ⟨-, new, -⟩ | ⟨old', -⟩
      · exact absurd old.standing new
      · exact ih old old'

/-- What stands has been standing since some call, if no call both makes and ends it. -/
theorem Standing.exists_since (apart : ∀ c, makes c → ¬ ends c)
    (standing : Standing makes ends calls) : ∃ k, StandingSince makes ends calls k := by
  induction calls using List.reverseRecOn with
  | nil => exact absurd standing not_standing_nil
  | append_singleton calls c ih =>
    by_cases before : Standing makes ends calls
    · obtain ⟨k, since⟩ := ih before
      refine ⟨k, standingSince_concat.mpr (.inr ⟨since, ?_⟩)⟩
      rcases standing_concat.mp standing with hc | ⟨-, hc⟩
      · exact apart c hc
      · exact hc
    · rcases standing_concat.mp standing with hc | ⟨hbefore, -⟩
      · exact ⟨calls.length, standingSince_concat.mpr (.inl ⟨rfl, before, hc⟩)⟩
      · exact absurd hbefore before

end Standing

/-! ## Ascending lists of what a property holds of -/

/-- A list holds all handles with a property, ascending. -/
structure Enumerates (property : Handle → Prop) (handles : List Handle) : Prop where
  ascending : handles.Pairwise (· < ·)
  mem : ∀ h, h ∈ handles ↔ property h

/-- A list without repetitions counts its members. -/
theorem encard_eq_length {α : Type} {property : α → Prop} {xs : List α} (nodup : xs.Nodup)
    (mem : ∀ a, a ∈ xs ↔ property a) : {a | property a}.encard = xs.length := by
  classical
  have same : {a | property a} = (xs.toFinset : Set α) := by
    ext a
    simp [mem]
  rw [same, Set.encard_coe_eq_coe_finsetCard, List.toFinset_card_of_nodup nodup]

/-- There are as many handles with a property as a list that enumerates them is long. -/
theorem Enumerates.encard {property : Handle → Prop} {handles : List Handle}
    (enumerates : Enumerates property handles) :
    {h | property h}.encard = handles.length :=
  encard_eq_length (nodup_of_ascending enumerates.ascending) enumerates.mem

/-- There is at most one such list. -/
theorem Enumerates.unique {property : Handle → Prop} {xs ys : List Handle}
    (hx : Enumerates property xs) (hy : Enumerates property ys) : xs = ys :=
  ascending_ext hx.ascending hy.ascending fun h => (hx.mem h).trans (hy.mem h).symm

/-! ## Calls on an index by keys -/

/-- A call that puts a handle under a key or takes it away from there. -/
inductive BucketCall (κ : Type) where
  | insert (key : κ) (h : Handle)
  | erase (key : κ) (h : Handle)

section BucketCall

variable {κ : Type} {calls : List (BucketCall κ)} {key key' : κ} {h h' : Handle}

/-- A handle has been put under a key and not been taken away since. -/
def Relates (calls : List (BucketCall κ)) (key : κ) (h : Handle) : Prop :=
  Standing (· = .insert key h) (· = .erase key h) calls

/-- The same, with the number of calls before the one that put it there. -/
def RelatesSince (calls : List (BucketCall κ)) (key : κ) (h : Handle) (k : Nat) : Prop :=
  StandingSince (· = .insert key h) (· = .erase key h) calls k

/-- A call that puts a handle under a key relates these two, and all that was related. -/
theorem relates_insert : Relates (calls ++ [.insert key h]) key' h' ↔
    key = key' ∧ h = h' ∨ Relates calls key' h' := by
  rw [Relates, standing_concat, BucketCall.insert.injEq]
  simp [Relates]

/-- A call that takes a handle away from a key leaves all else that was related. -/
theorem relates_erase : Relates (calls ++ [.erase key h]) key' h' ↔
    Relates calls key' h' ∧ ¬ (key = key' ∧ h = h') := by
  rw [Relates, standing_concat, BucketCall.erase.injEq]
  simp [Relates]

/-- What is related has been so since some call. -/
theorem Relates.exists_since (relates : Relates calls key h) : ∃ k, RelatesSince calls key h k := by
  apply Standing.exists_since _ relates
  rintro c rfl
  simp

/-- A handle that comes in comes in last. -/
theorem relatesSince_insert (new : ¬ Relates calls key h) :
    RelatesSince (calls ++ [.insert key h]) key h calls.length :=
  standingSince_concat.mpr (.inl ⟨rfl, new, rfl⟩)

/-- What is not taken away keeps its place. -/
theorem RelatesSince.concat {k : Nat} {c : BucketCall κ} (since : RelatesSince calls key h k)
    (kept : c ≠ .erase key h) : RelatesSince (calls ++ [c]) key h k :=
  standingSince_concat.mpr (.inr ⟨since, kept⟩)

end BucketCall

/-! ## The index by type -/

namespace TypeBuckets

/-- What a call does to the index by type. -/
def call (b : TypeBuckets) : BucketCall TypeId → TypeBuckets
  | .insert type h => b.insert type h
  | .erase type h => b.erase type h

/-- What some calls make of an index without handles. -/
def run (calls : List (BucketCall TypeId)) : TypeBuckets := calls.foldl call empty

/-- All that is read from the index is read off a relation between types and handles. -/
structure Represents (b : TypeBuckets) (relates : TypeId → Handle → Prop) : Prop where
  contains : ∀ type h, b.contains type h ↔ relates type h
  /-- There is a bucket if there is something to hold. -/
  bucket : ∀ type handles,
    b.bucket? type = some handles ↔ handles ≠ [] ∧ Enumerates (relates type) handles
  missing : ∀ type, b.bucket? type = none ↔ ∀ h, ¬ relates type h
  count : ∀ type, (b.count type : ℕ∞) = {h | relates type h}.encard
  /-- The listing shows these buckets, and no empty one. -/
  listed : ∀ type handles,
    (type, handles) ∈ b.toList ↔ handles ≠ [] ∧ Enumerates (relates type) handles
  types : (b.toList.map (·.1)).Pairwise (· < ·)
  /-- Types may be named more than once. -/
  union : ∀ types, Enumerates (fun h => ∃ type ∈ types, relates type h) (b.union types)

variable {b : TypeBuckets} {relates : TypeId → Handle → Prop}

/-- A call leaves no empty bucket in the index by type. -/
theorem tight_call (hb : b.Tight) (c : BucketCall TypeId) : (b.call c).Tight := by
  cases c with
  | insert type h => exact hb.insert type h
  | erase type h => exact hb.erase type h

/-- There is never an empty bucket in the index by type. -/
theorem tight_run (calls : List (BucketCall TypeId)) : (run calls).Tight := by
  induction calls using List.reverseRecOn with
  | nil => exact tight_empty
  | append_singleton calls c ih =>
    rw [run, List.foldl_concat]
    exact tight_call ih c

/-- **The index by type** holds a handle under a type exactly if the calls relate them. -/
theorem contains_run (calls : List (BucketCall TypeId)) (type : TypeId) (h : Handle) :
    (run calls).contains type h ↔ Relates calls type h := by
  induction calls using List.reverseRecOn with
  | nil => exact iff_of_false (not_contains_empty type h) not_standing_nil
  | append_singleton calls c ih =>
    rw [run, List.foldl_concat, ← run]
    cases c with
    | insert type' h' => rw [call, contains_insert, relates_insert, ih]
    | erase type' h' => rw [call, contains_erase, relates_erase, ih]

/-- The members of a bucket, be there one or not. -/
theorem enumerates_bucket (contains : ∀ type h, b.contains type h ↔ relates type h)
    (type : TypeId) : Enumerates (relates type) ((b.bucket? type).getD []) :=
  ⟨b.ascending_bucket type, fun h => (b.mem_bucket type h).trans (contains type h)⟩

/-- Without empty buckets, there is a bucket exactly if there is something to hold. -/
theorem Tight.bucket?_eq_some_iff (tight : b.Tight)
    (contains : ∀ type h, b.contains type h ↔ relates type h) {type : TypeId}
    {handles : List Handle} :
    b.bucket? type = some handles ↔ handles ≠ [] ∧ Enumerates (relates type) handles := by
  have enumerates := enumerates_bucket contains type
  constructor
  · intro hb
    rw [hb, Option.getD_some] at enumerates
    refine ⟨?_, enumerates⟩
    rintro rfl
    exact tight type hb
  · rintro ⟨hne, members⟩
    have same := enumerates.unique members
    cases hb : b.bucket? type with
    | none =>
      rw [hb] at same
      exact absurd same.symm hne
    | some handles' =>
      rw [hb] at same
      exact congrArg some same

/-- An index by type without empty buckets has none for a type that nothing is related to. -/
theorem Tight.bucket?_eq_none_iff (tight : b.Tight)
    (contains : ∀ type h, b.contains type h ↔ relates type h) {type : TypeId} :
    b.bucket? type = none ↔ ∀ h, ¬ relates type h := by
  have enumerates := enumerates_bucket contains type
  constructor
  · intro hb h related
    have hmem := (enumerates.mem h).mpr related
    simp [hb] at hmem
  · intro unrelated
    cases hb : b.bucket? type with
    | none => rfl
    | some handles =>
      obtain ⟨hne, members⟩ := (tight.bucket?_eq_some_iff contains).mp hb
      obtain ⟨h, hh⟩ := List.exists_mem_of_ne_nil handles hne
      exact absurd ((members.mem h).mp hh) (unrelated h)

/-- An index without empty buckets can be read off its relation. -/
theorem Tight.represents (tight : b.Tight)
    (contains : ∀ type h, b.contains type h ↔ relates type h) : b.Represents relates := by
  constructor
  case contains => exact contains
  case bucket => exact fun type handles => tight.bucket?_eq_some_iff contains
  case missing => exact fun type => tight.bucket?_eq_none_iff contains
  case count =>
    intro type
    rw [count_eq_length, (enumerates_bucket contains type).encard]
  case listed =>
    intro type handles
    rw [mem_toList, tight.bucket?_eq_some_iff contains]
  case types => exact b.ascending_types
  case union =>
    intro types
    refine ⟨b.ascending_union types, fun h => ?_⟩
    simp only [mem_union, contains]

/-- **The index by type after any calls** is the relation of what has been put in and not been
taken out since. -/
theorem represents_run (calls : List (BucketCall TypeId)) :
    (run calls).Represents (Relates calls) :=
  (tight_run calls).represents (contains_run calls)

end TypeBuckets

/-! ## The index by digest -/

namespace DigestBuckets

/-- What a call does to the index by digest. -/
def call (b : DigestBuckets) : BucketCall UInt64 → DigestBuckets
  | .insert digest h => b.insert digest h
  | .erase digest h => b.erase digest h

/-- What some calls make of an index without handles. -/
def run (calls : List (BucketCall UInt64)) : DigestBuckets := calls.foldl call empty

/-- Under a digest, a handle has come in before another one. -/
def Older (calls : List (BucketCall UInt64)) (digest : UInt64) (h h' : Handle) : Prop :=
  ∃ k k', RelatesSince calls digest h k ∧ RelatesSince calls digest h' k' ∧ k < k'

/-- All that is read from the index is read off the calls. -/
structure Represents (b : DigestBuckets) (calls : List (BucketCall UInt64)) : Prop where
  mem : ∀ digest h, h ∈ b.candidates digest ↔ Relates calls digest h
  nodup : ∀ digest, (b.candidates digest).Nodup
  /-- Handles stand in the order in which they have come in. -/
  order : ∀ digest, (b.candidates digest).Pairwise (Older calls digest)
  /-- To put in what is there already does not move it. -/
  again : ∀ digest h, Relates calls digest h →
    ∀ digest', (b.insert digest h).candidates digest' = b.candidates digest'
  size : (b.size : ℕ∞) = {pair : UInt64 × Handle | Relates calls pair.1 pair.2}.encard
  isEmpty : b.isEmpty ↔ b.size = 0

variable {b : DigestBuckets} {calls : List (BucketCall UInt64)}

/-- A call leaves no empty bucket in the index by digest. -/
theorem tight_call (hb : b.Tight) (c : BucketCall UInt64) : (b.call c).Tight := by
  cases c with
  | insert digest h => exact hb.insert digest h
  | erase digest h => exact hb.erase digest h

/-- There is never an empty bucket in the index by digest. -/
theorem tight_run (calls : List (BucketCall UInt64)) : (run calls).Tight := by
  induction calls using List.reverseRecOn with
  | nil => exact tight_empty
  | append_singleton calls c ih =>
    rw [run, List.foldl_concat]
    exact tight_call ih c

/-- **The index by digest** holds a handle under a digest exactly if the calls relate them. -/
theorem mem_candidates_run (calls : List (BucketCall UInt64)) (digest : UInt64) (h : Handle) :
    h ∈ (run calls).candidates digest ↔ Relates calls digest h := by
  induction calls using List.reverseRecOn with
  | nil =>
    rw [run, List.foldl_nil, candidates_empty]
    exact iff_of_false List.not_mem_nil not_standing_nil
  | append_singleton calls c ih =>
    rw [run, List.foldl_concat, ← run]
    cases c with
    | insert digest' h' => rw [call, mem_candidates_insert, relates_insert, ih]
    | erase digest' h' => rw [call, mem_candidates_erase, relates_erase, ih]

/-- The older one of two handles stays the older one as long as neither is taken away. -/
theorem Older.concat {digest : UInt64} {h h' : Handle} {c : BucketCall UInt64}
    (older : Older calls digest h h') (kept : c ≠ .erase digest h) (kept' : c ≠ .erase digest h') :
    Older (calls ++ [c]) digest h h' := by
  obtain ⟨k, k', since, since', hlt⟩ := older
  exact ⟨k, k', since.concat kept, since'.concat kept', hlt⟩

/-- What comes in is younger than all that is there. -/
theorem older_of_insert {digest : UInt64} {x h : Handle} (old : Relates calls digest x)
    (new : ¬ Relates calls digest h) : Older (calls ++ [.insert digest h]) digest x h := by
  obtain ⟨k, since⟩ := old.exists_since
  exact ⟨k, calls.length, since.concat (by simp), relatesSince_insert new, since.lt_length⟩

/-- One call keeps the order. -/
theorem order_call (mem : ∀ digest h, h ∈ b.candidates digest ↔ Relates calls digest h)
    (order : ∀ digest, (b.candidates digest).Pairwise (Older calls digest)) (c : BucketCall UInt64)
    (digest : UInt64) : ((b.call c).candidates digest).Pairwise (Older (calls ++ [c]) digest) := by
  cases c with
  | insert digest' h =>
    have before : (b.candidates digest).Pairwise
        (Older (calls ++ [.insert digest' h]) digest) :=
      (order digest).imp fun older => older.concat (by simp) (by simp)
    rw [call, candidates_insert]
    split
    · rename_i hd
      subst hd
      split
      · exact before
      · rename_i new
        rw [mem] at new
        rw [List.pairwise_append]
        refine ⟨before, List.pairwise_singleton _ _, ?_⟩
        intro x hx y hy
        rw [List.mem_singleton.mp hy]
        exact older_of_insert ((mem _ _).mp hx) new
    · exact before
  | erase digest' h =>
    rw [call, candidates_erase]
    split
    · rename_i hd
      subst hd
      refine ((order digest').filter _).imp_of_mem ?_
      intro x y hx hy older
      -- what is left in the bucket is not what has been taken away
      have left : ∀ {z}, z ∈ (b.candidates digest').filter (· ≠ h) →
          BucketCall.erase digest' h ≠ .erase digest' z := by
        intro z hz heq
        cases heq
        simp at hz
      exact older.concat (left hx) (left hy)
    · rename_i hd
      refine (order digest).imp fun older => older.concat ?_ ?_
      all_goals
        intro heq
        cases heq
        exact hd rfl

/-- **Candidates for a digest** stand in the order in which they came to stay. -/
theorem order_run (calls : List (BucketCall UInt64)) (digest : UInt64) :
    ((run calls).candidates digest).Pairwise (Older calls digest) := by
  induction calls using List.reverseRecOn generalizing digest with
  | nil =>
    rw [run, List.foldl_nil, candidates_empty]
    exact List.Pairwise.nil
  | append_singleton calls c ih =>
    rw [run, List.foldl_concat, ← run]
    exact order_call (mem_candidates_run calls) ih c digest

/-- Nothing is older than itself, and so nothing stands in a bucket twice. -/
theorem nodup_candidates_run (calls : List (BucketCall UInt64)) (digest : UInt64) :
    ((run calls).candidates digest).Nodup := by
  refine (order_run calls digest).imp ?_
  rintro h h' ⟨k, k', since, since', hlt⟩ rfl
  exact hlt.ne (since.unique since')

/-- There are no buckets at all if there is nothing to hold. -/
theorem Tight.isEmpty_iff (tight : b.Tight) : b.isEmpty ↔ b.size = 0 := by
  rw [isEmpty, Std.TreeMap.isEmpty_iff_forall_contains, ← length_pairs, List.length_eq_zero_iff,
    List.eq_nil_iff_forall_not_mem]
  simp only [Std.TreeMap.contains_eq_isSome_getElem?, Option.isSome_eq_false_iff,
    Option.isNone_iff_eq_none, Prod.forall, mem_pairs, candidates]
  constructor
  · intro missing digest h hh
    simp [missing digest] at hh
  · intro hollow digest
    cases hb : b.buckets[digest]? with
    | none => rfl
    | some handles =>
      have hne : handles ≠ [] := by
        rintro rfl
        exact tight digest hb
      obtain ⟨h, hh⟩ := List.exists_mem_of_ne_nil handles hne
      exact absurd hh (by simpa [hb] using hollow digest h)

/-- **The index by digest after any calls** holds what has been put in and not been taken out
since, in the order in which it has come in. -/
theorem represents_run (calls : List (BucketCall UInt64)) : (run calls).Represents calls := by
  have mem := mem_candidates_run calls
  have nodup := nodup_candidates_run calls
  constructor
  case mem => exact mem
  case nodup => exact nodup
  case order => exact order_run calls
  case again =>
    intro digest h related digest'
    rw [candidates_insert, if_pos ((mem digest h).mpr related)]
    split
    · rename_i hd
      rw [hd]
    · rfl
  case size =>
    rw [← length_pairs, encard_eq_length (nodup_pairs nodup)]
    rintro ⟨digest, h⟩
    rw [mem_pairs, mem]
  case isEmpty => exact (tight_run calls).isEmpty_iff

/-- Put in twice, a handle keeps its place; taken out in between, it comes last. -/
example : (run [.insert 42 ⟨1⟩, .insert 42 ⟨2⟩, .insert 42 ⟨1⟩]).candidates 42 = [⟨1⟩, ⟨2⟩] ∧
    (run [.insert 42 ⟨1⟩, .insert 42 ⟨2⟩, .erase 42 ⟨1⟩, .insert 42 ⟨1⟩]).candidates 42
      = [⟨2⟩, ⟨1⟩] := by
  decide

end DigestBuckets

/-! ## The incidence -/

namespace Incidence

/-- A call on the incidence. -/
inductive Call where
  | register (h : Handle)
  | unregister (h : Handle)
  | addLink (link : Handle) (members : List Handle)
  | removeLink (link : Handle) (members : List Handle)

namespace Call

/-- An entry starts if its handle is registered or is a member of a link. -/
def Starts (h : Handle) : Call → Prop
  | .register h' => h' = h
  | .addLink _ members => h ∈ members
  | _ => False

/-- The call ends an entry. -/
def Drops (h : Handle) : Call → Prop
  | .unregister h' => h' = h
  | _ => False

/-- The call records a link for a member. -/
def Records (link h : Handle) : Call → Prop
  | .addLink link' members => link' = link ∧ h ∈ members
  | _ => False

/-- With an entry, all that it holds is dropped. -/
def Cancels (link h : Handle) : Call → Prop
  | .removeLink link' members => link' = link ∧ h ∈ members
  | .unregister h' => h' = h
  | _ => False

end Call

/-- An entry has started and not been dropped since. -/
def Tracked (calls : List Call) (h : Handle) : Prop :=
  Standing (Call.Starts h) (Call.Drops h) calls

/-- A link has been recorded for a member and not been dropped from there since. -/
def Linked (calls : List Call) (link h : Handle) : Prop :=
  Standing (Call.Records link h) (Call.Cancels link h) calls

/-- What a call does to the index by member. -/
def call (i : Incidence) : Call → Incidence
  | .register h => i.register h
  | .unregister h => i.unregister h
  | .addLink link members => i.addLink link members
  | .removeLink link members => i.removeLink link members

/-- What some calls make of an incidence without entries. -/
def run (calls : List Call) : Incidence := calls.foldl call empty

/-- All that is read from the incidence is read off the handles that have an entry and the relation
between links and members. -/
structure Represents (i : Incidence) (tracked : Handle → Prop) (linked : Handle → Handle → Prop) :
    Prop where
  entry : ∀ h links, i.get? h = some links ↔ tracked h ∧ Enumerates (linked · h) links
  missing : ∀ h, i.get? h = none ↔ ¬ tracked h
  degree : ∀ h, (i.degree h : ℕ∞) = {link | linked link h}.encard
  listed : ∀ h links, (h, links) ∈ i.toList ↔ tracked h ∧ Enumerates (linked · h) links
  handles : Enumerates tracked (i.toList.map (·.1))
  size : (i.size : ℕ∞) = {h | tracked h}.encard
  isEmpty : i.isEmpty ↔ i.size = 0

/-- **The index by member** knows of a handle exactly if the calls track it. -/
theorem contains_run (calls : List Call) (h : Handle) :
    (run calls).contains h ↔ Tracked calls h := by
  induction calls using List.reverseRecOn with
  | nil => exact iff_of_false (not_contains_empty h) not_standing_nil
  | append_singleton calls c ih =>
    rw [run, List.foldl_concat, ← run, Tracked, standing_concat, ← Tracked, ← ih]
    cases c with
    | register h' => simp [call, contains_register, Call.Starts, Call.Drops]
    | unregister h' => simp [call, contains_unregister, Call.Starts, Call.Drops]
    | addLink link members => simp [call, contains_addLink, Call.Starts, Call.Drops]
    | removeLink link members => simp [call, contains_removeLink, Call.Starts, Call.Drops]

/-- **The index by member** lists a link under a handle exactly if the calls link them. -/
theorem lists_run (calls : List Call) (link h : Handle) :
    (run calls).Lists link h ↔ Linked calls link h := by
  induction calls using List.reverseRecOn with
  | nil => exact iff_of_false (not_lists_empty link h) not_standing_nil
  | append_singleton calls c ih =>
    rw [run, List.foldl_concat, ← run, Linked, standing_concat, ← Linked, ← ih]
    cases c with
    | register h' => simp [call, lists_register, Call.Records, Call.Cancels]
    | unregister h' => simp [call, lists_unregister, Call.Records, Call.Cancels]
    | addLink link' members => simp [call, lists_addLink, Call.Records, Call.Cancels]
    | removeLink link' members => simp [call, lists_removeLink, Call.Records, Call.Cancels]

section

variable {i : Incidence} {tracked : Handle → Prop} {linked : Handle → Handle → Prop}

/-- The links of an entry, be there one or not. -/
theorem enumerates_entry (lists : ∀ link h, i.Lists link h ↔ linked link h) (h : Handle) :
    Enumerates (linked · h) ((i.get? h).getD []) :=
  ⟨i.ascending_entry h, (lists · h)⟩

/-- The list of an entry enumerates the links to it, and there is one only for a tracked handle. -/
theorem get?_eq_some_iff (contains : ∀ h, i.contains h ↔ tracked h)
    (lists : ∀ link h, i.Lists link h ↔ linked link h) {h : Handle} {links : List Handle} :
    i.get? h = some links ↔ tracked h ∧ Enumerates (linked · h) links := by
  have enumerates := enumerates_entry lists h
  rw [← contains, contains_iff_get?]
  constructor
  · intro hl
    rw [hl, Option.getD_some] at enumerates
    exact ⟨⟨links, hl⟩, enumerates⟩
  · rintro ⟨⟨links', hl⟩, members⟩
    rw [hl, Option.getD_some] at enumerates
    rw [hl, enumerates.unique members]

/-- An incidence can be read off its entries and what they list. -/
theorem represents (contains : ∀ h, i.contains h ↔ tracked h)
    (lists : ∀ link h, i.Lists link h ↔ linked link h) : i.Represents tracked linked := by
  have handles : Enumerates tracked i.links.keys := by
    refine ⟨ascending_keys i.links, fun h => ?_⟩
    rw [Std.TreeMap.mem_keys, Std.TreeMap.mem_iff_contains]
    exact contains h
  constructor
  case entry => exact fun h links => get?_eq_some_iff contains lists
  case missing =>
    intro h
    rw [← contains, contains_iff_get?, ← Option.isSome_iff_exists, Bool.not_eq_true,
      Option.isSome_eq_false_iff, Option.isNone_iff_eq_none]
  case degree =>
    intro h
    rw [degree_eq, (enumerates_entry lists h).encard]
  case listed =>
    intro h links
    rw [mem_toList, get?_eq_some_iff contains lists]
  case handles =>
    rw [map_fst_toList]
    exact handles
  case size => rw [handles.encard, Std.TreeMap.length_keys, size]
  case isEmpty => rw [isEmpty, size, Std.TreeMap.isEmpty_eq_size_eq_zero, beq_iff_eq]

end

/-- **The incidence after any calls** has the handles that have been registered or named as members
and not been unregistered since, each with the links that have been recorded for it and not been
dropped since. -/
theorem represents_run (calls : List Call) :
    (run calls).Represents (Tracked calls) (Linked calls) :=
  represents (contains_run calls) (lists_run calls)

end Incidence

/-- **The indices are relations**, whatever calls have been made on them. -/
theorem indices_represent_relations :
    (∀ calls, (TypeBuckets.run calls).Represents (Relates calls)) ∧
      (∀ calls, (DigestBuckets.run calls).Represents calls) ∧
        ∀ calls, (Incidence.run calls).Represents (Incidence.Tracked calls)
          (Incidence.Linked calls) :=
  ⟨TypeBuckets.represents_run, DigestBuckets.represents_run, Incidence.represents_run⟩

end TypedHypergraph
