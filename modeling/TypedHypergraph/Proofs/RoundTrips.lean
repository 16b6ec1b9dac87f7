/-
# Round trips

What is written in JSON and read again is what it was: for descriptions in both of their forms,
terms, targets, conditions, and all requests (`RoundTrips`).  It does not matter how deep a value
is, and a value that was read, from whatever members in whatever order, is of the sort that can be
written and read again, so that to write it once more gives the same.

What can be written is bounded by its numbers only: handles, indices and caps fit into 64 bits, and
floats are finite.
-/
import TypedHypergraph.Form.Request
import TypedHypergraph.Form.Tagged
import TypedHypergraph.Proofs.Recognising

namespace TypedHypergraph

/-! ## Observations and types -/

namespace Observation

/-- Both numbers are finite. -/
structure Expressible (o : Observation) : Prop where
  strength : o.strength.isFinite = true
  confidence : o.confidence.isFinite = true

/-- **Observations** are read back as they were written, and nothing else is read. -/
theorem lawful_read : form.read.Lawful toJson Expressible := by
  have strength := Form.lawful_required "strength" Reader.lawful_float
  have confidence := Form.lawful_required "confidence" Reader.lawful_float
  refine Form.Lawful.read (r := form) (Form.Lawful.map (strength.both confidence ?_) ?_ ?_)
  · simp [Field.required]
  · rintro ⟨s, c⟩ ⟨hs, hc⟩
    exact ⟨hs, hc⟩
  · rintro ⟨s, c⟩ ⟨hs, hc⟩
    exact ⟨(s, c), ⟨hs, hc⟩, rfl, rfl⟩

theorem toJson_ne_null (o : Observation) : o.toJson ≠ .null := by simp [toJson]

end Observation

namespace TypeDeclaration

/-- **Declarations of types** are read back as they were written. -/
theorem lawful_read : form.read.Lawful toJson fun _ => True := by
  have name := Form.lawful_required "name" Reader.lawful_text
  have parent := Form.lawful_optional "parent" Reader.lawful_text (by simp)
  refine Form.Lawful.read (r := form) (Form.Lawful.map (name.both parent ?_) ?_ ?_)
  · intro o x hx
    rw [Form.fst_of_mem_member? hx]
    simp [Field.required]
  · exact fun _ _ => trivial
  · rintro ⟨name, parent⟩ -
    exact ⟨(name, parent), ⟨trivial, fun _ _ => trivial⟩, rfl, rfl⟩

end TypeDeclaration

/-! ## Insertions and changes of truth -/

namespace Insertion

/-- The parts of an insertion can be written. -/
structure Expressible (i : Insertion) : Prop where
  atom : i.atom.Expressible
  truth : ∀ o ∈ i.truth, o.Expressible

/-- **Insertions** are read back as they were written, and nothing else is read. -/
theorem lawful_read : form.read.Lawful toJson Expressible := by
  have atom := Form.lawful_required "atom" Description.lawful_read
  have truth := Form.lawful_optional "truth" Observation.lawful_read Observation.toJson_ne_null
  refine Form.Lawful.read (r := form) (Form.Lawful.map (atom.both truth ?_) ?_ ?_)
  · intro o x hx
    rw [Form.fst_of_mem_member? hx]
    simp [Field.required]
  · rintro ⟨atom, truth⟩ ⟨hatom, htruth⟩
    exact ⟨hatom, htruth⟩
  · rintro ⟨atom, truth⟩ ⟨hatom, htruth⟩
    exact ⟨(atom, truth), ⟨hatom, htruth⟩, rfl, rfl⟩

end Insertion

namespace TruthChange

/-- The observation, if there is one, can be written. -/
def Expressible (c : TruthChange) : Prop := ∀ o ∈ c.truth, o.Expressible

/-- **Changes of truth values** are read back as they were written, and nothing else is read. -/
theorem lawful_read : form.read.Lawful toJson Expressible := by
  have truth := Form.lawful_nullable "truth" Observation.lawful_read Observation.toJson_ne_null
  have replace := Form.lawful_withDefault "replace" false Reader.lawful_flag trivial
  refine Form.Lawful.read (r := form) (Form.Lawful.map (truth.both replace ?_) ?_ ?_)
  · simp [Field.nullable]
  · rintro ⟨truth, replace⟩ ⟨htruth, -⟩
    exact htruth
  · rintro ⟨truth, replace⟩ htruth
    exact ⟨(truth, replace), ⟨htruth, trivial⟩, rfl, rfl⟩

end TruthChange

/-! ## Conditions -/

namespace Condition

/-- The target and the minimums of a condition can be written. -/
inductive Expressible : Condition → Prop
  | truthAtLeast {target : Target} {s c : Float} (expressible : target.Expressible)
      (strength : s.isFinite = true) (confidence : c.isFinite = true) :
      Expressible (.truthAtLeast target s c)
  | typeIs {target : Target} (typeName : String) (withSubtypes : Bool)
      (expressible : target.Expressible) : Expressible (.typeIs target typeName withSubtypes)
  | distinct (a b : String) : Expressible (.distinct a b)

/-- The kind of a condition. -/
def kind : Condition → Kind
  | .truthAtLeast .. => .truthAtLeast
  | .typeIs .. => .typeIs
  | .distinct .. => .distinct

/-- The members of a condition besides its kind. -/
def fields : Condition → List (String × Json)
  | .truthAtLeast target s c =>
    [("target", target.toJson), ("min_strength", .float s), ("min_confidence", .float c)]
  | .typeIs target typeName withSubtypes =>
    [("target", target.toJson), ("type", .str typeName), ("include_subtypes", .bool withSubtypes)]
  | .distinct a b => [("a", .str a), ("b", .str b)]

/-- A condition is written with its kind in front of its fields. -/
theorem toJson_eq (c : Condition) :
    c.toJson = .obj (("kind", .str c.kind.name) :: c.fields) := by
  cases c <;> rfl

/-- The fields of each kind are lawful for the conditions of this kind. -/
theorem lawful_form (k : Kind) : (form k).Lawful fields fun c => c.kind = k ∧ c.Expressible := by
  cases k with
  | truthAtLeast =>
    have target := Form.lawful_required "target" Target.lawful_read
    have strength := Form.lawful_withDefault "min_strength" 0 Reader.lawful_float (by decide)
    have confidence := Form.lawful_withDefault "min_confidence" 0 Reader.lawful_float (by decide)
    refine Form.Lawful.map (target.both (strength.both confidence ?_) ?_) ?_ ?_
    · simp [Field.withDefault]
    · simp [Field.required]
    · rintro ⟨t, s, c⟩ ⟨ht, hs, hc⟩
      exact ⟨rfl, .truthAtLeast ht hs hc⟩
    · rintro c ⟨hk, h⟩
      cases h with
      | @truthAtLeast t s c ht hs hc => exact ⟨(t, s, c), ⟨ht, hs, hc⟩, rfl, rfl⟩
      | typeIs => cases hk
      | distinct => cases hk
  | typeIs =>
    have target := Form.lawful_required "target" Target.lawful_read
    have type := Form.lawful_required "type" Reader.lawful_text
    have subtypes := Form.lawful_withDefault "include_subtypes" false Reader.lawful_flag trivial
    refine Form.Lawful.map (target.both (type.both subtypes ?_) ?_) ?_ ?_
    · simp [Field.required]
    · simp [Field.required]
    · rintro ⟨t, typeName, sub⟩ ⟨ht, -⟩
      exact ⟨rfl, .typeIs typeName sub ht⟩
    · rintro c ⟨hk, h⟩
      cases h with
      | truthAtLeast => cases hk
      | @typeIs t typeName sub ht => exact ⟨(t, typeName, sub), ⟨ht, trivial, trivial⟩, rfl, rfl⟩
      | distinct => cases hk
  | distinct =>
    have a := Form.lawful_required "a" Reader.lawful_text
    have b := Form.lawful_required "b" Reader.lawful_text
    refine Form.Lawful.map (a.both b ?_) ?_ ?_
    · simp [Field.required]
    · rintro ⟨a, b⟩ -
      exact ⟨rfl, .distinct a b⟩
    · rintro c ⟨hk, h⟩
      cases h with
      | truthAtLeast => cases hk
      | typeIs => cases hk
      | distinct a b => exact ⟨(a, b), ⟨trivial, trivial⟩, rfl, rfl⟩

/-- No field of a condition is named like its kind. -/
theorem ne_kind_of_mem_fields {c : Condition} {x : String × Json} (hx : x ∈ c.fields) :
    x.1 ≠ "kind" := by
  cases c <;> simp only [fields, List.mem_cons, List.not_mem_nil, or_false] at hx <;> aesop

/-- The kind of a condition is read back as it was written. -/
theorem read_kind (k : Kind) : Kind.read.Makes (.str k.name) k := by
  cases k <;> rfl

/-- What is not the kind of a condition is left to its fields. -/
theorem splitKind_other {m : Manner} {k : Option Kind} {name : String} {value : Scanned}
    {rest : List (Option String × Scanned)} (other : name ≠ "kind") :
    splitKind m k ((some name, value) :: rest) = match value.value? m.room with
      | none => .error .syntactic
      | some value => do
        let (k, others) ← splitKind m k rest
        return (k, (name, value) :: others) := by
  rw [splitKind.eq_def]
  exact if_neg other

/-- Members of other names are left to the fields. -/
theorem splitKind_others {k : Option Kind} {members : List (String × Json)}
    (others : ∀ x ∈ members, x.1 ≠ "kind") :
    splitKind .free k (Scanned.ofMembers members) = .ok (k, members) := by
  induction members with
  | nil => rfl
  | cons member rest ih =>
    obtain ⟨name, value⟩ := member
    rw [List.forall_mem_cons] at others
    rw [Scanned.ofMembers, splitKind_other others.1, show Manner.free.room = none from rfl,
      Scanned.value?_ofValue]
    dsimp only
    rw [ih others.2]
    rfl

/-- The fields of a kind are read by the form of this kind. -/
theorem ofFields_eq_ok {k : Kind} {v : Json} {c : Condition} :
    ofFields k v = .ok c ↔ (form k).read.Makes v c := by
  unfold ofFields Form.ofJson? Reader.Makes
  rw [Form.orMismatch_eq_ok]
  cases (form k).read .free (.ofValue v) with
  | error fault => simp
  | ok a => simp

/-- Splitting the kind off leaves members that are finite. -/
theorem membersFinite_of_splitKind {m : Manner} {k k' : Option Kind}
    {members : List (Option String × Scanned)} {others : List (String × Json)}
    (finite : Scanned.MembersFinite members) (ok : splitKind m k members = .ok (k', others)) :
    Scanned.MembersFinite (Scanned.ofMembers others) := by
  induction members generalizing k others with
  | nil =>
    cases ok
    trivial
  | cons member rest ih =>
    obtain ⟨_ | name, value⟩ := member
    · cases ok
    · rw [Scanned.MembersFinite] at finite
      by_cases hname : name = "kind"
      · subst hname
        cases k with
        | some _ => cases ok
        | none =>
          obtain ⟨k'', -, ok⟩ := Guards.bind_eq_ok.mp ok
          exact ih finite.2 ok
      · rw [splitKind_other hname] at ok
        split at ok
        case h_1 => cases ok
        case h_2 v hv =>
          obtain ⟨⟨k'', more⟩, hmore, ok⟩ := Guards.bind_eq_ok.mp ok
          cases ok
          rw [Scanned.ofMembers, Scanned.MembersFinite]
          exact ⟨Scanned.finite_of_value? finite.1 hv, ih finite.2 hmore⟩

/-- A condition that can be written down is made of what was written. -/
theorem Expressible.makes {c : Condition} (h : c.Expressible) : read.Makes c.toJson c := by
  have fields : ofFields c.kind (.obj c.fields) = .ok c :=
    ofFields_eq_ok.mpr ((lawful_form c.kind).read.back c ⟨rfl, h⟩)
  -- the kind stands first; all that follows is left to its fields
  unfold Reader.Makes
  rw [toJson_eq, Scanned.ofValue, Scanned.ofMembers]
  show (do
    let (k, others) ← splitKind .free none _
    ofFields (← Form.orMismatch k) (.obj others)) = _
  rw [splitKind, if_pos rfl]
  show (do
    let (k, others) ← (do
      let k ← Kind.read .free (.ofValue (.str c.kind.name))
      splitKind .free (some k) (Scanned.ofMembers c.fields))
    ofFields (← Form.orMismatch k) (.obj others)) = _
  rw [read_kind c.kind]
  show (do
    let (k, others) ← splitKind .free (some c.kind) (Scanned.ofMembers c.fields)
    ofFields (← Form.orMismatch k) (.obj others)) = _
  rw [splitKind_others fun _ => ne_kind_of_mem_fields]
  exact fields

/-- What is read from the fields of a kind can be written down again. -/
theorem yields_ofFields {k : Kind} {v : Json} {c : Condition} (finite : (Scanned.ofValue v).Finite)
    (ok : ofFields k v = .ok c) : c.Expressible :=
  ((lawful_form k).read.yields _ _ c finite (ofFields_eq_ok.mp ok)).2

/-- **Conditions** are read back as they were written, and nothing else is read. -/
theorem lawful_read : read.Lawful toJson Expressible := by
  refine ⟨fun c h => h.makes, ?_⟩
  intro m tree c finite ok
  cases tree with
  | obj members closed =>
    rw [Scanned.Finite] at finite
    obtain ⟨m', -, ok⟩ := Guards.bind_eq_ok.mp ok
    obtain ⟨⟨k, others⟩, hsplit, ok⟩ := Guards.bind_eq_ok.mp ok
    cases closed with
    | false => cases ok
    | true =>
      obtain ⟨k', -, ok⟩ := Guards.bind_eq_ok.mp ok
      refine yields_ofFields ?_ ok
      rw [Scanned.ofValue, Scanned.Finite]
      exact membersFinite_of_splitKind finite hsplit
  | arr items closed =>
    cases items with
    | nil => cases ok
    | cons first rest =>
      rw [Scanned.Finite, Scanned.AllFinite] at finite
      obtain ⟨m', -, ok⟩ := Guards.bind_eq_ok.mp ok
      obtain ⟨k, -, ok⟩ := Guards.bind_eq_ok.mp ok
      split at ok
      case h_1 values hvalues =>
        cases closed with
        | false => cases ok
        | true =>
          refine yields_ofFields ?_ ok
          rw [Scanned.ofValue, Scanned.Finite]
          exact Scanned.allFinite_of_values? finite.2 hvalues
      case h_2 => cases ok
  | _ => cases ok

end Condition

/-! ## Inquiries -/

namespace Inquiry

/-- The parts of an inquiry can be written, and its caps fit into 64 bits. -/
structure Expressible (i : Inquiry) : Prop where
  clauses : ∀ t ∈ i.clauses, t.Expressible
  conditions : ∀ c ∈ i.conditions, c.Expressible
  results : ∀ n ∈ i.caps.results, n ≤ Limits.lastCount
  steps : ∀ n ∈ i.caps.steps, n ≤ Limits.lastCount

/-- The member for conditions has its name. -/
theorem fst_of_mem_conditionsMember {conditions : List Condition} {x : String × Json}
    (h : x ∈ conditionsMember conditions) : x.1 = "constraints" := by
  cases conditions with
  | nil => cases h
  | cons c rest =>
    rw [conditionsMember, List.mem_singleton] at h
    · rw [h]
    · simp

/-- No conditions are the same as no member for them. -/
theorem lawful_conditions :
    (Form.field (.withDefault "constraints" (Reader.list Condition.read) [])).Lawful
      conditionsMember fun cs => ∀ c ∈ cs, c.Expressible := by
  have written := Form.lawful_withDefault "constraints" [] Condition.lawful_read.list (by simp)
  -- an empty list is not written, and a missing member stands for it
  refine ⟨fun cs h => ?_, written.yields⟩
  cases cs with
  | nil => exact Form.says_absent rfl
  | cons c rest => exact written.back (c :: rest) h

/-- **Inquiries** are read back as they were written, and nothing else is read. -/
theorem lawful_read : form.read.Lawful toJson Expressible := by
  have clauses := Form.lawful_required "clauses" Term.lawful_read.list
  have cap := Reader.lawful_upTo Limits.lastCount
  have results := Form.lawful_optional "max_results" cap (by simp [Json.nat])
  have steps := Form.lawful_optional "max_steps" cap (by simp [Json.nat])
  refine Form.Lawful.read (r := form) (Form.Lawful.map
    ((clauses.both lawful_conditions ?_).both (results.both steps ?_) ?_) ?_ ?_)
  · intro cs x hx
    rw [fst_of_mem_conditionsMember hx]
    simp [Field.required]
  · intro o x hx
    rw [Form.fst_of_mem_member? hx]
    simp [Field.optional, Field.withDefault]
  · rintro ⟨results, steps⟩ x hx
    rcases List.mem_append.mp hx with hx | hx
    · rw [Form.fst_of_mem_member? hx]
      simp [Field.required, Field.withDefault]
    · rw [Form.fst_of_mem_member? hx]
      simp [Field.required, Field.withDefault]
  · rintro ⟨⟨clauses, conditions⟩, results, steps⟩ ⟨⟨hclauses, hconditions⟩, hresults, hsteps⟩
    exact ⟨hclauses, hconditions, hresults, hsteps⟩
  · rintro ⟨clauses, conditions, ⟨results, steps⟩⟩ h
    refine ⟨((clauses, conditions), (results, steps)),
      ⟨⟨h.clauses, h.conditions⟩, h.results, h.steps⟩, rfl, ?_⟩
    exact List.append_assoc _ _ _

end Inquiry

/-! ## Scripts -/

namespace Script

/-- The requests of a script can be written. -/
structure Expressible (s : Script) : Prop where
  insertions : ∀ i ∈ s.insertions, i.Expressible
  inquiries : ∀ i ∈ s.inquiries, i.Expressible

/-- **Scripts** are read back as they were written, and nothing else is read. -/
theorem lawful_read : form.read.Lawful toJson Expressible := by
  have types := Form.lawful_withDefault "types" [] TypeDeclaration.lawful_read.list (by simp)
  have atoms := Form.lawful_withDefault "atoms" [] Insertion.lawful_read.list (by simp)
  have queries := Form.lawful_withDefault "queries" [] Inquiry.lawful_read.list (by simp)
  refine Form.Lawful.read (r := form) (Form.Lawful.map
    (types.both (atoms.both queries ?_) ?_) ?_ ?_)
  · simp [Field.withDefault]
  · simp [Field.withDefault]
  · rintro ⟨types, insertions, inquiries⟩ ⟨-, hinsertions, hinquiries⟩
    exact ⟨hinsertions, hinquiries⟩
  · rintro ⟨types, insertions, inquiries⟩ h
    exact ⟨(types, insertions, inquiries),
      ⟨fun _ _ => trivial, h.insertions, h.inquiries⟩, rfl, rfl⟩

end Script

/-! ## Tagged descriptions -/

namespace Description

/-- Several tagged descriptions are written one by one. -/
theorem toTaggedAll_eq_map (members : List Description) :
    toTaggedAll members = members.map toTagged := by
  induction members with
  | nil => rfl
  | cons d rest ih => rw [toTaggedAll, ih, List.map_cons]

/-! ### Reading back -/

/-- The fields of a node say the node. -/
theorem says_nodeFields (typeName name : String) :
    nodeFields.Says [("atom_type", .str typeName), ("name", .str name)] (.node typeName name) := by
  have type := (Form.lawful_required "atom_type" Reader.lawful_text).back typeName trivial
  have name := (Form.lawful_required "name" Reader.lawful_text).back name trivial
  exact (type.both name (by simp [Field.required])).map _

/-- The fields of a link say the link, if its members are read back. -/
theorem says_linkFields {member : Reader Description} (typeName : String)
    {members : List Description} (each : ∀ d ∈ members, member.Makes d.toTagged d) :
    (linkFields member).Says
      [("atom_type", .str typeName), ("outgoing", .arr (members.map toTagged))]
      (.link typeName members) := by
  have type := (Form.lawful_required "atom_type" Reader.lawful_text).back typeName trivial
  have outgoing := Form.says_field (f := .required "outgoing" (Reader.list member))
    (Reader.makes_list each)
  exact (type.both outgoing (by simp [Field.required])).map _

/-- What stands behind the only tag is the whole, as long as the fuel reaches its height. -/
theorem makes_readTaggedUpTo {height : Nat} {tag : String} {v : Json} {d : Description}
    (high : (Scanned.ofValue (.obj [(tag, v)])).height ≤ height)
    (behind : ∀ inner, (Scanned.ofValue v).height ≤ inner →
      (readBehind (readTaggedUpTo inner) tag).Makes v d) :
    (readTaggedUpTo height).Makes (.obj [(tag, v)]) d := by
  simp only [Scanned.ofValue, Scanned.ofMembers, Scanned.height, Scanned.heightOfMembers,
    Nat.max_zero] at high
  cases height with
  | zero => omega
  | succ inner =>
    show (do
      let d ← readBehind (readTaggedUpTo inner) tag .free (.ofValue v)
      if true then return d else throw ReadFault.syntactic) = _
    rw [behind inner (by omega)]
    rfl

/-- No item is higher than the list that it stands in. -/
theorem height_le_of_mem {items : List Json} {item : Json} (h : item ∈ items) :
    (Scanned.ofValue item).height ≤ Scanned.heightOfItems (Scanned.ofValues items) := by
  induction items with
  | nil => cases h
  | cons first rest ih =>
    rw [Scanned.ofValues, Scanned.heightOfItems]
    rcases List.mem_cons.mp h with rfl | h
    · exact Nat.le_max_left _ _
    · exact Nat.le_trans (ih h) (Nat.le_max_right _ _)

/-- A tagged description is read back by a reader for its height. -/
theorem Expressible.makes_tagged {d : Description} (h : d.Expressible) {height : Nat}
    (high : (Scanned.ofValue d.toTagged).height ≤ height) :
    (readTaggedUpTo height).Makes d.toTagged d := by
  induction h generalizing height with
  | node typeName name =>
    rw [toTagged] at high ⊢
    exact makes_readTaggedUpTo high fun _ _ => (says_nodeFields typeName name).makes
  | @link typeName members each ih =>
    rw [toTagged, toTaggedAll_eq_map] at high ⊢
    refine makes_readTaggedUpTo high fun inner high' => ?_
    -- what is left of the fuel reaches every member
    refine (says_linkFields typeName fun d hd => ih d hd ?_).makes
    have low := height_le_of_mem (List.mem_map_of_mem (f := toTagged) hd)
    simp only [Scanned.ofValue, Scanned.ofMembers, Scanned.height, Scanned.heightOfMembers,
      Nat.max_zero] at high'
    omega
  | @stored h fits =>
    rw [toTagged] at high ⊢
    refine makes_readTaggedUpTo high fun _ _ => ?_
    show (Reader.upTo Limits.lastHandle .free (.ofValue (.nat h.value))).map _ = _
    rw [(Reader.lawful_upTo Limits.lastHandle).back h.value fits]
    rfl

/-! ### What is read -/

/-- Behind its tag a form yields what it yields. -/
theorem yields_readTagged {r : Form Description} {P : Description → Prop} (h : r.Yields P) :
    r.readTagged.Yields P := by
  intro m tree d finite ok
  cases tree with
  | arr items closed =>
    unfold Form.readTagged at ok
    dsimp only at ok
    split at ok
    · exact h.read m _ d finite ok
    · cases ok
  | _ => exact h.read m _ d finite ok

/-- Behind its tag a variant yields what can be written down. -/
theorem yields_readBehind {member : Reader Description} (h : member.Yields Expressible)
    (tag : String) : (readBehind member tag).Yields Expressible := by
  have type := Form.lawful_required "atom_type" Reader.lawful_text
  have name := Form.lawful_required "name" Reader.lawful_text
  have outgoing := Form.yields_field (Field.yields_required "outgoing" h.list)
  have nodes : nodeFields.Yields Expressible :=
    (type.yields.both name.yields).map fun x _ => .node x.1 x.2
  have links : (linkFields member).Yields Expressible :=
    (type.yields.both outgoing).map fun _ hx => .link hx.2
  intro m tree d finite ok
  unfold readBehind at ok
  split at ok
  · exact yields_readTagged nodes m tree d finite ok
  · split at ok
    · exact yields_readTagged links m tree d finite ok
    · split at ok
      · obtain ⟨n, hn, rfl⟩ := Guards.map_eq_ok.mp ok
        exact .stored ((Reader.lawful_upTo Limits.lastHandle).yields m tree n finite hn)
      · cases ok

/-- What is read up to a height can be written down again. -/
theorem yields_readTaggedUpTo (height : Nat) : (readTaggedUpTo height).Yields Expressible := by
  induction height with
  | zero =>
    intro m tree d _ ok
    cases tree with
    | obj members closed => obtain _ | ⟨⟨_ | tag, value⟩, more⟩ := members <;> cases ok
    | _ => cases ok
  | succ height ih =>
    intro m tree d finite ok
    cases tree with
    | obj members closed =>
      obtain _ | ⟨⟨_ | tag, value⟩, more⟩ := members
      · cases ok
      · cases ok
      · rw [Scanned.Finite, Scanned.MembersFinite] at finite
        obtain ⟨m', -, ok⟩ := Guards.bind_eq_ok.mp ok
        obtain ⟨d', hd, ok⟩ := Guards.bind_eq_ok.mp ok
        split at ok
        · cases ok
          exact yields_readBehind ih tag m' value d finite.1 hd
        · cases ok
    | _ => cases ok

/-- **Tagged descriptions** are read back as they were written, and nothing else is read. -/
theorem lawful_readTagged : readTagged.Lawful toTagged Expressible :=
  ⟨fun _ h => h.makes_tagged (Nat.le_refl _),
    fun m tree => yields_readTaggedUpTo tree.height m tree⟩

end Description

/-! ## Round trips -/

/-- Values that are expressible are read back from what is written for them; and whatever is read
from a value with finite numbers is expressible, and so it is read back. -/
structure RoundTrips {α : Type} (write : α → Json) (read : Reader α) (Expressible : α → Prop) :
    Prop where
  back : ∀ a, Expressible a → read.Makes (write a) a
  again : ∀ v a, (Scanned.ofValue v).Finite → read.Makes v a →
    Expressible a ∧ read.Makes (write a) a

/-- What a lawful reader reads makes the round trip in both directions. -/
theorem Reader.Lawful.roundTrips {α : Type} {write : α → Json} {read : Reader α}
    {Expressible : α → Prop} (h : read.Lawful write Expressible) :
    RoundTrips write read Expressible := by
  refine ⟨h.back, fun v a finite made => ?_⟩
  have expressible : Expressible a := h.yields _ _ a finite made
  exact ⟨expressible, h.back a expressible⟩

/-- **What is written is read back**, and what has been read is read back from what is written for
it: descriptions in both forms, terms, targets, conditions and requests, however deep they are.
Where a form has no tags, no value is ever taken for one of another kind; the members of a link are
values of the same sort, so this holds on every level. -/
theorem forms_roundTrip :
    RoundTrips Description.toJson Description.read Description.Expressible ∧
      RoundTrips Description.toTagged Description.readTagged Description.Expressible ∧
      RoundTrips Term.toJson Term.read Term.Expressible ∧
      RoundTrips Target.toJson Target.read Target.Expressible ∧
      RoundTrips Condition.toJson Condition.read Condition.Expressible ∧
      RoundTrips TypeDeclaration.toJson TypeDeclaration.form.read (fun _ => True) ∧
      RoundTrips Insertion.toJson Insertion.form.read Insertion.Expressible ∧
      RoundTrips TruthChange.toJson TruthChange.form.read TruthChange.Expressible ∧
      RoundTrips Inquiry.toJson Inquiry.form.read Inquiry.Expressible ∧
      RoundTrips Script.toJson Script.form.read Script.Expressible ∧
      Untagged Description.toJson Description.ofJson? Description.attempts
        Description.Expressible ∧
      Untagged Term.toJson Term.ofJson? Term.attempts Term.Expressible ∧
      Untagged Target.toJson Target.ofJson? Target.attempts Target.Expressible :=
  ⟨Description.lawful_read.roundTrips, Description.lawful_readTagged.roundTrips,
    Term.lawful_read.roundTrips, Target.lawful_read.roundTrips, Condition.lawful_read.roundTrips,
    TypeDeclaration.lawful_read.roundTrips, Insertion.lawful_read.roundTrips,
    TruthChange.lawful_read.roundTrips, Inquiry.lawful_read.roundTrips,
    Script.lawful_read.roundTrips, Description.untagged, Term.untagged, Target.untagged⟩

end TypedHypergraph
