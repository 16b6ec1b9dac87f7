/-
# The first fault of a description

What has to hold of the parts of a description for it to be stored is said here of each part by
itself, with the level at which the part stands (`Description.SoundAt`).  An insertion is accepted
exactly if all parts are sound.

A part that is not sound has one fault that is told of it (`Description.FaultAt`): its depth comes
before its type name, this before the kind of its type, and this before its length.  A walk through
the description comes to each link before the members of the link, and to these from left to right.
An insertion is refused for the first fault that the walk finds (`Graph.FirstFault`).
-/
import TypedHypergraph.Proofs.Hierarchy
import TypedHypergraph.Proofs.Parts
import TypedHypergraph.Proofs.Typing

namespace TypedHypergraph

variable {digest : Content → UInt64} {g : Graph digest}

namespace Description

/-! ## Parts and their levels -/

/-- A part stands in a description, so many levels below the whole. -/
inductive PartAt (part : Description) : Nat → Description → Prop
  | whole : PartAt part 0 part
  | member {level : Nat} {typeName : String} {members : List Description} {m : Description} :
      m ∈ members → PartAt part level m → PartAt part (level + 1) (.link typeName members)

mutual

/-- The parts of a description that stands at a level, each with its own level: a link before its
members, and these from left to right. -/
def walk (level : Nat) : Description → List (Nat × Description)
  | .node typeName name => [(level, .node typeName name)]
  | .link typeName members => (level, .link typeName members) :: walkAll (level + 1) members
  | .stored h => [(level, .stored h)]

/-- The parts of several descriptions in the order in which they are looked at. -/
def walkAll (level : Nat) : List Description → List (Nat × Description)
  | [] => []
  | d :: rest => d.walk level ++ walkAll level rest

end

/-- The parts of several descriptions are those of each. -/
theorem mem_walkAll {level : Nat} {p : Nat × Description} {ds : List Description} :
    p ∈ walkAll level ds ↔ ∃ d ∈ ds, p ∈ d.walk level := by
  induction ds with
  | nil => simp [walkAll]
  | cons d ds ih => rw [walkAll, List.mem_append, ih, List.exists_mem_cons_iff]

/-- A part of a link is the link itself or a part of one of its members, one level down. -/
theorem partAt_link {part : Description} {level : Nat} {typeName : String}
    {members : List Description} :
    part.PartAt level (.link typeName members) ↔
      level = 0 ∧ part = .link typeName members ∨
        ∃ below, level = below + 1 ∧ ∃ m ∈ members, part.PartAt below m := by
  constructor
  · rintro (_ | ⟨hm, hpart⟩)
    · exact .inl ⟨rfl, rfl⟩
    · exact .inr ⟨_, rfl, _, hm, hpart⟩
  · rintro (⟨rfl, rfl⟩ | ⟨below, rfl, m, hm, hpart⟩)
    · exact .whole
    · exact .member hm hpart

/-- The walk comes to all parts, at their levels. -/
theorem mem_walk {part d : Description} {top level : Nat} :
    (level, part) ∈ d.walk top ↔ ∃ below, level = top + below ∧ part.PartAt below d := by
  induction d using induction generalizing top level with
  | node typeName name =>
    rw [walk, List.mem_singleton, Prod.mk.injEq]
    constructor
    · rintro ⟨rfl, rfl⟩
      exact ⟨0, rfl, .whole⟩
    · rintro ⟨below, rfl, _ | _⟩
      exact ⟨rfl, rfl⟩
  | link typeName members ih =>
    rw [walk, List.mem_cons, mem_walkAll, Prod.mk.injEq]
    constructor
    · rintro (⟨rfl, rfl⟩ | ⟨m, hm, hpart⟩)
      · exact ⟨0, rfl, .whole⟩
      · obtain ⟨below, rfl, hbelow⟩ := (ih m hm).mp hpart
        exact ⟨below + 1, by omega, .member hm hbelow⟩
    · rintro ⟨below, rfl, hpart⟩
      rcases partAt_link.mp hpart with ⟨rfl, rfl⟩ | ⟨below, rfl, m, hm, hpart⟩
      · exact .inl ⟨rfl, rfl⟩
      · exact .inr ⟨m, hm, (ih m hm).mpr ⟨below, by omega, hpart⟩⟩
  | stored h =>
    rw [walk, List.mem_singleton, Prod.mk.injEq]
    constructor
    · rintro ⟨rfl, rfl⟩
      exact ⟨0, rfl, .whole⟩
    · rintro ⟨below, rfl, _ | _⟩
      exact ⟨rfl, rfl⟩

/-! ## Sound parts and their faults -/

/-- Nothing is wrong with a part itself that stands at a level. -/
def SoundAt (g : Graph digest) (level : Nat) : Description → Prop
  | .node typeName name => level ≤ 64 ∧ name.utf8ByteSize ≤ 65536 ∧
      ∃ type, g.types.get? typeName = some type ∧
        ¬ g.types.isA type .link ∧ ¬ g.types.isA type .variableNode
  | .link typeName members => level ≤ 64 ∧ members.length ≤ 1024 ∧
      ∃ type, g.types.get? typeName = some type ∧ ¬ g.types.isA type .node
  | .stored h => level ≤ 64 ∧ g.contains h

/-- What is wrong with a part itself.  Of several faults it is the first one in the order of the
checks. -/
inductive FaultAt (g : Graph digest) (level : Nat) : Description → Refusal → Prop
  | depth {d : Description} : 64 < level → FaultAt g level d (.invalidAtom .depth)
  | nodeUndeclared {typeName name : String} : level ≤ 64 → g.types.get? typeName = none →
      FaultAt g level (.node typeName name) (.typeUndeclared typeName)
  | linkUndeclared {typeName : String} {members : List Description} : level ≤ 64 →
      g.types.get? typeName = none →
      FaultAt g level (.link typeName members) (.typeUndeclared typeName)
  | variableType {typeName name : String} {type : TypeId} : level ≤ 64 →
      g.types.get? typeName = some type → g.types.isA type .variableNode →
      FaultAt g level (.node typeName name) (.invalidAtom .variableType)
  | linkType {typeName name : String} {type : TypeId} : level ≤ 64 →
      g.types.get? typeName = some type → g.types.isA type .link →
      FaultAt g level (.node typeName name) (.invalidAtom (.linkType typeName))
  | nodeType {typeName : String} {members : List Description} {type : TypeId} : level ≤ 64 →
      g.types.get? typeName = some type → g.types.isA type .node →
      FaultAt g level (.link typeName members) (.invalidAtom (.nodeType typeName))
  | nameLength {typeName name : String} {type : TypeId} : level ≤ 64 →
      g.types.get? typeName = some type → ¬ g.types.isA type .link →
      ¬ g.types.isA type .variableNode → 65536 < name.utf8ByteSize →
      FaultAt g level (.node typeName name) (.invalidAtom (.nameLength name.utf8ByteSize))
  | arity {typeName : String} {members : List Description} {type : TypeId} : level ≤ 64 →
      g.types.get? typeName = some type → ¬ g.types.isA type .node → 1024 < members.length →
      FaultAt g level (.link typeName members) (.invalidAtom (.arity members.length))
  | unknown {h : Handle} : level ≤ 64 → ¬ g.contains h →
      FaultAt g level (.stored h) (.notFound h)

/-- What is sound stands at most at level 64. -/
theorem SoundAt.shallow {level : Nat} {d : Description} (sound : d.SoundAt g level) :
    level ≤ 64 := by
  cases d <;> exact sound.1

/-- A part is sound exactly if it has no fault. -/
theorem soundAt_iff {level : Nat} {d : Description} :
    d.SoundAt g level ↔ ∀ refusal, ¬ d.FaultAt g level refusal := by
  constructor
  · intro sound refusal fault
    have shallow := sound.shallow
    cases fault with
    | depth deep => omega
    | nodeUndeclared _ absent => simp [SoundAt, absent] at sound
    | linkUndeclared _ absent => simp [SoundAt, absent] at sound
    | variableType _ named isVariable => simp [SoundAt, named, isVariable] at sound
    | linkType _ named isLink => simp [SoundAt, named, isLink] at sound
    | nodeType _ named isNode => simp [SoundAt, named, isNode] at sound
    | nameLength _ _ _ _ long => exact absurd sound.2.1 (not_le.mpr long)
    | arity _ _ _ many => exact absurd sound.2.1 (not_le.mpr many)
    | unknown _ absent => exact absent sound.2
  · intro faultless
    -- each test is passed because its failure would be a fault, given the tests before it
    have shallow : level ≤ 64 := not_lt.mp fun deep => faultless _ (.depth deep)
    cases d with
    | node typeName name =>
      cases named : g.types.get? typeName with
      | none => exact absurd (.nodeUndeclared shallow named) (faultless _)
      | some type =>
        have notLink : ¬ g.types.isA type .link :=
          fun isLink => faultless _ (.linkType shallow named isLink)
        have notVariable : ¬ g.types.isA type .variableNode :=
          fun isVariable => faultless _ (.variableType shallow named isVariable)
        have short : name.utf8ByteSize ≤ 65536 :=
          not_lt.mp fun long => faultless _ (.nameLength shallow named notLink notVariable long)
        exact ⟨shallow, short, type, named, notLink, notVariable⟩
    | link typeName members =>
      cases named : g.types.get? typeName with
      | none => exact absurd (.linkUndeclared shallow named) (faultless _)
      | some type =>
        have notNode : ¬ g.types.isA type .node :=
          fun isNode => faultless _ (.nodeType shallow named isNode)
        have few : members.length ≤ 1024 :=
          not_lt.mp fun many => faultless _ (.arity shallow named notNode many)
        exact ⟨shallow, few, type, named, notNode⟩
    | stored h =>
      have stored : g.contains h := by
        by_contra absent
        exact faultless _ (.unknown shallow absent)
      exact ⟨shallow, stored⟩

end Description

namespace Graph

/-! ## The first fault of a walk -/

/-- The first part of a walk that is not sound has a fault. -/
inductive FirstFault (g : Graph digest) : List (Nat × Description) → Refusal → Prop
  | here {level : Nat} {d : Description} {rest : List (Nat × Description)} {refusal : Refusal} :
      d.FaultAt g level refusal → FirstFault g ((level, d) :: rest) refusal
  | later {level : Nat} {d : Description} {rest : List (Nat × Description)} {refusal : Refusal} :
      d.SoundAt g level → FirstFault g rest refusal → FirstFault g ((level, d) :: rest) refusal

/-- Among no parts there is no first fault. -/
theorem not_firstFault_nil {refusal : Refusal} : ¬ g.FirstFault [] refusal := nofun

/-- The first fault is that of the first part, or that of the rest if the first part is sound. -/
theorem firstFault_cons {level : Nat} {d : Description} {rest : List (Nat × Description)}
    {refusal : Refusal} :
    g.FirstFault ((level, d) :: rest) refusal ↔
      d.FaultAt g level refusal ∨ d.SoundAt g level ∧ g.FirstFault rest refusal := by
  constructor
  · rintro (fault | ⟨sound, fault⟩)
    · exact .inl fault
    · exact .inr ⟨sound, fault⟩
  · rintro (fault | ⟨sound, fault⟩)
    · exact .here fault
    · exact .later sound fault

/-- The first fault is that of the parts in front, or that of those behind if all in front are
sound. -/
theorem firstFault_append {before after : List (Nat × Description)} {refusal : Refusal} :
    g.FirstFault (before ++ after) refusal ↔ g.FirstFault before refusal ∨
      (∀ p ∈ before, p.2.SoundAt g p.1) ∧ g.FirstFault after refusal := by
  induction before with
  | nil => simp [not_firstFault_nil]
  | cons p before ih =>
    rw [List.cons_append, firstFault_cons, firstFault_cons, ih, List.forall_mem_cons]
    tauto

/-- A walk has no first fault exactly if all its parts are sound. -/
theorem forall_soundAt_iff {ps : List (Nat × Description)} :
    (∀ p ∈ ps, p.2.SoundAt g p.1) ↔ ∀ refusal, ¬ g.FirstFault ps refusal := by
  induction ps with
  | nil => simp [not_firstFault_nil]
  | cons p ps ih =>
    obtain ⟨level, d⟩ := p
    simp only [List.forall_mem_cons, ih, firstFault_cons, not_or, forall_and,
      ← Description.soundAt_iff]
    tauto

/-! ## Single checks -/

/-- The name of a type is the name that it was found by. -/
theorem nameOfType_eq (ht : g.types.WellFormed) {typeName : String} {type : TypeId}
    (named : g.types.get? typeName = some type) : g.nameOfType type = typeName := by
  rw [nameOfType, (ht.get?_iff typeName type).mp named, Option.getD_some]

/-- No type of links is a type of variables. -/
theorem TypesMakeSense.not_isA_variableNode (ht : TypesMakeSense g) {type : TypeId}
    (isLink : g.types.isA type .link) : ¬ g.types.isA type .variableNode := fun isVariable =>
  ht.wellFormed.disjoint ht.builtin type ⟨ht.isA_node_of_isA_variableNode isVariable, isLink⟩

/-- A type is refused for nodes exactly if it is a type of pattern variables or of links. -/
theorem checkNodeType_eq_error (ht : TypesMakeSense g) {typeName : String} {type : TypeId}
    (named : g.types.get? typeName = some type) {refusal : Refusal} :
    g.checkNodeType type = .error refusal ↔
      g.types.isA type .variableNode ∧ .invalidAtom .variableType = refusal ∨
        g.types.isA type .link ∧ .invalidAtom (.linkType typeName) = refusal := by
  rw [checkNodeType, nameOfType_eq ht.wellFormed named, TypeTree.allowsNodes]
  by_cases isLink : g.types.isA type .link
  · simp [isLink, ht.not_isA_variableNode isLink]
  · by_cases isVariable : g.types.isA type .variableNode <;> simp [isLink, isVariable]

/-- A type is refused for links exactly if it is a type of nodes. -/
theorem checkLinkType_eq_error (ht : g.types.WellFormed) {typeName : String} {type : TypeId}
    (named : g.types.get? typeName = some type) {refusal : Refusal} :
    g.checkLinkType type = .error refusal ↔
      g.types.isA type .node ∧ .invalidAtom (.nodeType typeName) = refusal := by
  rw [checkLinkType, nameOfType_eq ht named, TypeTree.allowsLinks]
  by_cases isNode : g.types.isA type .node <;> simp [isNode]

/-- A name is refused exactly if it has more than 65536 bytes. -/
theorem checkName_eq_error {name : String} {refusal : Refusal} :
    checkName name = .error refusal ↔
      65536 < name.utf8ByteSize ∧ .invalidAtom (.nameLength name.utf8ByteSize) = refusal := by
  rw [checkName, Limits.nodeNameBytes]
  split <;> simp [*]

/-- The members of a link are refused exactly if there are more than 1024. -/
theorem checkArity_eq_error {members : Nat} {refusal : Refusal} :
    checkArity members = .error refusal ↔
      1024 < members ∧ .invalidAtom (.arity members) = refusal := by
  rw [checkArity, Limits.arity]
  split <;> simp [*]

/-! ## Resolving finds the first fault -/

/-- A node is refused exactly for its own fault. -/
theorem resolve_node_eq_error (ht : TypesMakeSense g) {level : Nat} {typeName name : String}
    {refusal : Refusal} :
    g.resolve level (.node typeName name) = .error refusal ↔
      (Description.node typeName name).FaultAt g level refusal := by
  unfold resolve
  simp only [Guards.ite_throw_eq_error, Guards.bind_eq_error, Guards.exists_unit,
    Guards.pure_ne_error, and_false, or_false, TypeTree.resolve_eq_error, TypeTree.resolve_eq_ok,
    checkName_eq_error, not_lt]
  rw [Limits.depth]
  constructor
  · rintro (⟨deep, rfl⟩ | ⟨shallow, ⟨absent, rfl⟩ | ⟨type, named, kind | ⟨suits, long, rfl⟩⟩⟩)
    · exact .depth deep
    · exact .nodeUndeclared shallow absent
    · rcases (checkNodeType_eq_error ht named).mp kind with ⟨isVariable, rfl⟩ | ⟨isLink, rfl⟩
      · exact .variableType shallow named isVariable
      · exact .linkType shallow named isLink
    · obtain ⟨notLink, notVariable⟩ :=
        TypeTree.allowsNodes_iff.mp (checkNodeType_eq_ok.mp suits).2
      exact .nameLength shallow named notLink notVariable long
  · intro fault
    cases fault with
    | depth deep => exact .inl ⟨deep, rfl⟩
    | nodeUndeclared shallow absent => exact .inr ⟨shallow, .inl ⟨absent, rfl⟩⟩
    | variableType shallow named isVariable =>
      have kind := (checkNodeType_eq_error ht named).mpr (.inl ⟨isVariable, rfl⟩)
      exact .inr ⟨shallow, .inr ⟨_, named, .inl kind⟩⟩
    | linkType shallow named isLink =>
      have kind := (checkNodeType_eq_error ht named).mpr (.inr ⟨isLink, rfl⟩)
      exact .inr ⟨shallow, .inr ⟨_, named, .inl kind⟩⟩
    | nameLength shallow named notLink notVariable long =>
      have suits := checkNodeType_eq_ok.mpr
        ⟨notVariable, TypeTree.allowsNodes_iff.mpr ⟨notLink, notVariable⟩⟩
      exact .inr ⟨shallow, .inr ⟨_, named, .inr ⟨suits, long, rfl⟩⟩⟩

/-- A link is refused exactly for its own fault, or for the first one of its members if it is sound
itself. -/
theorem resolve_link_eq_error (ht : g.types.WellFormed) {level : Nat} {typeName : String}
    {members : List Description} {refusal : Refusal} :
    g.resolve level (.link typeName members) = .error refusal ↔
      (Description.link typeName members).FaultAt g level refusal ∨
        (Description.link typeName members).SoundAt g level ∧
          g.resolveAll (level + 1) members = .error refusal := by
  unfold resolve
  simp only [Guards.ite_throw_eq_error, Guards.bind_eq_error, Guards.exists_unit,
    Guards.pure_ne_error, and_false, exists_false, or_false, TypeTree.resolve_eq_error,
    TypeTree.resolve_eq_ok, checkLinkType_eq_ok, checkArity_eq_ok, checkArity_eq_error, not_lt]
  rw [Limits.depth, Limits.arity]
  constructor
  · rintro (⟨deep, rfl⟩ | ⟨shallow, ⟨absent, rfl⟩ | ⟨type, named, kind | ⟨suits, rest⟩⟩⟩)
    · exact .inl (.depth deep)
    · exact .inl (.linkUndeclared shallow absent)
    · obtain ⟨isNode, rfl⟩ := (checkLinkType_eq_error ht named).mp kind
      exact .inl (.nodeType shallow named isNode)
    · have notNode := TypeTree.allowsLinks_iff.mp suits
      rcases rest with ⟨many, rfl⟩ | ⟨few, rest⟩
      · exact .inl (.arity shallow named notNode many)
      · exact .inr ⟨⟨shallow, few, type, named, notNode⟩, rest⟩
  · rintro (fault | ⟨⟨shallow, few, type, named, notNode⟩, rest⟩)
    · cases fault with
      | depth deep => exact .inl ⟨deep, rfl⟩
      | linkUndeclared shallow absent => exact .inr ⟨shallow, .inl ⟨absent, rfl⟩⟩
      | nodeType shallow named isNode =>
        have kind := (checkLinkType_eq_error ht named).mpr ⟨isNode, rfl⟩
        exact .inr ⟨shallow, .inr ⟨_, named, .inl kind⟩⟩
      | arity shallow named notNode many =>
        have suits := TypeTree.allowsLinks_iff.mpr notNode
        exact .inr ⟨shallow, .inr ⟨_, named, .inr ⟨suits, .inl ⟨many, rfl⟩⟩⟩⟩
    · have suits := TypeTree.allowsLinks_iff.mpr notNode
      exact .inr ⟨shallow, .inr ⟨type, named, .inr ⟨suits, .inr ⟨few, rest⟩⟩⟩⟩

/-- A reference is refused exactly for its own fault. -/
theorem resolve_stored_eq_error {level : Nat} {h : Handle} {refusal : Refusal} :
    g.resolve level (.stored h) = .error refusal ↔
      (Description.stored h).FaultAt g level refusal := by
  unfold resolve
  simp only [Guards.ite_throw_eq_error, Guards.ite_pass_eq_error, Guards.pure_ne_error, and_false,
    or_false, not_lt]
  rw [Limits.depth]
  constructor
  · rintro (⟨deep, rfl⟩ | ⟨shallow, absent, rfl⟩)
    · exact .depth deep
    · exact .unknown shallow absent
  · rintro (deep | _ | _ | _ | _ | _ | _ | _ | ⟨shallow, absent⟩)
    · exact .inl ⟨deep, rfl⟩
    · exact .inr ⟨shallow, absent, rfl⟩

/-- What is refused for the first fault of a walk is accepted if all its parts are sound. -/
theorem exists_ok_iff {α : Type} {x : Except Refusal α} {ps : List (Nat × Description)}
    (refused : ∀ refusal, x = .error refusal ↔ g.FirstFault ps refusal) :
    (∃ a, x = .ok a) ↔ ∀ p ∈ ps, p.2.SoundAt g p.1 := by
  simp only [forall_soundAt_iff, ← refused]
  cases x <;> simp

mutual

/-- **Resolving** is refused for the first fault. -/
theorem resolve_eq_error (ht : TypesMakeSense g) : ∀ (d : Description) {level : Nat}
    {refusal : Refusal}, g.resolve level d = .error refusal ↔ g.FirstFault (d.walk level) refusal
  | .node typeName name, level, refusal => by
    rw [resolve_node_eq_error ht, Description.walk, firstFault_cons]
    simp [not_firstFault_nil]
  | .link typeName members, level, refusal => by
    rw [resolve_link_eq_error ht.wellFormed, resolveAll_eq_error ht members, Description.walk,
      firstFault_cons]
  | .stored h, level, refusal => by
    rw [resolve_stored_eq_error, Description.walk, firstFault_cons]
    simp [not_firstFault_nil]

/-- **Several descriptions** are refused exactly for the first fault of their parts. -/
theorem resolveAll_eq_error (ht : TypesMakeSense g) : ∀ (ds : List Description) {level : Nat}
    {refusal : Refusal},
    g.resolveAll level ds = .error refusal ↔ g.FirstFault (Description.walkAll level ds) refusal
  | [], level, refusal => by
    rw [resolveAll, Description.walkAll]
    simp [Guards.pure_ne_error, not_firstFault_nil]
  | d :: rest, level, refusal => by
    have first : ∀ refusal,
        g.resolve level d = .error refusal ↔ g.FirstFault (d.walk level) refusal :=
      fun _ => resolve_eq_error ht d
    rw [resolveAll, Description.walkAll, firstFault_append, ← first, ← exists_ok_iff first,
      ← resolveAll_eq_error ht rest]
    simp only [Guards.bind_eq_error, Guards.pure_ne_error, and_false, exists_false, or_false,
      exists_and_right]

end

/-! ## Inserting -/

/-- **An insertion** into a reachable graph is accepted exactly if all parts of its description are
sound.  Otherwise it is refused for the first fault that a walk through the description finds, and
changes nothing. -/
theorem Reachable.insertsSound (hg : g.Reachable) (d : Description) (truth : Option Truth) :
    ((∃ outcome g', insert d truth g = .ok outcome g') ↔
      ∀ (level : Nat) (part : Description), part.PartAt level d → part.SoundAt g level) ∧
    ∀ (refusal : Refusal) (g' : Graph digest), insert d truth g = .error refusal g' ↔
      g' = g ∧ g.FirstFault (d.walk 0) refusal := by
  have ht := hg.typesMakeSense
  have refused : ∀ refusal, g.resolve 0 d = .error refusal ↔ g.FirstFault (d.walk 0) refusal :=
    fun _ => resolve_eq_error ht d
  rw [insert_eq ht.wellFormed]
  constructor
  · have everywhere : (∀ p ∈ d.walk 0, p.2.SoundAt g p.1) ↔
        ∀ (level : Nat) (part : Description), part.PartAt level d → part.SoundAt g level := by
      simp [Prod.forall, Description.mem_walk]
    rw [← everywhere, ← exists_ok_iff refused]
    cases g.resolve 0 d <;> simp
  · intro refusal g'
    rw [← refused]
    cases g.resolve 0 d <;> simp [and_comm, eq_comm]

/-- An unknown handle two levels down comes before an undeclared type one level down, since it
stands further to the left. -/
theorem insertsSound_of_two_faults :
    let g := (empty : Graph fun _ => 0).run [.declareType "Pair" (some "Link"), .addNode "Node" "a"]
    let d := Description.link "Pair" [.stored ⟨0⟩,
      .link "Pair" [.node "Node" "b", .stored ⟨7⟩], .node "Word" "c"]
    g.Reachable ∧ insert d none g = .error (.notFound ⟨7⟩) g ∧
      ¬ ∀ (level : Nat) (part : Description), part.PartAt level d → part.SoundAt g level := by
  intro g d
  have reachable : g.Reachable := ⟨_, rfl⟩
  have link : ∀ level members, level ≤ 64 → members.length ≤ 1024 →
      (Description.link "Pair" members).SoundAt g level :=
    fun _ _ shallow few => ⟨shallow, few, ⟨4⟩, by decide +kernel, by decide +kernel⟩
  have node : (Description.node "Node" "b").SoundAt g 2 :=
    ⟨by decide, by decide +kernel, .node, by decide +kernel, by decide +kernel, by decide +kernel⟩
  have fault : g.FirstFault (d.walk 0) (.notFound ⟨7⟩) :=
    .later (link 0 _ (by decide) (by decide)) <|
    .later (⟨by decide, by decide +kernel⟩ : (Description.stored ⟨0⟩).SoundAt g 1) <|
    .later (link 1 _ (by decide) (by decide)) <|
    .later node <| .here (.unknown (by decide) (by decide +kernel))
  obtain ⟨accepted, refused⟩ := Reachable.insertsSound reachable d none
  have unknown := (refused (.notFound ⟨7⟩) g).mpr ⟨rfl, fault⟩
  refine ⟨reachable, unknown, fun sound => ?_⟩
  obtain ⟨outcome, g', stored⟩ := accepted.mpr sound
  rw [unknown] at stored
  cases stored

end Graph

end TypedHypergraph
