/-
# Types of the same names

A declaration speaks of types by their names, and the identifiers that the types get depend on the
order of the declarations.  Nothing else does: two lists of the same declarations that are accepted
lead to trees which declare the same names under the same parents (`TypeTree.SameNames`), and in
such trees types of the same name (`TypeTree.Namesake`) have the same lineage and descendants, as
far as names can tell (`TypeTree.AgreesByName`).

Descriptions speak of types by their names too.  Graphs whose types have the same names accept the
same descriptions and refuse the others for the same reason (`Graph.StoresAlike`).
-/
import TypedHypergraph.Proofs.FirstFault
import TypedHypergraph.Proofs.Replaying
import TypedHypergraph.Settings.Basic

namespace TypedHypergraph

namespace TypeTree

variable {t t' : TypeTree} {ds ds' : List TypeDeclaration} {ids ids' : List TypeId}

/-! ## Names and the names of their parents -/

/-- The name of the parent of the type with a name. -/
def parentNamed? (t : TypeTree) (name : String) : Option String :=
  ((t.get? name).bind t.parent?).bind t.name?

/-- The named parent of a type is the name of its parent. -/
theorem WellFormed.parentNamed?_eq_some (ht : t.WellFormed) {name parent : String} {id : TypeId}
    (hn : t.get? name = some id) :
    t.parentNamed? name = some parent ↔ ∃ p, t.parent? id = some p ∧ t.get? parent = some p := by
  rw [parentNamed?, hn, Option.bind_some, Option.bind_eq_some_iff]
  simp only [ht.get?_iff]

/-- The parent that a declaration names, or else the root. -/
theorem Records.parentNamed? {d : TypeDeclaration} {id : TypeId} (known : t.Records d id)
    (ht : t.WellFormed) (hb : builtin.Extends t) :
    t.parentNamed? d.name = some (d.parent.getD "Atom") := by
  obtain ⟨p, hp, hn, ho⟩ := known
  rw [ht.parentNamed?_eq_some hn]
  refine ⟨p, ho, ?_⟩
  cases hd : d.parent with
  | some q =>
    rw [hd] at hp
    exact resolve_eq_ok.mp hp
  | none =>
    rw [hd] at hp
    cases hp
    exact hb.get? builtin_wellFormed ht (by decide +kernel : builtin.get? "Atom" = some .atom)

/-- Parents keep their names. -/
theorem Extends.parentNamed? (h : t.Extends t') (ht : t.WellFormed) (ht' : t'.WellFormed)
    {name : String} {id : TypeId} (hn : t.get? name = some id) :
    t'.parentNamed? name = t.parentNamed? name := by
  rw [TypeTree.parentNamed?, TypeTree.parentNamed?, h.get? ht ht' hn, hn, Option.bind_some,
    Option.bind_some, h.parent? (ht.contains_of_get? hn)]
  cases hp : t.parent? id with
  | none => rfl
  | some p => exact h.name? (ht.contains_parent hp)

/-- Accepted declarations add the names that they declare. -/
theorem isSome_get?_of_declareEach (accepted : t.declareEach ds = .ok (ids, t'))
    (name : String) : (t'.get? name).isSome ↔ (t.get? name).isSome ∨ ∃ d ∈ ds, d.name = name := by
  induction ds generalizing t ids with
  | nil =>
    cases accepted
    simp
  | cons d ds ih =>
    obtain ⟨id, t₁, rest, first, others, -⟩ := declareEach_cons_eq_ok.mp accepted
    have step : (t₁.get? name).isSome ↔ (t.get? name).isSome ∨ d.name = name := by
      obtain ⟨p, -, ⟨hn, -, rfl⟩ | ⟨-, -, rfl⟩⟩ := declare_cases first
      · refine (or_iff_left_of_imp ?_).symm
        rintro rfl
        rw [hn]
        rfl
      · rw [get?_push]
        split <;> simp [*]
    rw [ih others, step, List.exists_mem_cons_iff, or_assoc]

/-- Two trees declare the same names, and each under a parent of the same name. -/
structure SameNames (t t' : TypeTree) : Prop where
  declared : ∀ name : String, (t.get? name).isSome ↔ (t'.get? name).isSome
  parent : ∀ name : String, t.parentNamed? name = t'.parentNamed? name

theorem SameNames.symm (same : t.SameNames t') : t'.SameNames t :=
  ⟨fun name => (same.declared name).symm, fun name => (same.parent name).symm⟩

/-- **The same declarations**, in any order and however often, lead to the same names. -/
theorem sameNames_of_declareEach (same : ∀ d, d ∈ ds ↔ d ∈ ds')
    (accepted : builtin.declareEach ds = .ok (ids, t))
    (accepted' : builtin.declareEach ds' = .ok (ids', t')) : t.SameNames t' := by
  obtain ⟨ht, hb⟩ := grow_grows builtin_wellFormed (.refl builtin) ds
  obtain ⟨ht', hb'⟩ := grow_grows builtin_wellFormed (.refl builtin) ds'
  rw [grow_of_declareEach accepted] at ht hb
  rw [grow_of_declareEach accepted'] at ht' hb'
  have declared : ∀ name, (t.get? name).isSome ↔ (t'.get? name).isSome := by
    intro name
    rw [isSome_get?_of_declareEach accepted, isSome_get?_of_declareEach accepted']
    simp only [same]
  refine ⟨declared, fun name => ?_⟩
  by_cases early : ∃ id, builtin.get? name = some id
  · obtain ⟨id, hn⟩ := early
    rw [hb.parentNamed? builtin_wellFormed ht hn, hb'.parentNamed? builtin_wellFormed ht' hn]
  by_cases named : ∃ d ∈ ds, d.name = name
  · -- whichever declaration of the name it is, both trees record it
    obtain ⟨d, hd, rfl⟩ := named
    obtain ⟨id, known⟩ := builtin_wellFormed.records_of_mem (.refl builtin) accepted hd
    obtain ⟨id', known'⟩ :=
      builtin_wellFormed.records_of_mem (.refl builtin) accepted' ((same d).mp hd)
    rw [known.parentNamed? ht hb, known'.parentNamed? ht' hb']
  · have absent : t.get? name = none := by
      rw [← Option.not_isSome_iff_eq_none, isSome_get?_of_declareEach accepted,
        Option.isSome_iff_exists]
      exact not_or.mpr ⟨early, named⟩
    have absent' : t'.get? name = none := by
      rw [← Option.not_isSome_iff_eq_none, ← declared, absent]
      simp
    rw [TypeTree.parentNamed?, TypeTree.parentNamed?, absent, absent']
    rfl

/-! ## Namesakes -/

/-- A type of one tree has the name of a type of another one. -/
def Namesake (t t' : TypeTree) (a a' : TypeId) : Prop :=
  ∃ name, t.get? name = some a ∧ t'.get? name = some a'

theorem Namesake.symm {a a' : TypeId} (h : t.Namesake t' a a') : t'.Namesake t a' a := by
  obtain ⟨name, ha, ha'⟩ := h
  exact ⟨name, ha', ha⟩

/-- No type has two namesakes. -/
theorem Namesake.unique {a a' b' : TypeId} (ht : t.WellFormed) (h : t.Namesake t' a a')
    (h' : t.Namesake t' a b') : a' = b' := by
  obtain ⟨name, ha, ha'⟩ := h
  obtain ⟨name', hb, hb'⟩ := h'
  rw [ht.get?_iff] at ha hb
  rw [ha, Option.some.injEq] at hb
  rw [hb, hb', Option.some.injEq] at ha'
  exact ha'.symm

/-- The types of the beginning are their own namesakes. -/
theorem namesake_of_builtin (ht : t.WellFormed) (hb : builtin.Extends t) (ht' : t'.WellFormed)
    (hb' : builtin.Extends t') {name : String} {a : TypeId} (hn : builtin.get? name = some a) :
    t.Namesake t' a a :=
  ⟨name, hb.get? builtin_wellFormed ht hn, hb'.get? builtin_wellFormed ht' hn⟩

/-- Two trees say the same of types of the same names. -/
structure AgreesByName (t t' : TypeTree) : Prop where
  declared : ∀ name : String, (∃ id, t.get? name = some id) ↔ ∃ id, t'.get? name = some id
  parent : ∀ a a' : TypeId, t.Namesake t' a a' →
    (t.parent? a).bind t.name? = (t'.parent? a').bind t'.name?
  isA : ∀ a a' b b' : TypeId, t.Namesake t' a a' → t.Namesake t' b b' →
    t.isA a b = t'.isA a' b'
  allowsNodes : ∀ a a' : TypeId, t.Namesake t' a a' → t.allowsNodes a = t'.allowsNodes a'
  allowsLinks : ∀ a a' : TypeId, t.Namesake t' a a' → t.allowsLinks a = t'.allowsLinks a'
  subtypes : ∀ a a' : TypeId, t.Namesake t' a a' → ∀ name : String,
    (∃ b ∈ t.subtypes a, t.name? b = some name) ↔
      ∃ b' ∈ t'.subtypes a', t'.name? b' = some name

namespace SameNames

variable {a a' b b' : TypeId}

/-- Each declared type has a namesake in a tree with the same names. -/
theorem exists_namesake (same : t.SameNames t') {name : String} (hn : t.get? name = some a) :
    ∃ a', t'.get? name = some a' :=
  Option.isSome_iff_exists.mp ((same.declared name).mp (Option.isSome_iff_exists.mpr ⟨a, hn⟩))

/-- The parents of namesakes are namesakes. -/
theorem namesake_parent (same : t.SameNames t') (ht : t.WellFormed) (ht' : t'.WellFormed)
    (h : t.Namesake t' a a') {p : TypeId} (hp : t.parent? a = some p) :
    ∃ p', t.Namesake t' p p' ∧ t'.parent? a' = some p' := by
  obtain ⟨name, ha, ha'⟩ := h
  obtain ⟨q, hq⟩ := (t.contains_iff_name? p).mp (ht.contains_parent hp)
  rw [← ht.get?_iff] at hq
  have above : t'.parentNamed? name = some q := by
    rw [← same.parent, ht.parentNamed?_eq_some ha]
    exact ⟨p, hp, hq⟩
  obtain ⟨p', hp', hq'⟩ := (ht'.parentNamed?_eq_some ha').mp above
  exact ⟨p', ⟨q, hq, hq'⟩, hp'⟩

/-- A chain of parents has a namesake in the other tree. -/
theorem namesake_below (same : t.SameNames t') (ht : t.WellFormed) (ht' : t'.WellFormed)
    (h : t.Namesake t' a a') (path : t.Below a b) :
    ∃ b', t.Namesake t' b b' ∧ t'.Below a' b' := by
  induction path with
  | refl => exact ⟨a', h, .refl⟩
  | tail _ hp ih =>
    obtain ⟨c', hc, path'⟩ := ih
    obtain ⟨p', hp', above⟩ := same.namesake_parent ht ht' hc hp
    exact ⟨p', hp', path'.tail above⟩

/-- Namesakes of kinds are kinds. -/
theorem isA_of_isA (same : t.SameNames t') (ht : t.WellFormed) (ht' : t'.WellFormed)
    (ha : t.Namesake t' a a') (hb : t.Namesake t' b b') (below : t.isA a b) : t'.isA a' b' := by
  obtain ⟨c', hc, path⟩ := same.namesake_below ht ht' ha (ht.isA_iff.mp below)
  rw [hb.unique ht hc]
  exact ht'.isA_iff.mpr path

/-- Trees with the same names agree by name on which type is a kind of which. -/
theorem isA_eq (same : t.SameNames t') (ht : t.WellFormed) (ht' : t'.WellFormed)
    (ha : t.Namesake t' a a') (hb : t.Namesake t' b b') : t.isA a b = t'.isA a' b' := by
  rw [Bool.eq_iff_iff]
  exact ⟨same.isA_of_isA ht ht' ha hb, same.symm.isA_of_isA ht' ht ha.symm hb.symm⟩

/-- The name of a type below another one is the name of a type below its namesake. -/
theorem name_below (same : t.SameNames t') (ht : t.WellFormed) (ht' : t'.WellFormed)
    (h : t.Namesake t' a a') {name : String} (found : ∃ b ∈ t.subtypes a, t.name? b = some name) :
    ∃ b' ∈ t'.subtypes a', t'.name? b' = some name := by
  obtain ⟨b, hb, hn⟩ := found
  obtain ⟨-, below⟩ := ht.mem_subtypes.mp hb
  rw [← ht.get?_iff] at hn
  obtain ⟨b', hn'⟩ := same.exists_namesake hn
  have registered : t'.contains a' := by
    obtain ⟨_, -, ha'⟩ := h
    exact ht'.contains_of_get? ha'
  exact ⟨b', ht'.mem_subtypes.mpr ⟨registered, same.isA_of_isA ht ht' ⟨name, hn, hn'⟩ h below⟩,
    (ht'.get?_iff name b').mp hn'⟩

/-- **Trees of the same names** agree in all that they say of their types. -/
theorem agreesByName (same : t.SameNames t') (ht : t.WellFormed) (hb : builtin.Extends t)
    (ht' : t'.WellFormed) (hb' : builtin.Extends t') : t.AgreesByName t' := by
  have isA : ∀ a a' b b' : TypeId, t.Namesake t' a a' → t.Namesake t' b b' →
      t.isA a b = t'.isA a' b' := fun _ _ _ _ => same.isA_eq ht ht'
  have own : ∀ {name : String} {a : TypeId}, builtin.get? name = some a → t.Namesake t' a a :=
    namesake_of_builtin ht hb ht' hb'
  have node : t.Namesake t' .node .node := own (by decide +kernel : builtin.get? "Node" = _)
  have link : t.Namesake t' .link .link := own (by decide +kernel : builtin.get? "Link" = _)
  have variableNode : t.Namesake t' .variableNode .variableNode :=
    own (by decide +kernel : builtin.get? "VariableNode" = _)
  refine ⟨?declared, ?parent, isA, ?allowsNodes, ?allowsLinks, ?subtypes⟩
  case declared =>
    intro name
    rw [← Option.isSome_iff_exists, ← Option.isSome_iff_exists]
    exact same.declared name
  case parent =>
    rintro a a' ⟨name, ha, ha'⟩
    have parents := same.parent name
    rw [parentNamed?, parentNamed?, ha, ha'] at parents
    exact parents
  case allowsNodes =>
    intro a a' h
    rw [TypeTree.allowsNodes, TypeTree.allowsNodes, isA _ _ _ _ h link,
      isA _ _ _ _ h variableNode]
  case allowsLinks =>
    intro a a' h
    rw [TypeTree.allowsLinks, TypeTree.allowsLinks, isA _ _ _ _ h node]
  case subtypes =>
    intro a a' h name
    exact ⟨same.name_below ht ht' h, same.symm.name_below ht' ht h.symm⟩

end SameNames

end TypeTree

/-! ## Graphs -/

namespace Graph

variable {digest : Content → UInt64} {g g' : Graph digest}

/-- Two graphs store atoms under the same handles, and their types have the same names. -/
structure Twins (g g' : Graph digest) : Prop where
  types : TypesMakeSense g
  types' : TypesMakeSense g'
  names : g.types.SameNames g'.types
  contains : ∀ h : Handle, g.contains h ↔ g'.contains h

namespace Twins

theorem symm (twins : g.Twins g') : g'.Twins g :=
  ⟨twins.types', twins.types, twins.names.symm, fun h => (twins.contains h).symm⟩

/-- What is not declared in a graph is not declared in its twin. -/
theorem get?_eq_none (twins : g.Twins g') {typeName : String}
    (absent : g.types.get? typeName = none) : g'.types.get? typeName = none := by
  rw [← Option.not_isSome_iff_eq_none] at absent ⊢
  exact fun found => absent ((twins.names.declared typeName).mpr found)

/-- A type name stands for a type of the same kind. -/
theorem exists_type (twins : g.Twins g') {typeName : String} {type : TypeId}
    (named : g.types.get? typeName = some type) :
    ∃ type', g'.types.get? typeName = some type' ∧
      g'.types.isA type' .node = g.types.isA type .node ∧
      g'.types.isA type' .link = g.types.isA type .link ∧
      g'.types.isA type' .variableNode = g.types.isA type .variableNode := by
  obtain ⟨type', named'⟩ := twins.names.exists_namesake named
  have same : ∀ {name : String} {kind : TypeId}, TypeTree.builtin.get? name = some kind →
      g'.types.isA type' kind = g.types.isA type kind := fun hn =>
    (twins.names.isA_eq twins.types.wellFormed twins.types'.wellFormed ⟨typeName, named, named'⟩
      (TypeTree.namesake_of_builtin twins.types.wellFormed twins.types.builtin
        twins.types'.wellFormed twins.types'.builtin hn)).symm
  exact ⟨type', named', same (by decide +kernel : TypeTree.builtin.get? "Node" = _),
    same (by decide +kernel : TypeTree.builtin.get? "Link" = _),
    same (by decide +kernel : TypeTree.builtin.get? "VariableNode" = _)⟩

/-- A part has the same fault in both graphs. -/
theorem faultAt (twins : g.Twins g') {level : Nat} {d : Description} {refusal : Refusal}
    (fault : d.FaultAt g level refusal) : d.FaultAt g' level refusal := by
  cases fault with
  | depth deep => exact .depth deep
  | nodeUndeclared shallow absent => exact .nodeUndeclared shallow (twins.get?_eq_none absent)
  | linkUndeclared shallow absent => exact .linkUndeclared shallow (twins.get?_eq_none absent)
  | variableType shallow named isVariable =>
    obtain ⟨type', named', -, -, same⟩ := twins.exists_type named
    exact .variableType shallow named' (same ▸ isVariable)
  | linkType shallow named isLink =>
    obtain ⟨type', named', -, same, -⟩ := twins.exists_type named
    exact .linkType shallow named' (same ▸ isLink)
  | nodeType shallow named isNode =>
    obtain ⟨type', named', same, -, -⟩ := twins.exists_type named
    exact .nodeType shallow named' (same ▸ isNode)
  | nameLength shallow named notLink notVariable long =>
    obtain ⟨type', named', -, sameLink, sameVariable⟩ := twins.exists_type named
    exact .nameLength shallow named' (sameLink ▸ notLink) (sameVariable ▸ notVariable) long
  | arity shallow named notNode many =>
    obtain ⟨type', named', same, -, -⟩ := twins.exists_type named
    exact .arity shallow named' (same ▸ notNode) many
  | unknown shallow absent =>
    exact .unknown shallow fun stored => absent ((twins.contains _).mpr stored)

/-- What is sound in a graph is sound in its twin. -/
theorem soundAt (twins : g.Twins g') {level : Nat} {d : Description} (sound : d.SoundAt g level) :
    d.SoundAt g' level := by
  rw [Description.soundAt_iff] at sound ⊢
  exact fun refusal fault => sound refusal (twins.symm.faultAt fault)

/-- The first fault in a graph is the first fault in its twin. -/
theorem firstFault (twins : g.Twins g') {parts : List (Nat × Description)} {refusal : Refusal}
    (first : g.FirstFault parts refusal) : g'.FirstFault parts refusal := by
  induction first with
  | here fault => exact .here (twins.faultAt fault)
  | later sound _ ih => exact .later (twins.soundAt sound) ih

/-- **Resolving** a description is refused alike. -/
theorem resolve_eq_error_iff (twins : g.Twins g') (d : Description) (refusal : Refusal) :
    g.resolve 0 d = .error refusal ↔ g'.resolve 0 d = .error refusal := by
  rw [resolve_eq_error twins.types, resolve_eq_error twins.types']
  exact ⟨twins.firstFault, twins.symm.firstFault⟩

/-- A description resolves in a graph exactly if it does in its twin. -/
theorem isOk_resolve_iff (twins : g.Twins g') (d : Description) :
    (g.resolve 0 d).isOk ↔ (g'.resolve 0 d).isOk := by
  rw [Guards.isOk_iff, Guards.isOk_iff]
  exact forall_congr' fun refusal => not_congr (twins.resolve_eq_error_iff d refusal)

end Twins

/-- Two graphs accept the same insertions, and refuse the others for the same reason. -/
structure StoresAlike (g g' : Graph digest) : Prop where
  accepted : ∀ (d : Description) (truth : Option Truth),
    (∃ outcome g₁, insert d truth g = .ok outcome g₁) ↔
      ∃ outcome g₁, insert d truth g' = .ok outcome g₁
  refused : ∀ (d : Description) (truth : Option Truth) (refusal : Refusal),
    insert d truth g = .error refusal g ↔ insert d truth g' = .error refusal g'

/-- **Twins store alike**: they accept and refuse the same insertions. -/
theorem Twins.storesAlike (twins : g.Twins g') : g.StoresAlike g' := by
  constructor
  · intro d truth
    rw [exists_insert_iff twins.types.wellFormed, exists_insert_iff twins.types'.wellFormed]
    exact twins.isOk_resolve_iff d
  · intro d truth refusal
    rw [insert_eq_error_iff twins.types.wellFormed, insert_eq_error_iff twins.types'.wellFormed]
    exact twins.resolve_eq_error_iff d refusal

end Graph

/-! ## Built graphs -/

namespace Settings

variable {digest : Content → UInt64} {g g' : Graph digest}

/-- Declaring types in a graph is declaring them in its tree of types. -/
theorem declareEach_of_declareAll {ds : List TypeDeclaration} (built : declareAll ds g = .ok g') :
    ∃ ids, g.types.declareEach ds = .ok (ids, g'.types) ∧ g' = { g with types := g'.types } := by
  induction ds generalizing g with
  | nil =>
    cases built
    exact ⟨[], rfl, rfl⟩
  | cons d ds ih =>
    unfold declareAll Graph.declareType at built
    cases hd : g.types.declare d.name d.parent with
    | error refusal =>
      rw [hd] at built
      cases built
    | ok result =>
      obtain ⟨id, types⟩ := result
      rw [hd] at built
      obtain ⟨ids, others, same⟩ := ih built
      exact ⟨id :: ids, TypeTree.declareEach_cons_eq_ok.mpr ⟨id, types, ids, hd, others, rfl⟩, same⟩

/-- A graph that is built has grown out of the types of the beginning and holds no atoms. -/
theorem grown_of_build {s : Settings} (built : s.build = .ok g) :
    ∃ ids, TypeTree.builtin.declareEach s.types = .ok (ids, g.types) ∧
      Graph.TypesMakeSense g ∧ ∀ h, ¬ g.contains h := by
  obtain ⟨ids, accepted, same⟩ := declareEach_of_declareAll built
  change TypeTree.builtin.declareEach s.types = _ at accepted
  obtain ⟨ht, hb⟩ := TypeTree.grow_grows TypeTree.builtin_wellFormed (.refl _) s.types
  rw [TypeTree.grow_of_declareEach accepted] at ht hb
  refine ⟨ids, accepted, ⟨ht, hb⟩, fun h => ?_⟩
  rw [same]
  simp [Graph.contains, Graph.empty]

/-- **The order of declarations** in some settings, and how often each of them is made, matters for
identifiers only. -/
theorem builds_agree {s s' : Settings} (same : ∀ d, d ∈ s.types ↔ d ∈ s'.types)
    (built : s.build = .ok g) (built' : s'.build = .ok g') :
    g.types.AgreesByName g'.types ∧ g.StoresAlike g' := by
  obtain ⟨ids, accepted, types, hollow⟩ := grown_of_build built
  obtain ⟨ids', accepted', types', hollow'⟩ := grown_of_build built'
  have names := TypeTree.sameNames_of_declareEach same accepted accepted'
  have twins : g.Twins g' := ⟨types, types', names, fun h => iff_of_false (hollow h) (hollow' h)⟩
  exact ⟨names.agreesByName types.wellFormed types.builtin types'.wellFormed types'.builtin,
    twins.storesAlike⟩

/-- Declarations in another order, two of them repeated and one of them of a type that is there from
the beginning, so that words and things change their identifiers. -/
theorem builds_agree_of_reordered :
    let ds : List TypeDeclaration := [⟨"Word", some "Node"⟩, ⟨"Noun", some "Word"⟩,
      ⟨"Thing", none⟩, ⟨"Link", some "Atom"⟩]
    let ds' : List TypeDeclaration := [⟨"Thing", none⟩, ⟨"Word", some "Node"⟩, ⟨"Thing", none⟩,
      ⟨"Link", some "Atom"⟩, ⟨"Noun", some "Word"⟩, ⟨"Word", some "Node"⟩]
    let s : Settings := { Settings.standard with types := ds }
    let s' : Settings := { Settings.standard with types := ds' }
    ∃ g g' : Graph fun _ => 0, s.build = .ok g ∧ s'.build = .ok g' ∧
      g.types.get? "Word" = some ⟨4⟩ ∧ g'.types.get? "Word" = some ⟨5⟩ ∧
      g.types.AgreesByName g'.types ∧ g.StoresAlike g' := by
  intro ds ds' s s'
  have same : ∀ d, d ∈ s.types ↔ d ∈ s'.types := by
    intro d
    simp only [s, s', ds, ds', List.mem_cons, List.not_mem_nil, or_false]
    tauto
  refine ⟨_, _, rfl, rfl, by decide +kernel, by decide +kernel, ?_⟩
  exact builds_agree same rfl rfl

end Settings

end TypedHypergraph
