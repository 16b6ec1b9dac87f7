/-
# Declaring the listed types again

The listing of a tree of types names each type with its parent, the root first.  What stands behind
the root is a list of declarations, and it can be replayed (`TypeTree.Replays`): the tree of the
beginning accepts one after the other and becomes the listed tree, table by table, while the listed
tree accepts them in any order and stays as it is.

Both come from what an accepted declaration leaves behind.  The tree then *records* it
(`TypeTree.Records`), and so does every tree that grows out of this one; a tree that records a
declaration accepts it once more and does not change.
-/
import TypedHypergraph.Proofs.Guards
import TypedHypergraph.Proofs.Hierarchy

namespace TypedHypergraph

namespace TypeTree

variable {t t' t'' : TypeTree}

/-! ## Accepted declarations are recorded -/

/-- The name of a declaration stands for a type under the parent that the declaration means. -/
def Records (t : TypeTree) (d : TypeDeclaration) (id : TypeId) : Prop :=
  ∃ p, t.parentOf d.parent = .ok p ∧ t.get? d.name = some id ∧ t.parent? id = some p

/-- The parent that a declaration means stays the same. -/
theorem Extends.parentOf (h : t.Extends t') (ht : t.WellFormed) (ht' : t'.WellFormed)
    {parent : Option String} {p : TypeId} (hp : t.parentOf parent = .ok p) :
    t'.parentOf parent = .ok p := by
  cases parent with
  | none => exact hp
  | some q => exact resolve_eq_ok.mpr (h.get? ht ht' (resolve_eq_ok.mp hp))

/-- What is recorded stays so. -/
theorem Records.mono {d : TypeDeclaration} {id : TypeId} (known : t.Records d id)
    (h : t.Extends t') (ht : t.WellFormed) (ht' : t'.WellFormed) : t'.Records d id := by
  obtain ⟨p, hp, hn, ho⟩ := known
  refine ⟨p, h.parentOf ht ht' hp, h.get? ht ht' hn, ?_⟩
  rw [h.parent? (ht.contains_of_get? hn)]
  exact ho

/-- An accepted declaration is recorded in the tree that it leads to. -/
theorem WellFormed.records (ht : t.WellFormed) (hb : builtin.Extends t) {d : TypeDeclaration}
    {id : TypeId} (accepted : t.declare d.name d.parent = .ok (id, t')) : t'.Records d id := by
  have ht' := ht.declare hb accepted
  have grown := Extends.declare accepted
  obtain ⟨p, hp, ⟨hn, ho, rfl⟩ | ⟨-, rfl, rfl⟩⟩ := declare_cases accepted
  · exact ⟨p, hp, hn, ho⟩
  · refine ⟨p, grown.parentOf ht ht' hp, ?_, ?_⟩
    · rw [get?_push, if_pos rfl]
    · rw [parent?_push, if_pos rfl]

/-- Of its parent a declaration says nothing but which type it is. -/
theorem declare_congr (name : String) {parent parent' : Option String}
    (same : t.parentOf parent = t.parentOf parent') :
    t.declare name parent = t.declare name parent' := by
  rw [declare_eq, declare_eq, same]

/-- **A recorded declaration** changes nothing.  It is accepted if it ever was, since all that could
still be wrong with it is its name. -/
theorem Records.declare_again {d : TypeDeclaration} {id : TypeId} (known : t'.Records d id)
    (accepted : ∃ id' t'', t.declare d.name d.parent = .ok (id', t'')) :
    t'.declare d.name d.parent = .ok (id, t') := by
  obtain ⟨p, hp, hn, ho⟩ := known
  obtain ⟨id', t'', accepted⟩ := accepted
  rw [declare_eq] at accepted ⊢
  split at accepted
  · cases accepted
  · rename_i goodName
    rw [if_neg goodName, hp, hn]
    exact if_pos ho

/-! ## Lists of declarations -/

/-- Declare types one after the other, up to the first that is refused, and give their
identifiers. -/
def declareEach : TypeTree → List TypeDeclaration → Except Refusal (List TypeId × TypeTree)
  | t, [] => .ok ([], t)
  | t, d :: rest => do
    let (id, t₁) ← t.declare d.name d.parent
    let (ids, t₂) ← t₁.declareEach rest
    return (id :: ids, t₂)

/-- Several declarations are accepted exactly if each of them is, after those before it. -/
theorem declareEach_cons_eq_ok {d : TypeDeclaration} {ds : List TypeDeclaration}
    {ids : List TypeId} :
    t.declareEach (d :: ds) = .ok (ids, t') ↔ ∃ id t₁ rest,
      t.declare d.name d.parent = .ok (id, t₁) ∧ t₁.declareEach ds = .ok (rest, t') ∧
        ids = id :: rest := by
  rw [declareEach, Guards.bind_eq_ok]
  constructor
  · rintro ⟨⟨id, t₁⟩, first, h⟩
    obtain ⟨⟨rest, t₂⟩, others, h⟩ := Guards.bind_eq_ok.mp h
    cases Guards.pure_eq_ok.mp h
    exact ⟨id, t₁, rest, first, others, rfl⟩
  · rintro ⟨id, t₁, rest, first, others, rfl⟩
    exact ⟨(id, t₁), first, Guards.bind_eq_ok.mpr ⟨(rest, t'), others, rfl⟩⟩

/-- One more declaration comes last. -/
theorem declareEach_concat {ds : List TypeDeclaration} {d : TypeDeclaration} {ids : List TypeId}
    {id : TypeId} (before : t.declareEach ds = .ok (ids, t'))
    (last : t'.declare d.name d.parent = .ok (id, t'')) :
    t.declareEach (ds ++ [d]) = .ok (ids ++ [id], t'') := by
  induction ds generalizing t ids with
  | nil =>
    cases before
    exact declareEach_cons_eq_ok.mpr ⟨id, t'', [], last, rfl, rfl⟩
  | cons d' ds ih =>
    obtain ⟨id', t₁, rest, first, others, rfl⟩ := declareEach_cons_eq_ok.mp before
    exact declareEach_cons_eq_ok.mpr ⟨id', t₁, rest ++ [id], first, ih others, rfl⟩

/-- A list of accepted declarations is a history. -/
theorem grow_of_declareEach {ds : List TypeDeclaration} {ids : List TypeId}
    (accepted : t.declareEach ds = .ok (ids, t')) : t.grow ds = t' := by
  induction ds generalizing t ids with
  | nil =>
    cases accepted
    rfl
  | cons d ds ih =>
    obtain ⟨id, t₁, rest, first, others, -⟩ := declareEach_cons_eq_ok.mp accepted
    have step : t.attempt d = t₁ := by rw [attempt, first]
    rw [← ih others, ← step]
    rfl

/-- **All accepted declarations** of a list are recorded at its end and accepted there again, with
the identifiers that they got. -/
theorem WellFormed.declareEach_again (ht : t.WellFormed) (hb : builtin.Extends t)
    {ds : List TypeDeclaration} {ids : List TypeId}
    (accepted : t.declareEach ds = .ok (ids, t')) :
    List.Forall₂ (fun d id => t'.Records d id ∧ t'.declare d.name d.parent = .ok (id, t'))
      ds ids := by
  induction ds generalizing t ids with
  | nil =>
    cases accepted
    exact .nil
  | cons d ds ih =>
    obtain ⟨id, t₁, rest, first, others, rfl⟩ := declareEach_cons_eq_ok.mp accepted
    have ht₁ := ht.declare hb first
    have hb₁ := hb.trans (.declare first)
    obtain ⟨ht', more⟩ := grow_grows ht₁ hb₁ ds
    rw [grow_of_declareEach others] at ht' more
    have known : t'.Records d id := (ht.records hb first).mono more ht₁ ht'
    exact .cons ⟨known, known.declare_again ⟨id, t₁, first⟩⟩ (ih ht₁ hb₁ others)

/-- Whatever came later, a declaration of the list is recorded at its end. -/
theorem WellFormed.records_of_mem (ht : t.WellFormed) (hb : builtin.Extends t)
    {ds : List TypeDeclaration} {ids : List TypeId}
    (accepted : t.declareEach ds = .ok (ids, t')) {d : TypeDeclaration} (hd : d ∈ ds) :
    ∃ id, t'.Records d id := by
  obtain ⟨id, -, known, -⟩ :=
    Guards.exists_of_forall₂ (ht.declareEach_again hb accepted).flip hd
  exact ⟨id, known⟩

/-- Declarations that change nothing can be made in any order. -/
theorem declareEach_map {α : Type} {xs : List α} {declaration : α → TypeDeclaration}
    {id : α → TypeId} (known : ∀ x ∈ xs,
      t.declare (declaration x).name (declaration x).parent = .ok (id x, t)) :
    t.declareEach (xs.map declaration) = .ok (xs.map id, t) := by
  induction xs with
  | nil => rfl
  | cons x xs ih =>
    rw [List.forall_mem_cons] at known
    exact declareEach_cons_eq_ok.mpr ⟨id x, t, xs.map id, known.1, ih known.2, rfl⟩

/-! ## The listing -/

/-- The entry of a type is found by its identifier. -/
theorem WellFormed.find?_entries (ht : t.WellFormed) (id : TypeId) :
    t.entries.toList.find? (·.id = id) = t.entries[id.index]? := by
  cases he : t.entries[id.index]? with
  | some e =>
    have hid : e.id = id := ht.entry_id _ e he
    rw [List.find?_eq_some_iff_getElem]
    obtain ⟨hi, rfl⟩ := Array.getElem?_eq_some_iff.mp he
    refine ⟨by simpa using hid, id.index, by simpa using hi, by simp, ?_⟩
    intro j hj
    have hj' : t.entries[j]? = some t.entries[j] := Array.getElem?_eq_getElem (hj.trans hi)
    have other := ht.entry_id j _ hj'
    simp only [Array.getElem_toList, other, TypeId.eq_iff]
    simpa using hj.ne
  | none =>
    rw [List.find?_eq_none]
    intro e listed hid
    rw [decide_eq_true_eq] at hid
    rw [← hid, ht.getElem?_of_mem listed] at he
    cases he

/-- The name of a parent is found among the entries. -/
theorem WellFormed.parentName_eq (ht : t.WellFormed) (e : TypeEntry) :
    parentName t.entries.toList e = e.parent.bind t.name? := by
  rw [parentName, Option.map_bind]
  congr 1
  funext p
  exact congrArg (Option.map (·.name)) (ht.find?_entries p)

/-- The declarations of a tree name each type with the name of its parent. -/
theorem WellFormed.declarations_eq (ht : t.WellFormed) :
    t.declarations = t.entries.toList.map fun e => ⟨e.name, e.parent.bind t.name?⟩ :=
  List.map_congr_left fun e _ => by rw [ht.parentName_eq]

/-- A type that is appended comes last in the listing. -/
theorem WellFormed.declarations_push (ht : t.WellFormed) {name : String} {p : TypeId}
    (ht' : (t.push name (some p)).WellFormed) (hp : t.contains p) :
    (t.push name (some p)).declarations = t.declarations ++ [⟨name, t.name? p⟩] := by
  have named : ∀ q, t.contains q → (t.push name (some p)).name? q = t.name? q := fun q hq =>
    (extends_push t name (some p)).name? hq
  rw [ht'.declarations_eq, ht.declarations_eq, entries_push, Array.toList_push, List.map_append]
  congr 1
  · apply List.map_congr_left
    intro e he
    cases ho : e.parent with
    | none => rfl
    | some q =>
      -- the parents of the others were there before
      have above : t.parent? e.id = some q := by rw [ht.parent?_of_mem he, ho]
      rw [Option.bind_some, Option.bind_some, named q (ht.contains_parent above)]
  · simp [named p hp]

/-- A type that is pushed gets the next identifier. -/
theorem ids_push (t : TypeTree) (name : String) (parent : Option TypeId) :
    (t.push name parent).ids = t.ids ++ [t.nextId] := by
  rw [ids, entries_push, Array.toList_push, List.map_append]
  rfl

/-! ## Replaying -/

/-- What is listed behind the root leads from the tree of the beginning to the listed one. -/
def Rebuilt (t : TypeTree) : Prop :=
  builtin.declareEach t.declarations.tail = .ok (t.ids.tail, t)

/-- The types of the beginning are rebuilt from their own declarations. -/
theorem rebuilt_builtin : builtin.Rebuilt := by
  rfl

/-- A tree that extends the beginning has entries. -/
theorem Extends.entries_ne_nil (hb : builtin.Extends t) : t.entries.toList ≠ [] := by
  intro none
  have hollow : t.entries.size = 0 := by
    rw [← Array.length_toList, none]
    rfl
  have few := hb.size_le
  rw [hollow] at few
  exact absurd few (by decide)

/-- An accepted declaration can be told from the listing, whichever way it named its parent. -/
theorem Rebuilt.declare (rebuilt : t.Rebuilt) (ht : t.WellFormed) (hb : builtin.Extends t)
    {name : String} {parent : Option String} {id : TypeId}
    (accepted : t.declare name parent = .ok (id, t')) : t'.Rebuilt := by
  have ht' := ht.declare hb accepted
  obtain ⟨p, hp, ⟨-, -, rfl⟩ | ⟨-, rfl, rfl⟩⟩ := declare_cases accepted
  · exact rebuilt
  · have registered := ht.contains_parentOf hb hp
    obtain ⟨pn, hpn⟩ := (t.contains_iff_name? p).mp registered
    have same : t.parentOf (some pn) = t.parentOf parent := by
      rw [hp]
      exact resolve_eq_ok.mpr ((ht.get?_iff pn p).mpr hpn)
    have nonempty := hb.entries_ne_nil
    rw [Rebuilt, ht.declarations_push ht' registered, ids_push, hpn,
      List.tail_append_of_ne_nil (by simpa [declarations] using nonempty),
      List.tail_append_of_ne_nil (by simpa [ids] using nonempty)]
    exact declareEach_concat rebuilt ((declare_congr name same).trans accepted)

/-- Growing keeps a tree rebuilt from its own declarations. -/
theorem Rebuilt.grow (rebuilt : t.Rebuilt) (ht : t.WellFormed) (hb : builtin.Extends t)
    (ds : List TypeDeclaration) : (t.grow ds).Rebuilt := by
  induction ds generalizing t with
  | nil => exact rebuilt
  | cons d ds ih =>
    obtain ⟨ht', more⟩ := attempt_grows ht hb d
    refine ih ?_ ht' (hb.trans more)
    rw [attempt]
    cases hd : t.declare d.name d.parent with
    | error refusal => exact rebuilt
    | ok result => exact rebuilt.declare ht hb hd

/-- What can be done with the listing of a tree behind its root. -/
structure Replays (t : TypeTree) : Prop where
  root : t.declarations.head? = some ⟨"Atom", none⟩
  rebuilt : builtin.declareEach t.declarations.tail = .ok (t.ids.tail, t)
  /-- The entries may come in any order and as often as they like. -/
  unchanged : ∀ es : List TypeEntry, es ⊆ t.entries.toList.tail →
    t.declareEach (es.map fun e => ⟨e.name, parentName t.entries.toList e⟩)
      = .ok (es.map (·.id), t)

/-- **The listing of every tree** that declarations lead to, accepted or refused, can be
replayed. -/
theorem replays_grow (ds : List TypeDeclaration) : (builtin.grow ds).Replays := by
  obtain ⟨ht, hb⟩ := grow_grows builtin_wellFormed (.refl builtin) ds
  have rebuilt := rebuilt_builtin.grow builtin_wellFormed (.refl builtin) ds
  refine ⟨?root, rebuilt, ?unchanged⟩
  case root =>
    obtain ⟨more, hmore⟩ := hb
    rw [declarations, ← hmore]
    rfl
  case unchanged =>
    intro es listed
    apply declareEach_map
    intro e he
    have again := builtin_wellFormed.declareEach_again (.refl builtin) rebuilt
    rw [declarations, ids, ← List.map_tail, ← List.map_tail, List.forall₂_map_left_iff,
      List.forall₂_map_right_iff, List.forall₂_same] at again
    exact (again e (listed he)).2

/-- A type under a name that comes later, one under the root without saying so, and refusals in
between. -/
example :
    let t := builtin.grow [⟨"Noun", some "Word"⟩, ⟨"Word", some "Node"⟩, ⟨"Thing", none⟩,
      ⟨"Noun", some "Word"⟩, ⟨"Word", none⟩]
    t.declarations.tail = [⟨"Node", some "Atom"⟩, ⟨"Link", some "Atom"⟩,
      ⟨"VariableNode", some "Node"⟩, ⟨"Word", some "Node"⟩, ⟨"Thing", some "Atom"⟩,
      ⟨"Noun", some "Word"⟩] := by
  decide +kernel

end TypeTree

end TypedHypergraph
