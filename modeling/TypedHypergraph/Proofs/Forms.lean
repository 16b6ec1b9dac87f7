/-
# Laws of readers and forms

A reader is *lawful* for a way of writing (`Reader.Lawful`) if it reads what was written back, and
whatever it reads is of the sort that is read back.  The laws of lists and of records follow from
those of their parts: a record is read back if each form that it is put together from reads its own
members back and none of them is the name of a field before it (`Form.Says`), and what is read has
the properties of what its parts are read as (`Form.Yields`).
-/
import TypedHypergraph.Json.Form
import TypedHypergraph.Proofs.Guards
import TypedHypergraph.Proofs.Trees

namespace TypedHypergraph

/-! ## Reading back -/

/-- A reader makes something of a value. -/
def Reader.Makes {α : Type} (read : Reader α) (v : Json) (a : α) : Prop :=
  read .free (.ofValue v) = .ok a

namespace Reader

variable {α β : Type} {read : Reader α} {v : Json} {a : α}

/-- A reader that can be told null still makes the same of every other value. -/
theorem makes_nullable (h : read.Makes v a) (hne : v ≠ .null) :
    (nullable read).Makes v (some a) := by
  have other : nullable read .free (.ofValue v) = (read .free (.ofValue v)).map some := by
    cases v with
    | null => exact absurd rfl hne
    | _ => rfl
  unfold Makes
  rw [other, h]
  rfl

/-- **A list** is read back if its items are. -/
theorem makes_list {write : α → Json} {xs : List α} (each : ∀ x ∈ xs, read.Makes (write x) x) :
    (list read).Makes (.arr (xs.map write)) xs := by
  have items : (Scanned.ofValues (xs.map write)).mapM (read .free) = .ok xs := by
    rw [Guards.mapM_eq_ok, Scanned.ofValues_eq_map, List.forall₂_map_left_iff,
      List.forall₂_map_left_iff, List.forall₂_same]
    exact each
  unfold Makes
  rw [Scanned.ofValue]
  show (Scanned.ofValues (xs.map write)).mapM (read .free) >>= _ = _
  rw [items]
  rfl

/-- What a function reads of JSON, its reader makes of it. -/
theorem makes_ofJson {read : Json → Option α} (h : read v = some a) : (ofJson read).Makes v a := by
  unfold Makes ofJson
  rw [show Manner.free.room = none from rfl, Scanned.value?_ofValue]
  dsimp only
  rw [h]

end Reader

/-! ## Records -/

namespace Form

variable {α β γ : Type}

/-- There is no field of a name. -/
def Foreign (r : Form α) (name : String) : Prop := ∀ draft, r.accept draft name = none

/-- A name is foreign to a single field exactly if it is not the name of the field. -/
@[simp] theorem foreign_field {f : Field α} {name : String} :
    (field f).Foreign name ↔ name ≠ f.name := by
  unfold Foreign field
  constructor
  · rintro h rfl
    simpa using h none
  · intro hne draft
    exact if_neg hne

/-- A name is foreign to two forms together exactly if it is foreign to both. -/
@[simp] theorem foreign_both {r : Form α} {s : Form β} {name : String} :
    (both r s).Foreign name ↔ r.Foreign name ∧ s.Foreign name := by
  unfold Foreign both
  constructor
  · intro h
    constructor
    · intro d
      have hd := h (d, s.blank)
      dsimp only at hd
      cases hr : r.accept d name with
      | none => rfl
      | some read =>
        rw [hr] at hd
        cases hd
    · intro e
      have he := h (r.blank, e)
      dsimp only at he
      cases hr : r.accept r.blank name with
      | some read =>
        rw [hr] at he
        cases he
      | none =>
        rw [hr] at he
        cases hs : s.accept e name with
        | none => rfl
        | some read =>
          rw [hs] at he
          cases he
  · rintro ⟨hr, hs⟩ ⟨d, e⟩
    dsimp only
    rw [hr, hs]

/-- The members of an object are read one by one into a draft, and each of them is known. -/
inductive Reads (r : Form α) : r.Draft → List (String × Json) → r.Draft → Prop
  | done (d : r.Draft) : Reads r d [] d
  | member {d d' d'' : r.Draft} {name : String} {v : Json} {rest : List (String × Json)}
      {read : Manner → Scanned → Except ReadFault r.Draft} (known : r.accept d name = some read)
      (made : read .free (.ofValue v) = .ok d') (more : Reads r d' rest d'') :
      Reads r d ((name, v) :: rest) d''

/-- Members can be read one part after the other. -/
theorem Reads.append {r : Form α} {d d' d'' : r.Draft} {members more : List (String × Json)}
    (h : r.Reads d members d') (h' : r.Reads d' more d'') : r.Reads d (members ++ more) d'' := by
  induction h with
  | done d => exact h'
  | member known made _ ih => exact .member known made (ih h')

/-- Reading members that are a form's own fills its draft. -/
theorem Reads.fill {r : Form α} {d d' : r.Draft} {members : List (String × Json)}
    (h : r.Reads d members d') : r.fill .free d (Scanned.ofMembers members) = .ok d' := by
  induction h with
  | done d => rfl
  | member known made _ ih =>
    rw [Scanned.ofMembers, Form.fill, known]
    dsimp only
    rw [made]
    exact ih

/-- What is read for the first of two forms does not touch the draft of the second. -/
theorem Reads.both_left {r : Form α} {s : Form β} {d d' : r.Draft}
    {members : List (String × Json)} (h : r.Reads d members d') (e : s.Draft) :
    (both r s).Reads (d, e) members (d', e) := by
  induction h with
  | done d => exact .done _
  | @member d d' _ name v _ read known made _ ih =>
    have known' : (both r s).accept (d, e) name
        = some fun m tree => return (← read m tree, e) := by
      simp only [both, known]
    refine .member known' ?_ ih
    show (do return (← read .free (.ofValue v), e)) = _
    rw [made]
    rfl

/-- Members that the first form does not know are left to the second one. -/
theorem Reads.both_right {r : Form α} {s : Form β} {e e' : s.Draft}
    {members : List (String × Json)} (h : s.Reads e members e')
    (foreign : ∀ x ∈ members, r.Foreign x.1) (d : r.Draft) :
    (both r s).Reads (d, e) members (d, e') := by
  induction h with
  | done e => exact .done _
  | @member e e' _ name v _ read known made _ ih =>
    rw [List.forall_mem_cons] at foreign
    -- the first form is asked first
    have known' : (both r s).accept (d, e) name
        = some fun m tree => return (d, ← read m tree) := by
      simp only [both, known, foreign.1 d]
    refine .member known' ?_ (ih foreign.2)
    show (do return (d, ← read .free (.ofValue v))) = _
    rw [made]
    rfl

/-- A form that is mapped reads the same members. -/
theorem Reads.map {r : Form α} {d d' : r.Draft} {members : List (String × Json)}
    (h : r.Reads d members d') (f : α → β) : (r.map f).Reads d members d' := by
  induction h with
  | done d => exact .done _
  | member known made _ ih => exact .member (r := r.map f) known made ih

/-- The members of an object say a record. -/
def Says (r : Form α) (members : List (String × Json)) (a : α) : Prop :=
  ∃ draft, r.Reads r.blank members draft ∧ r.finish draft = .ok a

/-- **Two forms** read their members side by side, if the first does not know those of the
second. -/
theorem Says.both {r : Form α} {s : Form β} {members more : List (String × Json)} {a : α} {b : β}
    (h : r.Says members a) (h' : s.Says more b) (foreign : ∀ x ∈ more, r.Foreign x.1) :
    (both r s).Says (members ++ more) (a, b) := by
  obtain ⟨d, hd, ha⟩ := h
  obtain ⟨e, he, hb⟩ := h'
  refine ⟨(d, e), (hd.both_left s.blank).append (he.both_right foreign d), ?_⟩
  show (do return (← r.finish d, ← s.finish e)) = _
  rw [ha, hb]
  rfl

/-- Members that say a value say its image for the form that is mapped. -/
theorem Says.map {r : Form α} {members : List (String × Json)} {a : α} (h : r.Says members a)
    (f : α → β) : (r.map f).Says members (f a) := by
  obtain ⟨d, hd, ha⟩ := h
  refine ⟨d, hd.map f, ?_⟩
  show (r.finish d).map f = _
  rw [ha]
  rfl

/-- A member of the name of a field. -/
theorem says_field {f : Field α} {v : Json} {a : α} (h : f.read.Makes v a) :
    (field f).Says [(f.name, v)] a := by
  have known : (field f).accept none f.name = some fun m tree => (f.read m tree).map some :=
    if_pos rfl
  refine ⟨some a, .member known ?_ (.done (r := field f) _), rfl⟩
  show (f.read .free (.ofValue v)).map some = _
  rw [h]
  rfl

/-- No member at all. -/
theorem says_absent {f : Field α} {a : α} (h : f.absent = some a) : (field f).Says [] a := by
  refine ⟨none, .done _, ?_⟩
  show orMismatch (none <|> f.absent) = _
  rw [h]
  rfl

/-- A member that may be missing has the name that it was given. -/
theorem fst_of_mem_member? {name : String} {write : α → Json} {o : Option α}
    {x : String × Json} (h : x ∈ Json.member? name write o) : x.1 = name := by
  cases o with
  | none => cases h
  | some a =>
    rw [Json.member?, List.mem_singleton] at h
    rw [h]

/-- A field without a value may be left out. -/
theorem says_member? {name : String} {read : Reader α} {write : α → Json} {o : Option α}
    (each : ∀ a ∈ o, read.Makes (write a) a ∧ write a ≠ .null) :
    (field (.optional name read)).Says (Json.member? name write o) o := by
  cases o with
  | none => exact says_absent rfl
  | some a =>
    obtain ⟨made, hne⟩ := each a rfl
    exact says_field (f := .optional name read) (Reader.makes_nullable made hne)

/-- **A record** is read back if its members say it. -/
theorem Says.makes {r : Form α} {members : List (String × Json)} {a : α}
    (h : r.Says members a) : r.read.Makes (.obj members) a := by
  obtain ⟨d, hd, ha⟩ := h
  unfold Reader.Makes
  rw [Scanned.ofValue]
  show (do
    let draft ← r.fill .free r.blank (Scanned.ofMembers members)
    if true then r.finish draft else throw ReadFault.syntactic) = _
  rw [hd.fill]
  exact ha

end Form

/-! ## What is read -/

/-- Everything that a reader reads has a property, if the numbers in the text are finite. -/
def Reader.Yields {α : Type} (read : Reader α) (P : α → Prop) : Prop :=
  ∀ m tree a, tree.Finite → read m tree = .ok a → P a

namespace Reader

variable {α β : Type} {read : Reader α} {P Q : α → Prop}

/-- What a reader yields, it yields also where null may stand. -/
theorem Yields.nullable (h : read.Yields P) : (nullable read).Yields fun o => ∀ a ∈ o, P a := by
  intro m tree o finite ok a ha
  cases ha
  have other : (read m tree).map some = .ok (some a) := by
    cases tree with
    | null => cases ok
    | _ => exact ok
  cases hr : read m tree with
  | error fault =>
    rw [hr] at other
    cases other
  | ok a' =>
    rw [hr] at other
    cases other
    exact h m tree a finite hr

/-- **A list** has on every item what its reader yields. -/
theorem Yields.list (h : read.Yields P) : (list read).Yields fun xs => ∀ x ∈ xs, P x := by
  intro m tree xs finite ok
  cases tree with
  | arr items closed =>
    rw [Scanned.Finite, Scanned.allFinite_iff] at finite
    obtain ⟨m', -, ok⟩ := Guards.bind_eq_ok.mp ok
    obtain ⟨values, made, ok⟩ := Guards.bind_eq_ok.mp ok
    have same : values = xs := by
      cases closed with
      | true => cases ok; rfl
      | false => cases ok
    subst same
    rw [Guards.mapM_eq_ok] at made
    intro x hx
    obtain ⟨item, hitem, hread⟩ := Guards.exists_of_forall₂ made hx
    exact h m' item x (finite item hitem) hread
  | _ => cases ok

/-- What is made ready as a whole has what follows from its value. -/
theorem yields_ofJson {f : Json → Option α} (h : ∀ v a, f v = some a → P a) :
    (ofJson f).Yields P := by
  intro m tree a _ ok
  unfold ofJson at ok
  split at ok
  case h_1 => cases ok
  case h_2 v hv =>
    split at ok
    case h_1 a' ha =>
      cases ok
      exact h v a ha
    case h_2 => cases ok

end Reader

/-- Every value that a field can take has a property. -/
structure Field.Yields {α : Type} (f : Field α) (P : α → Prop) : Prop where
  read : f.read.Yields P
  absent : ∀ a ∈ f.absent, P a
  omitted : ∀ a ∈ f.omitted, P a

namespace Field

variable {α : Type} {read : Reader α} {P : α → Prop}

/-- A required field yields what its reader yields. -/
theorem yields_required (name : String) (h : read.Yields P) : (required name read).Yields P := by
  refine ⟨h, ?_, ?_⟩
  · rintro a ⟨⟩
  · rintro a ⟨⟩

/-- A field with a default yields what its reader yields, if the default is as good. -/
theorem yields_withDefault (name : String) {value : α} (h : read.Yields P) (hv : P value) :
    (withDefault name read value).Yields P := by
  refine ⟨h, ?_, ?_⟩
  · rintro a ⟨⟩
    exact hv
  · rintro a ⟨⟩
    exact hv

/-- An optional field yields what its reader yields, if it yields anything. -/
theorem yields_optional (name : String) (h : read.Yields P) :
    (optional name read).Yields fun o => ∀ a ∈ o, P a := by
  refine yields_withDefault name h.nullable ?_
  rintro a ⟨⟩

/-- A field that may be null yields what its reader yields, if it yields anything. -/
theorem yields_nullable (name : String) (h : read.Yields P) :
    (nullable name read).Yields fun o => ∀ a ∈ o, P a := by
  refine ⟨h.nullable, ?_, ?_⟩
  · rintro o ⟨⟩ a ⟨⟩
  · rintro o ⟨⟩

end Field

/-- Everything that a form reads has a property.  It is carried by an invariant of the drafts. -/
structure Form.Carries {α : Type} (r : Form α) (Good : r.Draft → Prop) (P : α → Prop) : Prop where
  blank : Good r.blank
  accept : ∀ d name read, r.accept d name = some read → Good d →
    ∀ m tree d', tree.Finite → read m tree = .ok d' → Good d'
  finish : ∀ d a, Good d → r.finish d = .ok a → P a
  take : ∀ m closed items a rest, Scanned.AllFinite items →
    r.take m closed items = .ok (a, rest) → P a ∧ Scanned.AllFinite rest

/-- Everything that a form reads has a property. -/
def Form.Yields {α : Type} (r : Form α) (P : α → Prop) : Prop := ∃ Good, r.Carries Good P

namespace Form

variable {α β : Type} {r : Form α} {s : Form β} {P : α → Prop} {Q : β → Prop}

/-- What is missing is a mismatch, and what is there is taken. -/
theorem orMismatch_eq_ok {o : Option α} {a : α} : orMismatch o = .ok a ↔ o = some a := by
  cases o with
  | none => simp [orMismatch]
  | some b => simp [orMismatch]

/-- A form with one field yields what the field yields. -/
theorem yields_field {f : Field α} (h : f.Yields P) : (field f).Yields P := by
  refine ⟨fun draft : Option α => ∀ a ∈ draft, P a, ?_, ?_, ?_, ?_⟩
  · rintro a ⟨⟩
  · intro d name read hread hd m tree d' finite ok
    obtain ⟨-, ⟨⟩⟩ := Option.ite_none_right_eq_some.mp hread
    cases d with
    | some a => cases ok
    | none =>
      intro a ha
      cases ha
      cases hr : f.read m tree with
      | error fault =>
        simp only [hr] at ok
        cases ok
      | ok a' =>
        simp only [hr] at ok
        cases ok
        exact h.read m tree a finite hr
  · intro d a hd ok
    cases d with
    | some a' =>
      cases ok
      exact hd a rfl
    | none => exact h.absent a (orMismatch_eq_ok.mp ok)
  · intro m closed items a rest finite ok
    cases items with
    | nil =>
      cases closed with
      | false => cases ok
      | true =>
        obtain ⟨a', ha', ok⟩ := Guards.bind_eq_ok.mp ok
        cases ok
        exact ⟨h.omitted a (orMismatch_eq_ok.mp ha'), finite⟩
    | cons item more =>
      obtain ⟨a', ha', ok⟩ := Guards.bind_eq_ok.mp ok
      cases ok
      rw [Scanned.AllFinite] at finite
      exact ⟨h.read m item a finite.1 ha', finite.2⟩

/-- Two forms together yield what each of them yields. -/
theorem Yields.both (h : r.Yields P) (h' : s.Yields Q) :
    (both r s).Yields fun x => P x.1 ∧ Q x.2 := by
  obtain ⟨Good, h⟩ := h
  obtain ⟨Fine, h'⟩ := h'
  refine ⟨fun d => Good d.1 ∧ Fine d.2, ⟨h.blank, h'.blank⟩, ?_, ?_, ?_⟩
  · rintro ⟨d, e⟩ name read hread ⟨hd, he⟩ m tree ⟨d', e'⟩ finite ok
    simp only [Form.both] at hread
    split at hread
    case h_1 mine hmine =>
      cases hread
      obtain ⟨d'', ok', ⟨⟩⟩ := Guards.bind_eq_ok.mp ok
      exact ⟨h.accept d name mine hmine hd m tree d' finite ok', he⟩
    case h_2 =>
      split at hread
      case h_1 yours hyours =>
        cases hread
        obtain ⟨e'', ok', ⟨⟩⟩ := Guards.bind_eq_ok.mp ok
        exact ⟨hd, h'.accept e name yours hyours he m tree e' finite ok'⟩
      case h_2 => cases hread
  · rintro ⟨d, e⟩ ⟨a, b⟩ ⟨hd, he⟩ ok
    obtain ⟨a', ha, ok⟩ := Guards.bind_eq_ok.mp ok
    obtain ⟨b', hb, ⟨⟩⟩ := Guards.bind_eq_ok.mp ok
    exact ⟨h.finish d a hd ha, h'.finish e b he hb⟩
  · rintro m closed items ⟨a, b⟩ rest finite ok
    obtain ⟨⟨a', items'⟩, ha, ok⟩ := Guards.bind_eq_ok.mp ok
    obtain ⟨⟨b', left⟩, hb, ⟨⟩⟩ := Guards.bind_eq_ok.mp ok
    obtain ⟨pa, finite'⟩ := h.take m closed items a items' finite ha
    obtain ⟨qb, finite''⟩ := h'.take m closed items' b _ finite' hb
    exact ⟨⟨pa, qb⟩, finite''⟩

/-- A form that is mapped yields the images of what it yielded. -/
theorem Yields.map (h : r.Yields P) {f : α → β} (hf : ∀ a, P a → Q (f a)) :
    (r.map f).Yields Q := by
  obtain ⟨Good, h⟩ := h
  refine ⟨Good, h.blank, h.accept, ?_, ?_⟩
  · intro d b hd ok
    cases ha : r.finish d with
    | error fault =>
      simp only [Form.map, ha] at ok
      cases ok
    | ok a =>
      simp only [Form.map, ha] at ok
      cases ok
      exact hf a (h.finish d a hd ha)
  · intro m closed items b rest finite ok
    cases ha : r.take m closed items with
    | error fault =>
      simp only [Form.map, ha] at ok
      cases ok
    | ok x =>
      simp only [Form.map, ha] at ok
      cases ok
      obtain ⟨pa, finite'⟩ := h.take m closed items x.1 x.2 finite ha
      exact ⟨hf x.1 pa, finite'⟩

/-- An invariant of drafts that each member keeps holds after all of them. -/
theorem Carries.fill {Good : r.Draft → Prop} (h : r.Carries Good P) {m : Manner}
    {members : List (Option String × Scanned)} (finite : Scanned.MembersFinite members)
    {d d' : r.Draft} (hd : Good d) (ok : r.fill m d members = .ok d') : Good d' := by
  induction members generalizing d with
  | nil =>
    cases ok
    exact hd
  | cons member rest ih =>
    obtain ⟨_ | name, value⟩ := member
    · cases ok
    · rw [Scanned.MembersFinite] at finite
      rw [Form.fill] at ok
      cases hread : r.accept d name with
      | none =>
        simp only [hread] at ok
        split at ok
        · exact ih finite.2 hd ok
        · cases ok
      | some read =>
        simp only [hread] at ok
        cases hmade : read m value with
        | error fault =>
          simp only [hmade] at ok
          cases ok
        | ok e =>
          simp only [hmade] at ok
          exact ih finite.2 (h.accept d name read hread hd m value e finite.1 hmade) ok

/-- **A record** has what its form yields, whether it stands as an object or as a list. -/
theorem Yields.read (h : r.Yields P) : r.read.Yields P := by
  obtain ⟨Good, h⟩ := h
  intro m tree a finite ok
  cases tree with
  | obj members closed =>
    rw [Scanned.Finite] at finite
    obtain ⟨m', -, ok⟩ := Guards.bind_eq_ok.mp ok
    obtain ⟨d, hd, ok⟩ := Guards.bind_eq_ok.mp ok
    cases closed with
    | true => exact h.finish d a (h.fill finite h.blank hd) ok
    | false => cases ok
  | arr items closed =>
    rw [Scanned.Finite] at finite
    obtain ⟨m', -, ok⟩ := Guards.bind_eq_ok.mp ok
    obtain ⟨⟨a', rest⟩, ha, ok⟩ := Guards.bind_eq_ok.mp ok
    dsimp only at ok
    split at ok
    · cases ok
      exact (h.take m' closed items a rest finite ha).1
    · cases ok
  | _ => cases ok

end Form

/-! ## Laws -/

/-- A reader is lawful for a way of writing: it reads what was written back, if this has a property,
and everything that it reads has the property. -/
structure Reader.Lawful {α : Type} (read : Reader α) (write : α → Json) (P : α → Prop) : Prop where
  back : ∀ a, P a → read.Makes (write a) a
  yields : read.Yields P

/-- A form is lawful for a way of writing the members of an object. -/
structure Form.Lawful {α : Type} (r : Form α) (write : α → List (String × Json)) (P : α → Prop) :
    Prop where
  back : ∀ a, P a → r.Says (write a) a
  yields : r.Yields P

namespace Reader

variable {α : Type} {read : Reader α} {write : α → Json} {P : α → Prop}

/-- Every text is read back as it was written. -/
theorem lawful_text : text.Lawful .str fun _ => True where
  back _ _ := rfl
  yields _ _ _ _ _ := trivial

/-- Every flag is read back as it was written. -/
theorem lawful_flag : flag.Lawful .bool fun _ => True where
  back _ _ := rfl
  yields _ _ _ _ _ := trivial

/-- A number up to a bound is read back as it was written, and no greater one is read. -/
theorem lawful_upTo (most : Nat) : (upTo most).Lawful .nat (· ≤ most) := by
  constructor
  · intro n h
    simp only [Makes, Json.nat, Scanned.ofValue, upTo]
    rw [← Json.nat, Json.nat?_nat h]
  · intro m tree n _ ok
    cases tree with
    | num k =>
      simp only [upTo] at ok
      split at ok
      case h_1 n' hn =>
        cases ok
        exact Json.le_of_nat? hn
      case h_2 => cases ok
    | _ => cases ok

/-- A finite double is read back as it was written, and no other is read. -/
theorem lawful_float : float.Lawful .float fun x => x.isFinite = true := by
  constructor
  · intro x h
    unfold Makes
    rw [Json.float, if_pos h, Scanned.ofValue]
    rfl
  · intro m tree x finite ok
    cases tree with
    | num n =>
      cases ok
      exact finite
    | _ => cases ok

/-- A lawful reader stays lawful where null stands for nothing. -/
theorem Lawful.nullable (h : read.Lawful write P) (hne : ∀ a, write a ≠ .null) :
    (nullable read).Lawful (Json.option write) fun o => ∀ a ∈ o, P a := by
  refine ⟨fun o each => ?_, h.yields.nullable⟩
  cases o with
  | none => rfl
  | some a => exact makes_nullable (h.back a (each a rfl)) (hne a)

/-- Lists are read back if their items are. -/
theorem Lawful.list (h : read.Lawful write P) :
    (list read).Lawful (fun xs => .arr (xs.map write)) fun xs => ∀ x ∈ xs, P x :=
  ⟨fun _ each => makes_list fun x hx => h.back x (each x hx), h.yields.list⟩

/-- A function that reads back what was written makes a lawful reader. -/
theorem lawful_ofJson {f : Json → Option α} (back : ∀ a, P a → f (write a) = some a)
    (yields : ∀ v a, f v = some a → P a) : (ofJson f).Lawful write P :=
  ⟨fun a ha => makes_ofJson (back a ha), yields_ofJson yields⟩

end Reader

namespace Form

variable {α β : Type} {r : Form α} {s : Form β} {P : α → Prop} {Q : β → Prop}
  {reads : Reader α} {write : α → Json} {writes : α → List (String × Json)}
  {writes' : β → List (String × Json)}

/-- A required field is read back if its value is. -/
theorem lawful_required (name : String) (h : reads.Lawful write P) :
    (field (.required name reads)).Lawful (fun a => [(name, write a)]) P :=
  ⟨fun a ha => says_field (f := .required name reads) (h.back a ha),
    yields_field (Field.yields_required name h.yields)⟩

/-- A field with a default is read back if its value is. -/
theorem lawful_withDefault (name : String) (value : α) (h : reads.Lawful write P) (hv : P value) :
    (field (.withDefault name reads value)).Lawful (fun a => [(name, write a)]) P :=
  ⟨fun a ha => says_field (f := .withDefault name reads value) (h.back a ha),
    yields_field (Field.yields_withDefault name h.yields hv)⟩

/-- A field that is left out when there is nothing to say is read back if its value is. -/
theorem lawful_optional (name : String) (h : reads.Lawful write P) (hne : ∀ a, write a ≠ .null) :
    (field (.optional name reads)).Lawful (Json.member? name write) fun o => ∀ a ∈ o, P a :=
  ⟨fun _ each => says_member? fun a ha => ⟨h.back a (each a ha), hne a⟩,
    yields_field (Field.yields_optional name h.yields)⟩

/-- A field that is null when there is nothing to say is read back if its value is. -/
theorem lawful_nullable (name : String) (h : reads.Lawful write P) (hne : ∀ a, write a ≠ .null) :
    (field (.nullable name reads)).Lawful (fun o => [(name, Json.option write o)])
      fun o => ∀ a ∈ o, P a :=
  ⟨fun o each => says_field (f := .nullable name reads) ((h.nullable hne).back o each),
    yields_field (Field.yields_nullable name h.yields)⟩

/-- Two forms together are read back if each of them is, and neither writes a name of the other. -/
theorem Lawful.both (h : r.Lawful writes P) (h' : s.Lawful writes' Q)
    (foreign : ∀ b, ∀ x ∈ writes' b, r.Foreign x.1) :
    (both r s).Lawful (fun x => writes x.1 ++ writes' x.2) fun x => P x.1 ∧ Q x.2 :=
  ⟨fun x hx => (h.back x.1 hx.1).both (h'.back x.2 hx.2) (foreign x.2), h.yields.both h'.yields⟩

/-- The same fields with another meaning: whatever is to be written has a preimage of which the same
members are written. -/
theorem Lawful.map (h : r.Lawful writes P) {f : α → β} (kept : ∀ a, P a → Q (f a))
    (onto : ∀ b, Q b → ∃ a, P a ∧ f a = b ∧ writes' b = writes a) :
    (r.map f).Lawful writes' Q := by
  refine ⟨fun b hb => ?_, h.yields.map kept⟩
  obtain ⟨a, ha, rfl, same⟩ := onto b hb
  rw [same]
  exact (h.back a ha).map f

/-- An object is read back if its members are. -/
theorem Lawful.read (h : r.Lawful writes P) : r.read.Lawful (fun a => .obj (writes a)) P :=
  ⟨fun a ha => (h.back a ha).makes, h.yields.read⟩

end Form

end TypedHypergraph
