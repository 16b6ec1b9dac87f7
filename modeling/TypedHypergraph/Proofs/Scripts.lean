/-
# Scripts and the server

A script can be run as a whole, or its steps can be sent to the server one by one.  Both come to the
same: the steps are operations of the server (`Script.operations`), and

* `Script.perform_operations` : a script runs as its operations are performed one after the other;
* `Server.respondAll_of_ok`, `Server.respondAll_of_error` : so do the requests that ask for them, up
  to the first one that fails;
* `Server.mirrors_of_posts` : hence the server tells of every step what the report tells of it, and
  its graph is the one in which the script ends.
-/
import TypedHypergraph.Proofs.Exchanges

namespace TypedHypergraph

variable {digest : Content → UInt64}

/-! ## Traversals -/

/-- As many results come out of a traversal as members go in. -/
theorem Step.length_of_mapM {ε σ α β : Type} {u : α → EStateM ε σ β} {xs : List α} {ys : List β}
    {s s' : σ} (ends : xs.mapM u s = .ok ys s') : ys.length = xs.length := by
  induction xs generalizing s ys with
  | nil =>
    cases ends
    rfl
  | cons x xs ih =>
    rw [List.mapM_cons] at ends
    obtain ⟨y, s₁, first, ends⟩ := Step.bind_eq_ok.mp ends
    obtain ⟨ys', s₂, rest, ends⟩ := Step.bind_eq_ok.mp ends
    cases ends
    rw [List.length_cons, List.length_cons, ih rest]

/-! ## Steps as operations -/

namespace Operation

variable {ι β : Type} {op : ι → Operation} {u : ι → Update digest β} {caps : Caps}

/-- Operations that are performed one after the other reply what the updates that they call give. -/
theorem mapM_perform {f : ι → β → Reply}
    (calls : ∀ x, ((op x).perform caps : Serving digest Reply)
      = do return f x (← Serving.update (u x)))
    (xs : List ι) (g : Graph digest) :
    (xs.map op).mapM (Operation.perform caps) g =
      match xs.mapM u g with
      | .ok ys g' => .ok (List.zipWith f xs ys) g'
      | .error refusal g' => .error (.store refusal) g' := by
  induction xs generalizing g with
  | nil => rfl
  | cons x xs ih =>
    rw [List.map_cons, List.mapM_cons, List.mapM_cons, Step.bind_apply, Step.bind_apply, calls,
      Serving.update_map]
    cases u x g with
    | error refusal g' => rfl
    | ok y g' =>
      dsimp only
      rw [Step.bind_apply, Step.bind_apply, ih]
      cases xs.mapM u g' with
      | error refusal g'' => rfl
      | ok ys g'' => rfl

/-- The same where a reply does not depend on what it replies to. -/
theorem mapM_perform_const {f : β → Reply}
    (calls : ∀ x, ((op x).perform caps : Serving digest Reply)
      = do return f (← Serving.update (u x)))
    (xs : List ι) (g : Graph digest) :
    (xs.map op).mapM (Operation.perform caps) g =
      match xs.mapM u g with
      | .ok ys g' => .ok (ys.map f) g'
      | .error refusal g' => .error (.store refusal) g' := by
  rw [mapM_perform (f := fun _ => f) calls]
  cases ends : xs.mapM u g with
  | error refusal g' => rfl
  | ok ys g' =>
    have replies : List.zipWith (fun _ => f) xs ys = ys.map f := by
      calc List.zipWith (fun _ => f) xs ys
          = ((xs.zip ys).map Prod.snd).map f := by
            rw [List.map_map, List.zip, List.map_zipWith]
            rfl
        _ = ys.map f := by rw [List.map_snd_zip (Step.length_of_mapM ends).le]
    dsimp only
    rw [replies]

end Operation

namespace Script

/-- The steps of a script as operations of the server. -/
def operations (s : Script) : List Operation :=
  s.types.map .declareType ++ s.insertions.map .insert ++ s.inquiries.map .inquire

/-- **A script** runs as its operations are performed one after the other: there is a reply to each
type, and then what the report tells. -/
theorem perform_operations (s : Script) (caps : Caps) (g : Graph digest) :
    match s.run caps g with
    | .ok report g' => ∃ declared, declared.length = s.types.length ∧
        s.operations.mapM (Operation.perform caps) g
          = .ok (declared ++ (report.stored.map .stored ++ report.answers.map .answer)) g'
    | .error refusal g' =>
      s.operations.mapM (Operation.perform caps) g = .error (.store refusal) g' := by
  have declares : ∀ d : TypeDeclaration, ((Operation.declareType d).perform caps :
      Serving digest Reply) = do return .declared d.name (← Serving.update d.run) := fun _ => rfl
  have inserts : ∀ i : Insertion, ((Operation.insert i).perform caps :
      Serving digest Reply) = do return .stored (← Serving.update i.run) := fun _ => rfl
  have inquires : ∀ i : Inquiry, ((Operation.inquire i).perform caps :
      Serving digest Reply) = do return .answer (← Serving.update (i.run caps)) := fun _ => rfl
  unfold operations run
  simp only [List.mapM_append, bind_assoc, pure_bind]
  rw [Step.bind_apply, Step.bind_apply, Operation.mapM_perform declares]
  cases ht : s.types.mapM TypeDeclaration.run g with
  | error refusal g₁ => rfl
  | ok ids g₁ =>
    dsimp only
    rw [Step.bind_apply, Step.bind_apply, Operation.mapM_perform_const inserts]
    cases hi : s.insertions.mapM Insertion.run g₁ with
    | error refusal g₂ => rfl
    | ok stored g₂ =>
      dsimp only
      rw [Step.bind_apply, Step.bind_apply, Operation.mapM_perform_const inquires]
      cases hq : s.inquiries.mapM (Inquiry.run · caps) g₂ with
      | error refusal g₃ => rfl
      | ok answers g₃ =>
        refine ⟨List.zipWith (fun d => .declared d.name) s.types ids, ?_, ?_⟩
        · rw [List.length_zipWith, Step.length_of_mapM ht, min_self]
        · rw [← List.append_assoc]
          rfl

end Script

namespace Http

/-! ## Steps as requests -/

namespace Request

/-- A request posts a value in its JSON form, within the bounds of the server. -/
structure Posts {α : Type} (limit : Nat) (segment : String) (form : Form α) (r : Request) (a : α) :
    Prop where
  post : r.method = "POST"
  path : r.segments = [segment]
  json : r.isJson = true
  fits : r.body.utf8ByteSize ≤ limit
  holds : Reader.ofText form.read r.body = .ok a

variable {α : Type} {limit : Nat} {segment : String} {form : Form α} {r : Request} {a : α}

/-- What is posted is read from the body. -/
theorem Posts.read (posts : r.Posts limit segment form a) : r.read limit form.read = .ok a := by
  unfold Request.read
  rw [posts.json, posts.holds, if_neg (by decide), if_neg posts.fits.not_gt]
  rfl

/-- What is posted is asked for, if the path leads there. -/
theorem Posts.asks (posts : r.Posts limit segment form a) {op : α → Operation}
    (route : r.operation limit = (r.read limit form.read).map op) : r.Asks limit (op a) where
  operation := by
    rw [route, posts.read]
    rfl
  notOptions := by
    rw [posts.post]
    decide
  notHead := by
    rw [posts.post]
    decide

/-- Who posts a declaration of a type asks for it. -/
theorem Posts.asks_declareType {d : TypeDeclaration}
    (posts : r.Posts limit "types" TypeDeclaration.form d) : r.Asks limit (.declareType d) := by
  refine posts.asks ?_
  have path : (Target.ofText r.target).segments = ["types"] := posts.path
  simp only [operation, path, posts.post]
  rfl

/-- Who posts an insertion asks for it. -/
theorem Posts.asks_insert {i : Insertion} (posts : r.Posts limit "atoms" Insertion.form i) :
    r.Asks limit (.insert i) := by
  refine posts.asks ?_
  have path : (Target.ofText r.target).segments = ["atoms"] := posts.path
  simp only [operation, path, posts.post]
  rfl

/-- Who posts an inquiry asks for its answer. -/
theorem Posts.asks_inquire {i : Inquiry} (posts : r.Posts limit "query" Inquiry.form i) :
    r.Asks limit (.inquire i) := by
  refine posts.asks ?_
  have path : (Target.ofText r.target).segments = ["query"] := posts.path
  simp only [operation, path, posts.post]
  rfl

end Request

namespace Server

/-! ## Requests up to the first failure -/

variable {limit : Nat} {rs : List Request} {ops : List Operation}

/-- Requests are answered as the operations that they ask for are performed. -/
theorem respondAll_of_ok (asks : List.Forall₂ (Request.Asks limit) rs ops) {s : Server digest}
    (same : s.bodyLimit = limit) {replies : List Reply} {g : Graph digest}
    (ends : ops.mapM (Operation.perform s.caps) s.graph = .ok replies g) :
    (s.respondAll rs).1.map (·.status) = replies.map (·.status) ∧
      (s.respondAll rs).1.map (·.body) = replies.map (some ·.toJson) ∧
        (s.respondAll rs).2 = { s with graph := g } := by
  induction asks generalizing s replies with
  | nil =>
    cases ends
    exact ⟨rfl, rfl, rfl⟩
  | @cons r op rs ops first rest ih =>
    rw [List.mapM_cons] at ends
    obtain ⟨reply, g₁, performs, ends⟩ := Step.bind_eq_ok.mp ends
    obtain ⟨replies', g₂, rest, ends⟩ := Step.bind_eq_ok.mp ends
    cases ends
    have responds := responds_of_ok (same ▸ first) performs
    obtain ⟨statuses, bodies, after⟩ := ih (s := { s with graph := g₁ }) same rest
    simp only [respondAll, List.map_cons, responds.status, responds.body, responds.after]
    exact ⟨by rw [statuses], by rw [bodies], after⟩

/-- The first request that is not accepted is answered by a failure, and leaves a graph behind. -/
def FirstFailure (s : Server digest) (rs : List Request) (failure : Failure) (g : Graph digest) :
    Prop :=
  ∃ done r rest, rs = done ++ r :: rest ∧ (∀ a ∈ (s.respondAll done).1, a.Accepted) ∧
    ¬ ((s.respondAll done).2.respond r).1.Accepted ∧
      (s.respondAll done).2.Responds r failure.status failure.toJson { s with graph := g }

/-- Where there is a first failure, not all requests are accepted. -/
theorem FirstFailure.not_accepted {s : Server digest} {failure : Failure} {g : Graph digest}
    (fails : s.FirstFailure rs failure g) : ¬ ∀ a ∈ (s.respondAll rs).1, a.Accepted := by
  obtain ⟨done, r, rest, rfl, -, last, -⟩ := fails
  intro accepted
  rw [respondAll_append] at accepted
  exact last (accepted _ (by simp [respondAll]))

/-- If the operations end with a failure then so do the requests that ask for them, at the same
place. -/
theorem respondAll_of_error (asks : List.Forall₂ (Request.Asks limit) rs ops) {s : Server digest}
    (same : s.bodyLimit = limit) {failure : Failure} {g : Graph digest}
    (ends : ops.mapM (Operation.perform s.caps) s.graph = .error failure g) :
    s.FirstFailure rs failure g := by
  induction asks generalizing s with
  | nil => cases ends
  | @cons r op rs ops first rest ih =>
    rw [List.mapM_cons] at ends
    rcases Step.bind_eq_error.mp ends with performs | ⟨reply, g₁, performs, ends⟩
    · have responds := responds_of_error (same ▸ first) performs
      refine ⟨[], r, rs, rfl, by simp [respondAll], fun accepted => ?_, responds⟩
      have fails : 400 ≤ (s.respond r).1.status := responds.status ▸ le_status_of_failure failure
      have accepted : (s.respond r).1.status < 300 := accepted.2
      omega
    rcases Step.bind_eq_error.mp ends with rest | ⟨replies, g₂, rest, ends⟩
    · have responds := responds_of_ok (same ▸ first) performs
      obtain ⟨done, r', rest', split, accepted, fails⟩ := ih (s := { s with graph := g₁ }) same rest
      refine ⟨r :: done, r', rest', by rw [split]; rfl, ?_, ?_⟩
      · simp only [respondAll, List.forall_mem_cons, responds.after]
        refine ⟨?_, accepted⟩
        unfold Response.Accepted
        rw [responds.status]
        exact status_range_of_reply reply
      · rw [respondAll, responds.after]
        exact fails
    · cases ends

/-! ## Scripts -/

/-- A server answers requests for the steps of a script as the script runs. -/
structure Mirrors (s : Server digest) (script : Script) (rs : List Request) : Prop where
  /-- All requests are accepted if and only if the script runs to its end. -/
  accepted : (∃ report g, script.run s.caps s.graph = .ok report g) ↔
    ∀ a ∈ (s.respondAll rs).1, a.Accepted
  /-- The answers behind those to the types are then what the report tells, and the server is left
  with the graph in which the script ends. -/
  told : ∀ report g, script.run s.caps s.graph = .ok report g →
    ((s.respondAll rs).1.drop script.types.length).map (·.body) =
        (report.stored.map Stored.toJson ++ report.answers.map Answer.toJson).map some ∧
      (s.respondAll rs).2.graph = g
  /-- A script that is refused is refused with the first answer that is not accepted, in the same
  graph. -/
  refused : ∀ refusal g, script.run s.caps s.graph = .error refusal g →
    s.FirstFailure rs (.store refusal) g

/-- **The server mirrors scripts**: a script that is run over a graph, and requests for its steps to
a server over the same graph with the same caps, come to the same. -/
theorem mirrors_of_posts (s : Server digest) (script : Script) {types atoms queries : List Request}
    (declares : List.Forall₂ (Request.Posts s.bodyLimit "types" TypeDeclaration.form) types
      script.types)
    (inserts : List.Forall₂ (Request.Posts s.bodyLimit "atoms" Insertion.form) atoms
      script.insertions)
    (inquires : List.Forall₂ (Request.Posts s.bodyLimit "query" Inquiry.form) queries
      script.inquiries) :
    s.Mirrors script (types ++ atoms ++ queries) := by
  -- the requests ask for what the script does, one operation each and in the same order
  have asks : List.Forall₂ (Request.Asks s.bodyLimit) (types ++ atoms ++ queries)
      script.operations := by
    refine List.rel_append (List.rel_append ?_ ?_) ?_
    · exact List.forall₂_map_right_iff.mpr (declares.imp fun _ _ posts => posts.asks_declareType)
    · exact List.forall₂_map_right_iff.mpr (inserts.imp fun _ _ posts => posts.asks_insert)
    · exact List.forall₂_map_right_iff.mpr (inquires.imp fun _ _ posts => posts.asks_inquire)
  have performs := script.perform_operations s.caps s.graph
  cases ran : script.run s.caps s.graph with
  | ok report g =>
    rw [ran] at performs
    obtain ⟨declared, length, ends⟩ := performs
    obtain ⟨statuses, bodies, after⟩ := respondAll_of_ok asks rfl ends
    refine ⟨⟨fun _ a ha => ?_, fun _ => ⟨report, g, ran⟩⟩, ?_, ?_⟩
    · obtain ⟨reply, -, status⟩ := List.mem_map.mp (statuses ▸ List.mem_map_of_mem ha)
      unfold Response.Accepted
      rw [← status]
      exact status_range_of_reply reply
    · intro report' g' ends
      rw [ran] at ends
      cases ends
      refine ⟨?_, by rw [after]⟩
      rw [List.map_drop, bodies, List.map_append, List.drop_left' (by rw [List.length_map, length])]
      simp only [List.map_append, List.map_map]
      rfl
    · intro refusal g' ends
      rw [ran] at ends
      cases ends
  | error refusal g =>
    rw [ran] at performs
    have fails := respondAll_of_error asks rfl performs
    refine ⟨⟨fun ⟨_, _, ends⟩ => ?_, fun accepted => absurd accepted fails.not_accepted⟩, ?_, ?_⟩
    · rw [ran] at ends
      cases ends
    · intro report g' ends
      rw [ran] at ends
      cases ends
    · intro refusal' g' ends
      rw [ran] at ends
      cases ends
      exact fails

/-- A script stores a node and a link that contains it, and then asks for a type that is not
declared. -/
theorem mirrors_of_unknown_type :
    let settings := { Settings.standard with types := [⟨"Place", some "Node"⟩] }
    let g := (Graph.empty : Graph fun _ => 0).run [.declareType "Place" (some "Node")]
    let script : Script :=
      { types := [⟨"City", some "Place"⟩]
        insertions := [⟨.node "City" "a", none⟩, ⟨.link "Link" [.stored ⟨0⟩], none⟩]
        inquiries := [⟨[.node "Town" "a"], [], ⟨none, none⟩⟩] }
    let post path body := Request.mk "POST" path [("content-type", "application/json")] body
    let types := [post "/types" "\x7b\"name\": \"City\", \"parent\": \"Place\"\x7d"]
    let atoms :=
      [post "/atoms" "\x7b\"atom\": \x7b\"type\": \"City\", \"name\": \"a\"\x7d\x7d",
        post "/atoms"
          "\x7b\"atom\": \x7b\"type\": \"Link\", \"outgoing\": [\x7b\"handle\": 0\x7d]\x7d\x7d"]
    let queries :=
      [post "/query" "\x7b\"clauses\": [\x7b\"type\": \"Town\", \"name\": \"a\"\x7d]\x7d"]
    let s := ofSettings settings g
    settings.build = .ok g ∧ s.Mirrors script (types ++ atoms ++ queries) ∧
      (s.respondAll (types ++ atoms ++ queries)).1.map (·.status) = [200, 201, 201, 400] := by
  intro settings g script post types atoms queries s
  have built : settings.build = .ok g := rfl
  refine ⟨built, mirrors_of_posts s script (.cons ?_ .nil) (.cons ?_ (.cons ?_ .nil))
    (.cons ?_ .nil), by decide +kernel⟩
  all_goals
    refine ⟨rfl, by decide +kernel, by decide +kernel, by decide +kernel, ?_⟩
    simp only [post, Reader.ofText, Scanned.ofText, String.reduceToList, List.length_cons,
      List.length_nil, zero_add, Nat.reduceAdd, Nat.reduceMul]
    rfl

end Server

end Http

end TypedHypergraph
