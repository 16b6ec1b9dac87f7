/-
# Exchanges with the server

The server answers any requests one after the other, and its graph is reachable all the time.  What
is known of single operations is therefore known of every answer, whatever was asked before:

* `Server.Answered` : what can become of a request, with the three facts that follow from it,
  `Answered.eq_of_failed`, `Answered.eq_of_reads` and `Answered.status_lt`;
* `Server.responds_change`, `Server.responds_truth` : the truth value in the answer to a change, and
  in the answer to a question;
* `Server.allOrNothing_of_build` : all of this after any requests to a server over a new graph.
-/
import TypedHypergraph.Http.Server
import TypedHypergraph.Proofs.Serving

namespace TypedHypergraph

variable {digest : Content → UInt64}

/-! ## Built graphs -/

namespace Settings

/-- Declaring types keeps a graph reachable. -/
theorem reachable_of_declareAll {g g' : Graph digest} (hg : g.Reachable)
    {ds : List TypeDeclaration} (built : declareAll ds g = .ok g') : g'.Reachable := by
  induction ds generalizing g with
  | nil =>
    cases built
    exact hg
  | cons d ds ih =>
    unfold declareAll at built
    have reachable := hg.run [.declareType d.name d.parent]
    change (Graph.after (Graph.declareType d.name d.parent) g).Reachable at reachable
    unfold Graph.after at reachable
    cases hd : Graph.declareType d.name d.parent g with
    | ok type g₁ =>
      rw [hd] at built reachable
      exact ih reachable built
    | error refusal g₁ =>
      rw [hd] at built
      cases built

/-- The graph that is built from settings is reachable. -/
theorem reachable_of_build {s : Settings} {g : Graph digest} (built : s.build = .ok g) :
    g.Reachable :=
  reachable_of_declareAll ⟨[], rfl⟩ built

end Settings

namespace Http

/-! ## Routes -/

namespace Request

/-- The segments of the path of a request. -/
def segments (r : Request) : List String := (Target.ofText r.target).segments

/-- The requests that only read. -/
def Reads (r : Request) : Prop :=
  r.method = "GET" ∨ r.method = "HEAD" ∨ (r.method = "POST" ∧ r.segments = ["query"])

/-- A request asks for an operation and for the whole answer to it. -/
structure Asks (limit : Nat) (r : Request) (op : Operation) : Prop where
  operation : r.operation limit = .ok op
  notOptions : r.method ≠ "OPTIONS"
  notHead : r.method ≠ "HEAD"

variable {r : Request} {limit : Nat} {op : Operation}

/-- What is got, or only its head, is not changed by that. -/
theorem action?_of_get (get : (if r.method = "HEAD" then "GET" else r.method) = "GET")
    (asks : r.operation limit = .ok op) : op.action? = none := by
  simp only [operation, get] at asks
  split at asks
  case h_1 | h_2 | h_3 =>
    cases asks
    rfl
  case h_4 =>
    obtain ⟨name, -, asks⟩ := Guards.bind_eq_ok.mp asks
    obtain ⟨flag, -, asks⟩ := Guards.bind_eq_ok.mp asks
    cases asks
    rfl
  case h_6 =>
    split at asks
    · cases asks
    · obtain ⟨h, -, rfl⟩ := Guards.map_eq_ok.mp asks
      rfl
  case h_7 | h_8 =>
    obtain ⟨h, -, rfl⟩ := Guards.map_eq_ok.mp asks
    rfl
  all_goals cases asks

/-- A query asks for no action on the graph. -/
theorem action?_of_query (post : r.method = "POST") (path : r.segments = ["query"])
    (asks : r.operation limit = .ok op) : op.action? = none := by
  have path : (Target.ofText r.target).segments = ["query"] := path
  simp only [operation, path, post] at asks
  obtain ⟨i, -, rfl⟩ := Guards.map_eq_ok.mp asks
  rfl

/-- A request that only reads asks for an operation that calls no action. -/
theorem action?_of_reads (reads : r.Reads) (asks : r.operation limit = .ok op) :
    op.action? = none := by
  rcases reads with get | head | ⟨post, path⟩
  · exact action?_of_get (by rw [get]; rfl) asks
  · exact action?_of_get (by rw [head]; rfl) asks
  · exact action?_of_query post path asks

/-- What is put to a truth value is a change of the truth value of the atom that the path names. -/
theorem operation_change {x : String} (put : r.method = "PUT")
    (path : r.segments = ["atoms", x, "truth"]) (asks : r.operation limit = .ok op) :
    ∃ h change, segmentHandle x = .ok h ∧ op = .changeTruth h change := by
  have path : (Target.ofText r.target).segments = ["atoms", x, "truth"] := path
  simp only [operation, path, put] at asks
  obtain ⟨h, named, asks⟩ := Guards.bind_eq_ok.mp asks
  obtain ⟨change, -, asks⟩ := Guards.bind_eq_ok.mp asks
  cases asks
  exact ⟨h, change, named, rfl⟩

/-- Getting a truth value asks for that of the atom that the path names. -/
theorem asks_truth {x : String} {h : Handle} (get : r.method = "GET")
    (path : r.segments = ["atoms", x, "truth"]) (named : segmentHandle x = .ok h) :
    r.Asks limit (.truth h) := by
  have path : (Target.ofText r.target).segments = ["atoms", x, "truth"] := path
  refine ⟨?_, by rw [get]; decide, by rw [get]; decide⟩
  simp only [operation, path, get]
  show (segmentHandle x).map Operation.truth = _
  rw [named]
  rfl

end Request

/-! ## Statuses -/

/-- A rejection has a status between 400 and 499. -/
theorem Rejection.status_range (rejection : Rejection) :
    400 ≤ rejection.status ∧ rejection.status < 500 := by
  cases rejection with
  | body fault => cases fault <;> decide
  | _ => decide

/-- A failure has a status of at least 400. -/
theorem le_status_of_failure (failure : Failure) : 400 ≤ failure.status := by
  cases failure with
  | store refusal =>
    cases refusal <;> simp [Failure.status, Failure.toClass, Failure.statusOfRefusal]
  | _ => simp [Failure.status, Failure.toClass]

/-- A failure for a reason of the graph is the fault of the one who asked. -/
theorem status_lt_of_store (refusal : Refusal) : (Failure.store refusal).status < 500 := by
  cases refusal <;> simp [Failure.status, Failure.toClass, Failure.statusOfRefusal]

/-- A reply has a status between 200 and 299. -/
theorem status_range_of_reply (reply : Reply) : 200 ≤ reply.status ∧ reply.status < 300 := by
  unfold Reply.status
  split <;> decide

/-- Whether a response says that what was asked for is done. -/
def Response.Accepted (a : Response) : Prop := 200 ≤ a.status ∧ a.status < 300

namespace Server

/-! ## Single requests -/

section Requests

variable {s : Server digest} {r : Request} {op : Operation} {g : Graph digest}

/-- A rejected request leaves the server as it is. -/
theorem serve_of_rejected {rejection : Rejection}
    (asks : r.operation s.bodyLimit = .error rejection) :
    s.serve r = (rejection.status, none, s) := by
  simp only [serve, asks]

/-- An operation that succeeds is replied to by the server with the graph it leads to. -/
theorem serve_of_ok {reply : Reply} (asks : r.operation s.bodyLimit = .ok op)
    (ends : op.perform s.caps s.graph = .ok reply g) :
    s.serve r = (reply.status, some reply.toJson, { s with graph := g }) := by
  simp only [serve, asks, ends]

/-- An operation that fails is answered with its failure by the server with the graph it leads to.
-/
theorem serve_of_error {failure : Failure} (asks : r.operation s.bodyLimit = .ok op)
    (ends : op.perform s.caps s.graph = .error failure g) :
    s.serve r = (failure.status, some failure.toJson, { s with graph := g }) := by
  simp only [serve, asks, ends]

/-- A question for what may be sent leaves the server as it is. -/
theorem respond_of_options (options : r.method = "OPTIONS") :
    (s.respond r).1.status = 200 ∧ (s.respond r).2 = s := by
  simp only [respond, options, if_true, and_self]

/-- Any other request is responded to as it is served, where only answers to HEAD have no body. -/
theorem respond_of_other (other : r.method ≠ "OPTIONS") :
    (s.respond r).1.status = (s.serve r).1 ∧
      (r.method ≠ "HEAD" → (s.respond r).1.body = (s.serve r).2.1) ∧
        (s.respond r).2 = (s.serve r).2.2 := by
  unfold respond
  rw [if_neg other]
  generalize s.serve r = served
  obtain ⟨status, body, s'⟩ := served
  exact ⟨rfl, fun head => if_neg head, rfl⟩

/-- What the server says and does: the status and the body of its response, and what it is then. -/
structure Responds (s : Server digest) (r : Request) (status : Nat) (body : Json)
    (s' : Server digest) : Prop where
  status : (s.respond r).1.status = status
  body : (s.respond r).1.body = some body
  after : (s.respond r).2 = s'

/-- What asks for an operation is responded to with the reply if the operation succeeds. -/
theorem responds_of_ok {reply : Reply} (asks : r.Asks s.bodyLimit op)
    (ends : op.perform s.caps s.graph = .ok reply g) :
    s.Responds r reply.status reply.toJson { s with graph := g } := by
  obtain ⟨status, body, after⟩ := respond_of_other (s := s) asks.notOptions
  have served := serve_of_ok asks.operation ends
  exact ⟨by rw [status, served], by rw [body asks.notHead, served], by rw [after, served]⟩

/-- What asks for an operation is responded to with the failure if the operation fails. -/
theorem responds_of_error {failure : Failure} (asks : r.Asks s.bodyLimit op)
    (ends : op.perform s.caps s.graph = .error failure g) :
    s.Responds r failure.status failure.toJson { s with graph := g } := by
  obtain ⟨status, body, after⟩ := respond_of_other (s := s) asks.notOptions
  have served := serve_of_error asks.operation ends
  exact ⟨by rw [status, served], by rw [body asks.notHead, served], by rw [after, served]⟩

/-- What becomes of a request to a server with a reachable graph: it is a question for what may be
sent, it is rejected before it reaches the graph, or the operation that it asks for is done or
refused. -/
inductive Answered (s : Server digest) (r : Request) : Nat → Server digest → Prop
  | preflight : Answered s r 200 s
  | rejected (rejection : Rejection) : Answered s r rejection.status s
  | done (reply : Reply) (g : Graph digest) (reachable : g.Reachable)
    (same : r.Reads → g = s.graph) : Answered s r reply.status { s with graph := g }
  | refused (refusal : Refusal) (g : Graph digest) (reachable : g.Reachable)
    (same : (∀ h, r.operation s.bodyLimit = .ok (.remove h true) →
      s.graph.HandlesLeft) → g = s.graph) :
    Answered s r (Failure.store refusal).status { s with graph := g }

/-- Serving a request is one of the ways to answer it. -/
theorem answered_serve (hs : s.graph.Reachable) (r : Request) :
    Answered s r (s.serve r).1 (s.serve r).2.2 := by
  cases asks : r.operation s.bodyLimit with
  | error rejection =>
    rw [serve_of_rejected asks]
    exact .rejected rejection
  | ok op =>
    have performed := Operation.performed hs op s.caps
    generalize ends : op.perform s.caps s.graph = result at performed
    cases performed with
    | done reply g reachable same =>
      rw [serve_of_ok asks ends]
      exact .done reply g reachable fun reads => same (Request.action?_of_reads reads asks)
    | refused refusal g reachable same =>
      rw [serve_of_error asks ends]
      refine .refused refusal g reachable fun room => same fun h cascade => room h ?_
      rw [asks, cascade]

/-- **Each request** to a server with a reachable graph is answered in one of these ways. -/
theorem answered (hs : s.graph.Reachable) (r : Request) :
    Answered s r (s.respond r).1.status (s.respond r).2 := by
  by_cases options : r.method = "OPTIONS"
  · rw [(respond_of_options options).1, (respond_of_options options).2]
    exact .preflight
  · rw [(respond_of_other options).1, (respond_of_other options).2.2]
    exact answered_serve hs r

namespace Answered

variable {status : Nat} {s' : Server digest}

/-- An answered request leaves a reachable graph. -/
theorem reachable (hs : s.graph.Reachable) (answered : Answered s r status s') :
    s'.graph.Reachable := by
  cases answered with
  | preflight => exact hs
  | rejected _ => exact hs
  | done _ _ reachable _ => exact reachable
  | refused _ _ reachable _ => exact reachable

/-- No answer tells of an internal error. -/
theorem status_lt (answered : Answered s r status s') : status < 500 := by
  cases answered with
  | preflight => decide
  | rejected rejection => exact rejection.status_range.2
  | done reply _ _ _ => exact (status_range_of_reply reply).2.trans (by decide)
  | refused refusal _ _ _ => exact status_lt_of_store refusal

/-- What is not accepted changes nothing; only a cascade needs handles to be left. -/
theorem eq_of_failed (answered : Answered s r status s') (failed : 400 ≤ status)
    (room : ∀ h, r.operation s.bodyLimit = .ok (.remove h true) →
      s.graph.HandlesLeft) : s' = s := by
  cases answered with
  | preflight => rfl
  | rejected _ => rfl
  | done reply _ _ _ =>
    have accepted := (status_range_of_reply reply).2
    omega
  | refused _ _ _ same => rw [same room]

/-- A request that only reads leaves the server as it is. -/
theorem eq_of_reads (answered : Answered s r status s') (reads : r.Reads) : s' = s := by
  cases answered with
  | preflight => rfl
  | rejected _ => rfl
  | done _ _ _ same => rw [same reads]
  | refused _ _ _ same =>
    -- a cascade is not among what only reads
    rw [same fun h cascade => nomatch Request.action?_of_reads reads cascade]

end Answered

end Requests

/-! ## Many requests -/

/-- Answer requests one after the other. -/
def respondAll (s : Server digest) : List Request → List Response × Server digest
  | [] => ([], s)
  | r :: rs =>
    let rest := (s.respond r).2.respondAll rs
    ((s.respond r).1 :: rest.1, rest.2)

/-- The responses to two lists of requests are those to the first and then those to the second. -/
theorem respondAll_append (s : Server digest) (rs rs' : List Request) :
    s.respondAll (rs ++ rs') =
      ((s.respondAll rs).1 ++ ((s.respondAll rs).2.respondAll rs').1,
        ((s.respondAll rs).2.respondAll rs').2) := by
  induction rs generalizing s with
  | nil => rfl
  | cons r rs ih => simp only [List.cons_append, respondAll, ih]

/-- Whatever is asked, the graph stays reachable. -/
theorem reachable_respondAll {s : Server digest} (hs : s.graph.Reachable) (rs : List Request) :
    (s.respondAll rs).2.graph.Reachable := by
  induction rs generalizing s with
  | nil => exact hs
  | cons r rs ih => exact ih ((answered hs r).reachable hs)

/-- Requests that only read leave the server as it is. -/
theorem respondAll_of_reads {s : Server digest} (hs : s.graph.Reachable) {rs : List Request}
    (reads : ∀ r ∈ rs, r.Reads) : (s.respondAll rs).2 = s := by
  induction rs with
  | nil => rfl
  | cons r rs ih =>
    have same : (s.respond r).2 = s := (answered hs r).eq_of_reads (reads r (by simp))
    rw [respondAll, same]
    exact ih fun q hq => reads q (by simp [hq])

/-! ## Truth values that are read back -/

/-- The response to a request for a truth value. -/
theorem responds_truth {s : Server digest} {r : Request} {x : String} {h : Handle}
    {value : Option Truth} (get : r.method = "GET") (path : r.segments = ["atoms", x, "truth"])
    (named : segmentHandle x = .ok h) (stored : s.graph.truth h = .ok value) :
    s.Responds r 200 (Reply.truth h value).toJson s := by
  have ends : (Operation.truth h).perform s.caps s.graph = .ok (.truth h value) s.graph := by
    refine (Serving.view_map (Graph.truth · h) (.truth h) s.graph).trans ?_
    rw [stored]
  exact responds_of_ok (Request.asks_truth get path named) ends

/-- The response to a change of a truth value that is accepted. -/
theorem responds_change {s : Server digest} {r : Request} {x : String} (put : r.method = "PUT")
    (path : r.segments = ["atoms", x, "truth"]) (accepted : (s.respond r).1.Accepted) :
    ∃ h value, segmentHandle x = .ok h ∧
      (s.respond r).1.body = some (Reply.truth h value).toJson ∧
        (s.respond r).2.graph.truth h = .ok value := by
  have notOptions : r.method ≠ "OPTIONS" := by
    rw [put]
    decide
  have notHead : r.method ≠ "HEAD" := by
    rw [put]
    decide
  have accepted := accepted.2
  cases asks : r.operation s.bodyLimit with
  | error rejection =>
    rw [(respond_of_other notOptions).1, serve_of_rejected asks] at accepted
    have rejected := rejection.status_range.1
    omega
  | ok op =>
    obtain ⟨h, change, named, rfl⟩ := Request.operation_change put path asks
    have asks : r.Asks s.bodyLimit (.changeTruth h change) := ⟨asks, notOptions, notHead⟩
    have ends := Serving.update_map (change.run h) (.truth h) s.graph
    cases changes : change.run h s.graph with
    | ok value g =>
      rw [changes] at ends
      have responds := responds_of_ok asks ends
      refine ⟨h, value, named, responds.body, ?_⟩
      rw [responds.after]
      exact Graph.truth_of_change changes
    | error refusal g =>
      rw [changes] at ends
      rw [(responds_of_error asks ends).status] at accepted
      have refused := le_status_of_failure (.store refusal)
      omega

/-! ## Whatever was asked before -/

/-- A server answers a request as a whole or not at all. -/
structure AllOrNothing (s : Server digest) (r : Request) : Prop where
  /-- A request that is not accepted leaves the server as it is; only a cascade asks for
  `Graph.HandlesLeft`. -/
  failed : 400 ≤ (s.respond r).1.status →
    (∀ h, r.operation s.bodyLimit = .ok (.remove h true) →
      s.graph.HandlesLeft) → (s.respond r).2 = s
  /-- A request that only reads leaves the server as it is. -/
  reads : r.Reads → (s.respond r).2 = s
  /-- No answer tells of an internal error. -/
  notInternal : (s.respond r).1.status < 500
  /-- The type of a stored atom is declared. -/
  described : ∀ h, (∃ view, s.graph.describe h = .ok view) ∨
    s.graph.describe h = .error (.store (.notFound h))
  /-- The truth value that is answered to a change is the one that is read afterwards. -/
  told : ∀ x, r.method = "PUT" → r.segments = ["atoms", x, "truth"] → (s.respond r).1.Accepted →
    ∃ h value, segmentHandle x = .ok h ∧
      (s.respond r).1.body = some (Reply.truth h value).toJson ∧
        ∀ between : List Request, (∀ q ∈ between, q.Reads) →
          ∀ y q, q.method = "GET" → q.segments = ["atoms", y, "truth"] → segmentHandle y = .ok h →
            let answer := (((s.respond r).2.respondAll between).2.respond q).1
            answer.status = 200 ∧ answer.body = (s.respond r).1.body

/-- **The server is dependable**: whatever was asked of it before, every request is answered as a
whole or not at all.  Nothing is said of a failed cascade once the last handle is given out: the
atoms that come then share this handle, the indices no longer tell them apart, and the removals of
the cascade can stop halfway. -/
theorem allOrNothing_of_build {settings : Settings} {g : Graph digest}
    (built : settings.build = .ok g) (before : List Request) (r : Request) :
    ((ofSettings settings g).respondAll before).2.AllOrNothing r := by
  have start : (ofSettings settings g).graph.Reachable := Settings.reachable_of_build built
  have hs := reachable_respondAll start before
  generalize ((ofSettings settings g).respondAll before).2 = s at hs
  refine ⟨(answered hs r).eq_of_failed, (answered hs r).eq_of_reads, (answered hs r).status_lt,
    hs.describe_eq, fun x put path accepted => ?_⟩
  obtain ⟨h, value, named, body, stored⟩ := responds_change put path accepted
  refine ⟨h, value, named, body, fun between reading y q get path' named' => ?_⟩
  rw [respondAll_of_reads ((answered hs r).reachable hs) reading, body]
  have responds := responds_truth get path' named' stored
  exact ⟨responds.status, responds.body⟩

/-- A node that stands in a link is not removed, and its truth value is read as it was written. -/
theorem allOrNothing_of_member :
    let settings := { Settings.standard with types := [⟨"Person", some "Node"⟩] }
    let g := (Graph.empty : Graph fun _ => 0).run [.declareType "Person" (some "Node")]
    let json := [("content-type", "application/json")]
    let node := Request.mk "POST" "/atoms" json
      "\x7b\"atom\": \x7b\"type\": \"Person\", \"name\": \"a\"\x7d\x7d"
    let link := Request.mk "POST" "/atoms" json
      "\x7b\"atom\": \x7b\"type\": \"Link\", \"outgoing\": [\x7b\"handle\": 0\x7d]\x7d\x7d"
    let removal := Request.mk "DELETE" "/atoms/0" [] ""
    let change := Request.mk "PUT" "/atoms/0/truth" json
      "\x7b\"truth\": \x7b\"strength\": 1, \"confidence\": 0.5\x7d\x7d"
    let question := Request.mk "GET" "/atoms/%30/truth" [] ""
    let s := ((ofSettings settings g).respondAll [node, link]).2
    settings.build = .ok g ∧ (s.respond removal).1.status = 409 ∧ (s.respond removal).2 = s ∧
      (s.respond change).1.status = 200 ∧
        ((s.respond change).2.respond question).1.body = (s.respond change).1.body := by
  intro settings g json node link removal change question s
  have built : settings.build = .ok g := rfl
  have ⟨conflict, accepted, room⟩ : (s.respond removal).1.status = 409 ∧
      (s.respond change).1.status = 200 ∧ s.graph.HandlesLeft := by
    decide +kernel
  have removed : s.AllOrNothing removal := allOrNothing_of_build built [node, link] removal
  have changed : s.AllOrNothing change := allOrNothing_of_build built [node, link] change
  have unchanged : (s.respond removal).2 = s :=
    removed.failed (by rw [conflict]; decide) fun _ _ => room
  have done : (s.respond change).1.Accepted := by
    unfold Response.Accepted
    rw [accepted]
    decide
  have same : segmentHandle "%30" = segmentHandle "0" := by decide +kernel
  have path : change.segments = ["atoms", "0", "truth"] := by decide +kernel
  have path' : question.segments = ["atoms", "%30", "truth"] := by decide +kernel
  have put : change.method = "PUT" := rfl
  have get : question.method = "GET" := rfl
  clear_value s change question
  obtain ⟨h, value, named, -, read⟩ := changed.told "0" put path done
  have answer := (read [] (by simp) "%30" question get path' (same.trans named)).2
  exact ⟨built, conflict, unchanged, accepted, answer⟩

end Server

end Http

end TypedHypergraph
