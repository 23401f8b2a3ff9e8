import DnsResponder.Proofs.Responder.Handling
import DnsResponder.Proofs.Service.Waiting
import DnsResponder.Service

/-!
# Steps and runs of the service

A run is a row of moments, and nothing is assumed about their order: any client may send
anything at any time, so may the resolver, and so may strangers on the resolver's socket.
The network is part of the moment, since what it takes now it may refuse later.

`Step.course` lists the ways in which a step can go. Each way says what was found, what
was sent and what waits afterwards, so no later proof has to take a step apart again: an
invariant needs one case for each way, and a run needs one induction.
-/

namespace DnsResponder

/-- What the service is given for a step: the network as it is now, the time, and what happens. -/
structure Moment where
  net : Network
  now : Nat
  arrival : Arrival

namespace Service

/-- A step that the service took, with the state in which it took it. -/
structure Step extends Moment where
  before : Service

namespace Step

/-- What the step came to. -/
def turn (x : Step) : Turn Service (List Departure) := x.before.step x.net x.now x.arrival

/-- The state that the step left behind. -/
def after (x : Step) : Service := x.turn.state

/-- What was sent. -/
def sent (x : Step) : List Departure := x.turn.answer

end Step

/-! ## Runs -/

/-- A service to which nothing has happened yet. -/
def fresh (responder : Responder) (resolver : Endpoint) (timeout capacity : Nat) : Service :=
  { responder, resolver, pending := { timeout, capacity } }

/-- The step that a service takes at a moment. -/
def stepAt (s : Service) (m : Moment) : Step := { m with before := s }

/-- The steps of a run. -/
def steps (s : Service) : List Moment → List Step
  | [] => []
  | m :: rest => s.stepAt m :: steps (s.stepAt m).after rest

/-- The state that a run ends in. -/
def after (s : Service) : List Moment → Service
  | [] => s
  | m :: rest => after (s.stepAt m).after rest

/-- On a network that never changes, a run sends and leaves behind what its steps do. -/
theorem run_eq (net : Network) (s : Service) (row : List (Nat × Arrival)) :
    s.run net row =
      let moments := row.map fun a => (⟨net, a.1, a.2⟩ : Moment)
      ((s.steps moments).map Step.sent, s.after moments) := by
  induction row generalizing s with
  | nil => rfl
  | cons a row ih =>
      unfold run
      dsimp only
      rw [ih]
      rfl

/-- A query goes out, the reply comes back to the client, and the same reply once more goes nowhere. -/
example :
    let client : Endpoint := .v4 ⟨127, 0, 0, 1⟩ 1001
    let resolver : Endpoint := .v4 ⟨192, 0, 2, 53⟩ 53
    let query : Bytes := #[0, 7, 1, 0, 0, 1, 0, 0, 0, 0, 0, 0, 1, 97, 0, 0, 1, 0, 1]
    let reply : Bytes := #[0, 7, 129, 128, 0, 0, 0, 0, 0, 0, 0, 0]
    ((fresh { rules := {} } resolver 5000 16).run .connected
      [(0, .query client query), (9, .reply resolver reply), (12, .reply resolver reply)]).1 =
      [[.toResolver query], [.toClient client reply], []] := by
  decide +kernel

theorem steps_append (s : Service) (run more : List Moment) :
    s.steps (run ++ more) = s.steps run ++ (s.after run).steps more := by
  induction run generalizing s with
  | nil => rfl
  | cons m run ih =>
      rw [List.cons_append, steps, steps, ih]
      rfl

theorem after_append (s : Service) (run more : List Moment) :
    s.after (run ++ more) = (s.after run).after more := by
  induction run generalizing s with
  | nil => rfl
  | cons m run ih => exact ih _

theorem steps_concat (s : Service) (run : List Moment) (m : Moment) :
    s.steps (run ++ [m]) = s.steps run ++ [(s.after run).stepAt m] := steps_append s run [m]

theorem after_concat (s : Service) (run : List Moment) (m : Moment) :
    s.after (run ++ [m]) = ((s.after run).stepAt m).after := after_append s run [m]

/-- A step in the middle of a run was taken where the moments before it led. -/
theorem exists_run_of_steps_eq {s : Service} {run : List Moment} {past rest : List Step} {x : Step}
    (h : s.steps run = past ++ x :: rest) :
    ∃ earlier, past = s.steps earlier ∧ x.before = s.after earlier := by
  induction past generalizing s run with
  | nil =>
      cases run with
      | nil => cases h
      | cons m run =>
          injection h with hx _
          subst hx
          exact ⟨[], rfl, rfl⟩
  | cons y past ih =>
      cases run with
      | nil => cases h
      | cons m run =>
          injection h with hy hrest
          subst hy
          obtain ⟨earlier, rfl, hbefore⟩ := ih hrest
          exact ⟨m :: earlier, rfl, hbefore⟩

/-! ## What a step is about -/

namespace Step

/-- The request that the step makes of a client's datagram. -/
def request? (x : Step) : Option Request :=
  match x.arrival with
  | .query client datagram => x.before.responder.handedOn? (received datagram) client
  | _ => none

/-- The id in a datagram that came from the resolver. -/
def reply? (x : Step) : Option UInt16 :=
  match x.arrival with
  | .reply source datagram =>
      if source = x.before.resolver then replyId? (received datagram) else none
  | _ => none

/-- The id that the step is about: of a query for the resolver, or of a reply from it. -/
def subject? (x : Step) : Option UInt16 := (x.request?.map Request.id).or x.reply?

/-- The request that was sent to the resolver. -/
def forwarded? (x : Step) : Option Request :=
  x.request?.filter fun request => .toResolver request.datagram ∈ x.sent

/--
The query whose reply is passed on to its client.

A reply is passed on if a query waits for it that has not expired. The table is then done with
the query, whatever the network does. A reply is relayed if the network also takes it, and only
then does the client get it. So what is relayed is passed on, and what is passed on is relayed
unless the network refuses it; `relayed?_eq` says this in one line.
-/
def passedOn? (x : Step) : Option Waiting :=
  (x.reply?.bind x.before.pending.find?).filter fun w => ¬x.before.pending.Expired x.now w

/-- The client that a reply from the resolver was sent to. -/
def relayed? (x : Step) : Option Endpoint :=
  match x.reply?, x.sent with
  | some _, .toClient client _ :: _ => some client
  | _, _ => none

/-- What a client is sent, unless the network refuses it. -/
def answers (x : Step) (client : Endpoint) (answer : Option Bytes) : List Departure :=
  (answer.toList.filter fun _ => (x.net.send client).isOk).map (.toClient client)

/-- What the client of a request is sent that cannot be handed on. -/
def failure (x : Step) (request : Request) : List Departure :=
  x.answers request.client (encode true (request.message.errorReply .servFail)).toOption

variable {x : Step} {request : Request} {client : Endpoint}

theorem of_request? (h : x.request? = some request) :
    ∃ datagram, x.arrival = .query request.client datagram ∧
      x.before.responder.handedOn? (received datagram) request.client = some request := by
  unfold request? at h
  split at h
  · rename_i client datagram harrival
    obtain ⟨-, rfl, -⟩ := Responder.of_handedOn h
    exact ⟨datagram, harrival, h⟩
  · cases h

theorem reply?_of_request? (h : x.request? = some request) : x.reply? = none := by
  obtain ⟨datagram, harrival, -⟩ := of_request? h
  unfold reply?
  rw [harrival]

theorem of_reply? {id : UInt16} (h : x.reply? = some id) :
    ∃ datagram, x.arrival = .reply x.before.resolver datagram ∧
      replyId? (received datagram) = some id := by
  unfold reply? at h
  split at h
  · rename_i source datagram harrival
    split at h
    · rename_i hsource
      subst hsource
      exact ⟨datagram, harrival, h⟩
    · cases h
  · cases h

theorem request?_of_reply? {id : UInt16} (h : x.reply? = some id) : x.request? = none := by
  obtain ⟨datagram, harrival, -⟩ := of_reply? h
  unfold request?
  rw [harrival]

theorem subject?_of_request? (h : x.request? = some request) : x.subject? = some request.id := by
  unfold subject?
  rw [h]
  rfl

theorem subject?_of_reply? {id : UInt16} (h : x.reply? = some id) : x.subject? = some id := by
  unfold subject?
  rw [request?_of_reply? h, h]
  rfl

theorem subject?_eq_none_iff : x.subject? = none ↔ x.request? = none ∧ x.reply? = none := by
  unfold subject?
  rw [Option.or_eq_none_iff, Option.map_eq_none_iff]

theorem request?_of_forwarded? (h : x.forwarded? = some request) : x.request? = some request :=
  (Option.filter_eq_some_iff.mp h).1

theorem forwarded?_of_request?_eq_none (h : x.request? = none) : x.forwarded? = none := by
  unfold forwarded?
  rw [h]
  rfl

theorem subject?_of_forwarded? (h : x.forwarded? = some request) : x.subject? = some request.id :=
  subject?_of_request? (request?_of_forwarded? h)

theorem forwarded?_of_mem (h : x.request? = some request) (hsent : .toResolver request.datagram ∈ x.sent) :
    x.forwarded? = some request := by
  unfold forwarded?
  rw [h]
  exact Option.filter_some_pos (decide_eq_true hsent)

theorem forwarded?_of_not_mem (h : x.request? = some request)
    (hsent : .toResolver request.datagram ∉ x.sent) : x.forwarded? = none := by
  unfold forwarded?
  rw [h]
  exact Option.filter_some_neg (by simpa using hsent)

theorem toResolver_not_mem_answers {answer : Option Bytes} (datagram : Bytes) :
    .toResolver datagram ∉ x.answers client answer := by
  unfold answers
  intro h
  obtain ⟨_, -, h⟩ := List.mem_map.mp h
  cases h

theorem answers_some (x : Step) (client : Endpoint) (datagram : Bytes) :
    x.answers client (some datagram) =
      if (x.net.send client).isOk then [.toClient client datagram] else [] := by
  unfold answers
  cases x.net.send client with
  | ok _ => rfl
  | error e => rfl

/-! ## The ways in which a step can go -/

/-- The ways in which a step can go. -/
inductive Course (x : Step) : Prop where
  /-- A datagram of a client is dropped or answered here. -/
  | kept {client : Endpoint} {datagram : Bytes} {answer : Option Bytes}
      (harrival : x.arrival = .query client datagram) (hsubject : x.subject? = none)
      (hsent : x.sent = x.answers client answer) (hafter : x.after = x.before)
  /-- The table is full. -/
  | refused {request : Request} (hrequest : x.request? = some request)
      (hfull : ¬x.before.pending.Admits request.id)
      (hsent : x.sent = x.failure request) (hafter : x.after = x.before)
  /-- The query goes to the resolver. -/
  | forwarded {request : Request} (hrequest : x.request? = some request)
      (hroom : x.before.pending.Admits request.id)
      (hnet : x.net.send x.before.resolver = .ok ())
      (hsent : x.sent = [.toResolver request.datagram])
      (hafter : x.after = { x.before with
        pending := x.before.pending.insert ⟨request.id, request.client, x.now⟩ })
  /-- The network refuses the query. -/
  | failed {request : Request} {e : HostError} (hrequest : x.request? = some request)
      (hroom : x.before.pending.Admits request.id)
      (hnet : x.net.send x.before.resolver = .error e)
      (hsent : x.sent = x.failure request)
      (hafter : x.after = { x.before with
        pending := (x.before.pending.insert ⟨request.id, request.client, x.now⟩).erase request.id })
  /-- A datagram on the resolver's socket is a stranger's, or too short. -/
  | stray {source : Endpoint} {datagram : Bytes} (harrival : x.arrival = .reply source datagram)
      (hsubject : x.subject? = none) (hsent : x.sent = []) (hafter : x.after = x.before)
  /-- No query waits for the reply. -/
  | unawaited {id : UInt16} (hreply : x.reply? = some id)
      (hfind : x.before.pending.find? id = none) (hsent : x.sent = []) (hafter : x.after = x.before)
  /-- The query that waited for the reply has expired. -/
  | late {id : UInt16} {w : Waiting} (hreply : x.reply? = some id)
      (hfind : x.before.pending.find? id = some w) (hlate : x.before.pending.Expired x.now w)
      (hsent : x.sent = [])
      (hafter : x.after = { x.before with pending := x.before.pending.erase id })
  /-- The reply is passed on to the client that waits for it. -/
  | passedOn {source : Endpoint} {datagram : Bytes} {id : UInt16} {w : Waiting}
      (harrival : x.arrival = .reply source datagram) (hreply : x.reply? = some id)
      (hfind : x.before.pending.find? id = some w) (hlate : ¬x.before.pending.Expired x.now w)
      (hsent : x.sent = x.answers w.client (some (received datagram)))
      (hafter : x.after = { x.before with pending := x.before.pending.erase id })
  /-- The sweeper ticks. -/
  | swept (harrival : x.arrival = .tick) (hsubject : x.subject? = none) (hsent : x.sent = [])
      (hafter : x.after = { x.before with pending := (x.before.pending.purge x.now).state })

end Step

end Service

namespace Relay

variable (net : Network) (now : Nat) {request : Request} (relay : Relay)

theorem forward_of_full (hfull : ¬relay.pending.Admits request.id) :
    (∃ e, (forward net now request relay).answer = .error e) ∧
      (forward net now request relay).state = relay := by
  unfold forward
  dsimp only
  rw [Pending.register_of_full hfull now request.client]
  exact ⟨⟨_, rfl⟩, rfl⟩

theorem forward_of_sent (hroom : relay.pending.Admits request.id)
    (hnet : net.send relay.resolver = .ok ()) :
    (forward net now request relay).answer = .ok () ∧
      (forward net now request relay).state = { relay with
        pending := relay.pending.insert ⟨request.id, request.client, now⟩
        sent := relay.sent ++ [request.datagram] } := by
  obtain ⟨hanswer, hstate⟩ := Pending.register_of_room hroom now request.client
  unfold forward
  dsimp only
  rw [if_pos hanswer, hnet, hstate]
  exact ⟨rfl, rfl⟩

/-- A query that the network refuses is not waited for, and neither is what it took the place of. -/
theorem forward_of_not_sent {e : HostError} (hroom : relay.pending.Admits request.id)
    (hnet : net.send relay.resolver = .error e) :
    (∃ e, (forward net now request relay).answer = .error e) ∧
      (forward net now request relay).state = { relay with
        pending := (relay.pending.insert ⟨request.id, request.client, now⟩).erase request.id } := by
  obtain ⟨hanswer, hstate⟩ := Pending.register_of_room hroom now request.client
  unfold forward
  dsimp only
  rw [if_pos hanswer, hnet, hstate]
  exact ⟨⟨_, rfl⟩, rfl⟩

variable {source : Endpoint} {datagram : Bytes} {id : UInt16} {w : Waiting}

theorem receive_of_stray (h : source = relay.resolver → replyId? datagram = none) :
    (receive net now source datagram relay).answer = none ∧
      (receive net now source datagram relay).state = relay := by
  unfold receive
  by_cases hsource : source = relay.resolver
  · rw [if_neg (not_not_intro hsource), h hsource]
    exact ⟨rfl, rfl⟩
  · rw [if_pos hsource]
    exact ⟨rfl, rfl⟩

theorem receive_of_unawaited (hid : replyId? datagram = some id)
    (hfind : relay.pending.find? id = none) :
    (receive net now relay.resolver datagram relay).answer = none ∧
      (receive net now relay.resolver datagram relay).state = relay := by
  unfold receive
  rw [if_neg (not_not_intro rfl), hid]
  dsimp only
  rw [Pending.take_of_find?_eq_none hfind]
  exact ⟨rfl, rfl⟩

theorem receive_of_late (hid : replyId? datagram = some id)
    (hfind : relay.pending.find? id = some w) (hlate : relay.pending.Expired now w) :
    (receive net now relay.resolver datagram relay).answer = none ∧
      (receive net now relay.resolver datagram relay).state =
        { relay with pending := relay.pending.erase id } := by
  unfold receive
  rw [if_neg (not_not_intro rfl), hid]
  dsimp only
  rw [Pending.take_of_expired hfind hlate]
  exact ⟨rfl, rfl⟩

theorem receive_of_awaited (hid : replyId? datagram = some id)
    (hfind : relay.pending.find? id = some w) (hlate : ¬relay.pending.Expired now w) :
    (receive net now relay.resolver datagram relay).answer =
        (some w.client).filter (fun client => (net.send client).isOk) ∧
      (receive net now relay.resolver datagram relay).state =
        { relay with pending := relay.pending.erase id } := by
  unfold receive
  rw [if_neg (not_not_intro rfl), hid]
  dsimp only
  rw [Pending.take_of_not_expired hfind hlate]
  dsimp only
  rw [Option.filter_some]
  -- the query is gone before the network is asked, so it is gone either way
  cases net.send w.client with
  | ok _ => exact ⟨rfl, rfl⟩
  | error e => exact ⟨rfl, rfl⟩

end Relay

namespace Service

namespace Step

variable {x : Step} {request : Request} {client : Endpoint} {datagram : Bytes}

theorem turn_of_query (h : x.arrival = .query client datagram) :
    x.turn = x.before.onQuery x.net x.now client datagram := by
  unfold turn step
  rw [h]

theorem turn_of_reply {source : Endpoint} (h : x.arrival = .reply source datagram) :
    x.turn = x.before.onReply x.net x.now source datagram := by
  unfold turn step
  rw [h]

/-- A step for a datagram that is dropped or answered here. -/
theorem of_kept (h : x.arrival = .query client datagram)
    (hkept : x.before.responder.handedOn? (received datagram) client = none) :
    x.sent = x.answers client (x.before.responder.handle (Relay.forward x.net x.now)
      (received datagram) client x.before.relay).answer ∧ x.after = x.before := by
  -- the table is the state of the forwarder, and the forwarder was not asked
  have hstate := Responder.handle_state_of_kept hkept (Relay.forward x.net x.now) x.before.relay
  unfold sent after
  rw [turn_of_query h]
  unfold onQuery
  dsimp only
  rw [hstate]
  exact ⟨rfl, rfl⟩

theorem course_of_kept (h : x.arrival = .query client datagram)
    (hkept : x.before.responder.handedOn? (received datagram) client = none) : x.Course := by
  obtain ⟨hsent, hafter⟩ := of_kept h hkept
  refine .kept h ?_ hsent hafter
  rw [subject?_eq_none_iff]
  unfold request? reply?
  rw [h]
  exact ⟨hkept, rfl⟩

theorem of_tick (h : x.arrival = .tick) :
    x.sent = [] ∧
      x.after = { x.before with pending := (x.before.pending.purge x.now).state } := by
  have hturn : x.turn = x.before.onTick x.now := by
    unfold turn step
    rw [h]
  exact ⟨congrArg Turn.answer hturn, congrArg Turn.state hturn⟩

/-- A step for a query that is handed on is told by the relay's turn. -/
theorem of_forward (harrival : x.arrival = .query client datagram)
    (hon : x.before.responder.handedOn? (received datagram) client = some request)
    {answer : Except ForwardError Unit} {pending : Pending} {sent : List Bytes}
    (hanswer : (Relay.forward x.net x.now request x.before.relay).answer = answer)
    (hstate : (Relay.forward x.net x.now request x.before.relay).state =
      { x.before.relay with pending, sent }) :
    (x.sent = sent.map .toResolver ++
      match answer with
      | .ok _ => []
      | .error _ => x.failure request) ∧
      x.after = { x.before with pending } := by
  obtain ⟨-, rfl, -⟩ := Responder.of_handedOn hon
  have hstate' := Responder.handle_state_of_handedOn hon (Relay.forward x.net x.now) x.before.relay
  have hanswer' := Responder.handle_answer_of_handedOn hon (Relay.forward x.net x.now) x.before.relay
  rw [hstate] at hstate'
  rw [hanswer] at hanswer'
  unfold Step.sent after
  rw [turn_of_query harrival]
  unfold onQuery
  dsimp only
  rw [hstate', hanswer']
  cases answer with
  | ok _ => exact ⟨rfl, rfl⟩
  | error e => exact ⟨rfl, rfl⟩

theorem course_of_request (harrival : x.arrival = .query client datagram)
    (hon : x.before.responder.handedOn? (received datagram) client = some request) : x.Course := by
  have hrequest : x.request? = some request := by
    unfold request?
    rw [harrival]
    exact hon
  by_cases hroom : x.before.pending.Admits request.id
  · cases hnet : x.net.send x.before.resolver with
    | ok _ =>
        obtain ⟨hanswer, hstate⟩ := Relay.forward_of_sent x.net x.now x.before.relay hroom hnet
        obtain ⟨hsent, hafter⟩ := of_forward harrival hon hanswer hstate
        exact .forwarded hrequest hroom hnet hsent hafter
    | error e =>
        obtain ⟨⟨e', hanswer⟩, hstate⟩ :=
          Relay.forward_of_not_sent x.net x.now x.before.relay hroom hnet
        obtain ⟨hsent, hafter⟩ := of_forward harrival hon hanswer hstate
        exact .failed hrequest hroom hnet hsent hafter
  · obtain ⟨⟨e', hanswer⟩, hstate⟩ := Relay.forward_of_full x.net x.now x.before.relay hroom
    obtain ⟨hsent, hafter⟩ := of_forward harrival hon hanswer hstate
    exact .refused hrequest hroom hsent hafter

theorem of_receive {source : Endpoint} (harrival : x.arrival = .reply source datagram)
    {answer : Option Endpoint} {pending : Pending}
    (h : (x.before.relay.receive x.net x.now source (received datagram)).answer = answer ∧
      (x.before.relay.receive x.net x.now source (received datagram)).state =
        { x.before.relay with pending }) :
    x.sent = answer.toList.map (.toClient · (received datagram)) ∧
      x.after = { x.before with pending } := by
  obtain ⟨hanswer, hstate⟩ := h
  unfold sent after
  rw [turn_of_reply harrival]
  unfold onReply
  dsimp only
  rw [hanswer, hstate]
  exact ⟨rfl, rfl⟩

theorem course_of_reply {source : Endpoint} (harrival : x.arrival = .reply source datagram) :
    x.Course := by
  have hreply : x.reply? = if source = x.before.resolver then replyId? (received datagram) else none := by
    unfold reply?
    rw [harrival]
  cases hid : x.reply? with
  | none =>
      have hstray : source = x.before.relay.resolver → replyId? (received datagram) = none := by
        intro hsource
        have hsource' : source = x.before.resolver := hsource
        rw [← hid, hreply, if_pos hsource']
      obtain ⟨hsent, hafter⟩ := of_receive harrival (Relay.receive_of_stray x.net x.now x.before.relay hstray)
      refine .stray harrival (subject?_eq_none_iff.mpr ⟨?_, hid⟩) hsent hafter
      unfold request?
      rw [harrival]
  | some id =>
      obtain ⟨datagram', harrival', hid'⟩ := of_reply? hid
      rw [harrival] at harrival'
      cases harrival'
      cases hfind : x.before.pending.find? id with
      | none =>
          obtain ⟨hsent, hafter⟩ :=
            of_receive harrival (Relay.receive_of_unawaited x.net x.now x.before.relay hid' hfind)
          exact .unawaited hid hfind hsent hafter
      | some w =>
          by_cases hlate : x.before.pending.Expired x.now w
          · obtain ⟨hsent, hafter⟩ :=
              of_receive harrival (Relay.receive_of_late x.net x.now x.before.relay hid' hfind hlate)
            exact .late hid hfind hlate hsent hafter
          · obtain ⟨hsent, hafter⟩ :=
              of_receive harrival (Relay.receive_of_awaited x.net x.now x.before.relay hid' hfind hlate)
            refine .passedOn harrival hid hfind hlate ?_ hafter
            rw [hsent]
            unfold answers
            rw [Option.filter_some]
            cases x.net.send w.client with
            | ok _ => rfl
            | error e => rfl

/-- There is no other way for a step to go. -/
theorem course (x : Step) : x.Course := by
  cases harrival : x.arrival with
  | query client datagram =>
      cases hon : x.before.responder.handedOn? (received datagram) client with
      | none => exact course_of_kept harrival hon
      | some request => exact course_of_request harrival hon
  | reply source datagram => exact course_of_reply harrival
  | tick =>
      obtain ⟨hsent, hafter⟩ := of_tick harrival
      refine .swept harrival ?_ hsent hafter
      rw [subject?_eq_none_iff]
      unfold request? reply?
      rw [harrival]
      exact ⟨rfl, rfl⟩

/-- A query for the resolver is forwarded, or its client hears that it could not be. -/
theorem cases_of_request (hrequest : x.request? = some request) :
    (x.before.pending.Admits request.id ∧
        x.net.send x.before.resolver = .ok () ∧
        x.forwarded? = some request ∧ x.sent = [.toResolver request.datagram] ∧
        x.after = { x.before with
          pending := x.before.pending.insert ⟨request.id, request.client, x.now⟩ }) ∨
      x.forwarded? = none ∧ x.sent = x.failure request ∧
        (¬x.before.pending.Admits request.id ∧ x.after = x.before ∨
          ∃ e, x.before.pending.Admits request.id ∧ x.net.send x.before.resolver = .error e ∧
            x.after = { x.before with
              pending := (x.before.pending.insert ⟨request.id, request.client, x.now⟩).erase
                request.id }) := by
  have hsubject := subject?_of_request? hrequest
  have hreply := reply?_of_request? hrequest
  have hnot : x.sent = x.failure request → x.forwarded? = none := fun hsent =>
    forwarded?_of_not_mem hrequest (hsent ▸ toResolver_not_mem_answers _)
  cases x.course with
  | kept _ hnone _ _ => rw [hsubject] at hnone; cases hnone
  | refused hrequest' hfull hsent hafter =>
      cases hrequest.symm.trans hrequest'
      exact .inr ⟨hnot hsent, hsent, .inl ⟨hfull, hafter⟩⟩
  | forwarded hrequest' hroom hnet hsent hafter =>
      cases hrequest.symm.trans hrequest'
      have hmem : .toResolver request.datagram ∈ x.sent := hsent ▸ List.mem_singleton_self _
      exact .inl ⟨hroom, hnet, forwarded?_of_mem hrequest hmem, hsent, hafter⟩
  | failed hrequest' hroom hnet hsent hafter =>
      cases hrequest.symm.trans hrequest'
      exact .inr ⟨hnot hsent, hsent, .inr ⟨_, hroom, hnet, hafter⟩⟩
  | stray _ hnone _ _ => rw [hsubject] at hnone; cases hnone
  | unawaited hreply' _ _ _ => rw [hreply] at hreply'; cases hreply'
  | late hreply' _ _ _ _ => rw [hreply] at hreply'; cases hreply'
  | passedOn _ hreply' _ _ _ _ => rw [hreply] at hreply'; cases hreply'
  | swept _ hnone _ _ => rw [hsubject] at hnone; cases hnone

/--
A datagram on the resolver's socket meets a query that waits for it, or it is as good as
none. The query waits no more, and its client gets the datagram unless the query is late.
-/
theorem cases_of_reply {source : Endpoint} (harrival : x.arrival = .reply source datagram) :
    ((∀ id, x.reply? = some id → x.before.pending.find? id = none) ∧
        x.sent = [] ∧ x.after = x.before) ∨
      ∃ id w, x.reply? = some id ∧ x.before.pending.find? id = some w ∧
        x.after = { x.before with pending := x.before.pending.erase id } ∧
        (x.before.pending.Expired x.now w ∧ x.sent = [] ∨
          ¬x.before.pending.Expired x.now w ∧
            x.sent = x.answers w.client (some (received datagram))) := by
  have hrequest : x.request? = none := by
    unfold request?
    rw [harrival]
  cases x.course with
  | kept harrival' _ _ _ => rw [harrival] at harrival'; cases harrival'
  | refused hrequest' _ _ _ => rw [hrequest] at hrequest'; cases hrequest'
  | forwarded hrequest' _ _ _ _ => rw [hrequest] at hrequest'; cases hrequest'
  | failed hrequest' _ _ _ _ => rw [hrequest] at hrequest'; cases hrequest'
  | stray _ hsubject hsent hafter =>
      refine .inl ⟨?_, hsent, hafter⟩
      intro id hreply
      rw [subject?_of_reply? hreply] at hsubject
      cases hsubject
  | unawaited hreply hfind hsent hafter =>
      refine .inl ⟨?_, hsent, hafter⟩
      intro id hreply'
      rw [hreply] at hreply'
      cases hreply'
      exact hfind
  | late hreply hfind hlate hsent hafter =>
      exact .inr ⟨_, _, hreply, hfind, hafter, .inl ⟨hlate, hsent⟩⟩
  | passedOn harrival' hreply hfind hlate hsent hafter =>
      rw [harrival] at harrival'
      cases harrival'
      exact .inr ⟨_, _, hreply, hfind, hafter, .inr ⟨hlate, hsent⟩⟩
  | swept harrival' _ _ _ => rw [harrival] at harrival'; cases harrival'

/-- A step that is about no id sends nothing to the resolver, and at most purges the table. -/
theorem cases_of_idle (h : x.subject? = none) :
    (∃ client answer, x.sent = x.answers client answer) ∧
      (x.after.pending = x.before.pending ∨
        x.after.pending = (x.before.pending.purge x.now).state) := by
  obtain ⟨hrequest, hreply⟩ := subject?_eq_none_iff.mp h
  cases x.course with
  | kept _ _ hsent hafter => exact ⟨⟨_, _, hsent⟩, .inl (congrArg _ hafter)⟩
  | refused hrequest' _ _ _ => rw [hrequest] at hrequest'; cases hrequest'
  | forwarded hrequest' _ _ _ _ => rw [hrequest] at hrequest'; cases hrequest'
  | failed hrequest' _ _ _ _ => rw [hrequest] at hrequest'; cases hrequest'
  | @stray source _ _ _ hsent hafter => exact ⟨⟨source, none, hsent⟩, .inl (congrArg _ hafter)⟩
  | unawaited hreply' _ _ _ => rw [hreply] at hreply'; cases hreply'
  | late hreply' _ _ _ _ => rw [hreply] at hreply'; cases hreply'
  | passedOn _ hreply' _ _ _ _ => rw [hreply] at hreply'; cases hreply'
  | swept _ _ hsent hafter => exact ⟨⟨x.before.resolver, none, hsent⟩, .inr (congrArg _ hafter)⟩

/-- A datagram that comes in on the resolver's socket goes only to a client that waits for it. -/
theorem of_toClient_mem_sent {source : Endpoint} {d : Bytes}
    (harrival : x.arrival = .reply source datagram) (hmem : .toClient client d ∈ x.sent) :
    d = received datagram ∧
      ∃ id w, x.reply? = some id ∧ x.before.pending.find? id = some w ∧ w.client = client := by
  rcases cases_of_reply harrival with ⟨-, hsent, -⟩ | ⟨id, w, hreply, hfind, -, hlate | hwaits⟩
  · rw [hsent] at hmem
    cases hmem
  · rw [hlate.2] at hmem
    cases hmem
  · rw [hwaits.2, answers_some] at hmem
    split at hmem
    · cases List.mem_singleton.mp hmem
      exact ⟨rfl, id, w, hreply, hfind, rfl⟩
    · cases hmem

/-! ## Replies that are passed on -/

section

variable {id : UInt16} {w : Waiting}

theorem passedOn?_of_reply?_eq_none (h : x.reply? = none) : x.passedOn? = none := by
  unfold passedOn?
  rw [h]
  rfl

theorem passedOn?_of_unawaited (hreply : x.reply? = some id)
    (hfind : x.before.pending.find? id = none) : x.passedOn? = none := by
  unfold passedOn?
  rw [hreply, Option.bind_some, hfind]
  rfl

theorem passedOn?_of_late (hreply : x.reply? = some id)
    (hfind : x.before.pending.find? id = some w) (hlate : x.before.pending.Expired x.now w) :
    x.passedOn? = none := by
  unfold passedOn?
  rw [hreply, Option.bind_some, hfind]
  exact Option.filter_some_neg (by simpa using hlate)

theorem passedOn?_of_awaited (hreply : x.reply? = some id)
    (hfind : x.before.pending.find? id = some w) (hlate : ¬x.before.pending.Expired x.now w) :
    x.passedOn? = some w := by
  unfold passedOn?
  rw [hreply, Option.bind_some, hfind]
  exact Option.filter_some_pos (decide_eq_true hlate)

theorem of_passedOn? (h : x.passedOn? = some w) :
    ∃ id, x.reply? = some id ∧ x.before.pending.find? id = some w ∧
      ¬x.before.pending.Expired x.now w := by
  obtain ⟨hbind, hlate⟩ := Option.filter_eq_some_iff.mp h
  obtain ⟨id, hreply, hfind⟩ := Option.bind_eq_some_iff.mp hbind
  exact ⟨id, hreply, hfind, of_decide_eq_true hlate⟩

end

/-- A reply is relayed if it is passed on and the network takes it. -/
theorem relayed?_eq (x : Step) :
    x.relayed? = (x.passedOn?.map Waiting.client).filter fun client => (x.net.send client).isOk := by
  unfold relayed?
  cases hreply : x.reply? with
  | none =>
      rw [passedOn?_of_reply?_eq_none hreply]
      rfl
  | some id =>
      obtain ⟨datagram, harrival, -⟩ := of_reply? hreply
      rcases cases_of_reply harrival with ⟨hnone, hsent, -⟩ | ⟨id', w, hreply', hfind, -, hsent⟩
      · rw [hsent, passedOn?_of_unawaited hreply (hnone id hreply)]
        rfl
      · cases hreply.symm.trans hreply'
        rcases hsent with ⟨hlate, hsent⟩ | ⟨hlate, hsent⟩
        · rw [hsent, passedOn?_of_late hreply hfind hlate]
          rfl
        · rw [hsent, passedOn?_of_awaited hreply hfind hlate, answers_some, Option.map_some,
            Option.filter_some]
          cases x.net.send w.client with
          | ok _ => rfl
          | error e => rfl

/-! ## What every step keeps -/

/-- Nothing but the table ever changes, and of the table only what waits in it. -/
theorem after_eq (x : Step) : ∃ entries, x.after = { x.before with
    pending := { x.before.pending with entries } } := by
  cases x.course with
  | kept _ _ _ hafter => exact ⟨_, hafter⟩
  | refused _ _ _ hafter => exact ⟨_, hafter⟩
  | forwarded _ _ _ _ hafter => exact ⟨_, hafter⟩
  | failed _ _ _ _ hafter => exact ⟨_, hafter⟩
  | stray _ _ _ hafter => exact ⟨_, hafter⟩
  | unawaited _ _ _ hafter => exact ⟨_, hafter⟩
  | late _ _ _ _ hafter => exact ⟨_, hafter⟩
  | passedOn _ _ _ _ _ hafter => exact ⟨_, hafter⟩
  | swept _ _ _ hafter => exact ⟨_, hafter⟩

/-- The table stays one: the only way into it is a query that there is room for. -/
theorem sound_after (h : x.before.pending.Sound) : x.after.pending.Sound := by
  cases x.course with
  | kept _ _ _ hafter => rw [hafter]; exact h
  | refused _ _ _ hafter => rw [hafter]; exact h
  | forwarded _ hroom _ _ hafter => rw [hafter]; exact h.insert hroom
  | failed _ hroom _ _ hafter => rw [hafter]; exact (h.insert hroom).erase _
  | stray _ _ _ hafter => rw [hafter]; exact h
  | unawaited _ _ _ hafter => rw [hafter]; exact h
  | late _ _ _ _ hafter => rw [hafter]; exact h.erase _
  | passedOn _ _ _ _ _ hafter => rw [hafter]; exact h.erase _
  | swept _ _ _ hafter => rw [hafter]; exact Pending.sound_purge h _

end Step

variable {s : Service}

theorem after_run_eq (s : Service) (run : List Moment) :
    ∃ entries, s.after run = { s with pending := { s.pending with entries } } := by
  induction run generalizing s with
  | nil => exact ⟨_, rfl⟩
  | cons m run ih =>
      obtain ⟨entries, hstep⟩ := (s.stepAt m).after_eq
      obtain ⟨entries', hrun⟩ := ih (s.stepAt m).after
      rw [hstep] at hrun
      exact ⟨entries', (congrArg (after · run) hstep).trans hrun⟩

theorem sound_after_run (h : s.pending.Sound) (run : List Moment) :
    (s.after run).pending.Sound := by
  induction run generalizing s with
  | nil => exact h
  | cons m run ih => exact ih ((s.stepAt m).sound_after h)

theorem exists_run_of_mem_steps {run : List Moment} {x : Step} (h : x ∈ s.steps run) :
    ∃ earlier, x.before = s.after earlier := by
  obtain ⟨past, rest, hsplit⟩ := List.append_of_mem h
  obtain ⟨earlier, -, hbefore⟩ := exists_run_of_steps_eq hsplit
  exact ⟨earlier, hbefore⟩

/-- Every step of a run finds what the run began with, apart from what waits. -/
theorem before_eq_of_mem_steps {run : List Moment} {x : Step} (h : x ∈ s.steps run) :
    ∃ entries, x.before = { s with pending := { s.pending with entries } } := by
  obtain ⟨earlier, hbefore⟩ := exists_run_of_mem_steps h
  obtain ⟨entries, hrun⟩ := after_run_eq s earlier
  exact ⟨entries, hbefore.trans hrun⟩

theorem resolver_of_mem_steps {run : List Moment} {x : Step} (h : x ∈ s.steps run) :
    x.before.resolver = s.resolver := by
  obtain ⟨entries, hbefore⟩ := before_eq_of_mem_steps h
  rw [hbefore]

theorem responder_of_mem_steps {run : List Moment} {x : Step} (h : x ∈ s.steps run) :
    x.before.responder = s.responder := by
  obtain ⟨entries, hbefore⟩ := before_eq_of_mem_steps h
  rw [hbefore]

theorem capacity_of_mem_steps {run : List Moment} {x : Step} (h : x ∈ s.steps run) :
    x.before.pending.capacity = s.pending.capacity := by
  obtain ⟨entries, hbefore⟩ := before_eq_of_mem_steps h
  rw [hbefore]

end Service

end DnsResponder
