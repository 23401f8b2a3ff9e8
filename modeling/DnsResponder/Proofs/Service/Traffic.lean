import DnsResponder.Proofs.Responder.Fates
import DnsResponder.Proofs.Service.Relaying

/-!
# What goes out to the resolver

The resolver gets the datagrams that are `admitted?`, in the order in which they came, and
no others. A datagram is admitted for what it says, by the rules, and for the table's
sake: either its id waits already or there is room. So a table that is full still lets a
query through that takes the place of another.

The books balance. Each query that went out waits, or its reply has been passed on, or
another query has taken its place. Whether the network then takes what is passed on to a
client is another matter, and makes no difference to the table.
-/

namespace DnsResponder

/-- The datagram, if the resolver is to get it. -/
def Departure.toResolver? : Departure → Option Bytes
  | .toResolver datagram => some datagram
  | .toClient _ _ => none

namespace Service

namespace Step

/-- What the resolver gets. -/
def upstream (x : Step) : List Bytes := x.sent.filterMap Departure.toResolver?

/--
What the resolver is to get: the part of a client's datagram that is received, if it
holds a query whose first question no rule is for, and if the table takes the id.
-/
def admitted? (responder : Responder) (capacity : Nat) (x : Step) : Option Bytes :=
  match x.arrival with
  | .query _ datagram =>
      match decode (received datagram) with
      | .error _ => none
      | .ok m =>
          match m.questions.head? with
          | none => none
          | some q =>
              if m.header.qr = false ∧ responder.rules.find? q.name q.type q.class_ = none ∧
                  (x.before.pending.size < capacity ∨
                    (x.before.pending.find? m.header.id).isSome) then
                some (received datagram)
              else none
  | _ => none

/-- The query whose place in the table a forwarded query takes. -/
def replaced? (x : Step) : Option Waiting :=
  x.forwarded?.bind fun request => x.before.pending.find? request.id

variable {x : Step} {request : Request} {client : Endpoint} {datagram : Bytes} {m : Message}
  {q : Question}

/-! ## What the resolver gets in a step -/

theorem upstream_of_answers {answer : Option Bytes} (h : x.sent = x.answers client answer) :
    x.upstream = [] := by
  unfold upstream
  rw [h, List.filterMap_eq_nil_iff]
  intro departure hmem
  cases departure with
  | toClient _ _ => rfl
  | toResolver datagram => exact absurd hmem (toResolver_not_mem_answers datagram)

theorem upstream_of_request?_eq_none (h : x.request? = none) : x.upstream = [] := by
  cases hreply : x.reply? with
  | none =>
      obtain ⟨⟨client, answer, hsent⟩, -⟩ := cases_of_idle (subject?_eq_none_iff.mpr ⟨h, hreply⟩)
      exact upstream_of_answers hsent
  | some id =>
      obtain ⟨datagram, harrival, -⟩ := of_reply? hreply
      rcases cases_of_reply harrival with ⟨-, hsent, -⟩ | ⟨_, w, -, -, -, ⟨-, hsent⟩ | ⟨-, hsent⟩⟩
      · exact congrArg _ hsent
      · exact congrArg _ hsent
      · exact upstream_of_answers hsent

/-- The resolver gets the query that is forwarded, as it was received, and nothing else. -/
theorem upstream_eq (x : Step) : x.upstream = (x.forwarded?.map Request.datagram).toList := by
  cases hrequest : x.request? with
  | none =>
      rw [upstream_of_request?_eq_none hrequest, forwarded?_of_request?_eq_none hrequest]
      rfl
  | some request =>
      rcases cases_of_request hrequest with ⟨-, -, hforwarded, hsent, -⟩ | ⟨hnot, hsent, -⟩
      · rw [hforwarded]
        exact congrArg _ hsent
      · rw [upstream_of_answers hsent, hnot]
        rfl

theorem request?_of_unmatched (harrival : x.arrival = .query client datagram)
    (hd : decode (received datagram) = .ok m) (hq : m.header.qr = false)
    (hfirst : m.questions.head? = some q)
    (hrule : x.before.responder.rules.find? q.name q.type q.class_ = none) :
    x.request? = some ⟨m, received datagram, client⟩ := by
  unfold request?
  rw [harrival]
  exact Responder.handedOn?_eq_some_iff.mpr ⟨m, q, hd, hq, hfirst, hrule, rfl⟩

/-- What is admitted of a request is its datagram, if the table takes the id. -/
theorem admitted?_of_request? (hrequest : x.request? = some request) :
    x.admitted? x.before.responder x.before.pending.capacity =
      if x.before.pending.Admits request.id then some request.datagram else none := by
  obtain ⟨datagram, harrival, hon⟩ := of_request? hrequest
  obtain ⟨m, q, hd, hq, hfirst, hrule, hwhole⟩ := Responder.handedOn?_eq_some_iff.mp hon
  have hid : request.id = m.header.id := congrArg Request.id hwhole
  have hdatagram : request.datagram = received datagram := congrArg Request.datagram hwhole
  rw [hid, hdatagram]
  unfold admitted?
  rw [harrival]
  dsimp only
  rw [hd]
  dsimp only
  rw [hfirst]
  dsimp only
  by_cases hroom : x.before.pending.Admits m.header.id
  · rw [if_pos ⟨hq, hrule, hroom⟩]
    exact (if_pos hroom).symm
  · rw [if_neg fun h => hroom h.2.2]
    exact (if_neg hroom).symm

theorem admitted?_of_request?_eq_none (hrequest : x.request? = none) :
    x.admitted? x.before.responder x.before.pending.capacity = none := by
  unfold admitted?
  cases harrival : x.arrival with
  | reply source datagram => rfl
  | tick => rfl
  | query client datagram =>
      dsimp only
      cases hd : decode (received datagram) with
      | error e => rfl
      | ok m =>
          dsimp only
          cases hfirst : m.questions.head? with
          | none => rfl
          | some q =>
              refine if_neg ?_
              rintro ⟨hq, hrule, -⟩
              rw [request?_of_unmatched harrival hd hq hfirst hrule] at hrequest
              cases hrequest

/-- On a network that takes all that goes to the resolver, the resolver gets what is admitted. -/
theorem upstream_eq_admitted? (hnet : x.net.send x.before.resolver = .ok ()) :
    x.upstream = (x.admitted? x.before.responder x.before.pending.capacity).toList := by
  cases hrequest : x.request? with
  | none =>
      rw [upstream_of_request?_eq_none hrequest, admitted?_of_request?_eq_none hrequest]
      rfl
  | some request =>
      rw [upstream_eq, admitted?_of_request? hrequest]
      rcases cases_of_request hrequest with ⟨hroom, -, hforwarded, -⟩ |
        ⟨hnot, -, ⟨hfull, -⟩ | ⟨e, -, hrefused, -⟩⟩
      · rw [hforwarded, if_pos hroom]
        rfl
      · rw [hnot, if_neg hfull]
        rfl
      · rw [hnet] at hrefused
        cases hrefused

/-! ## The balance of a step -/

/-- What is passed on to a client is the reply, as it was received. -/
theorem sent_of_passedOn? {w : Waiting} (h : x.passedOn? = some w) :
    ∃ source datagram, x.arrival = .reply source datagram ∧
      x.sent = x.answers w.client (some (received datagram)) := by
  obtain ⟨id, hreply, hfind, hlate⟩ := of_passedOn? h
  obtain ⟨datagram, harrival, -⟩ := of_reply? hreply
  exact ⟨_, datagram, harrival, (of_awaited harrival hreply hfind hlate).1⟩

/-- A query that goes out makes the table longer, unless it replaces one. -/
theorem balance_of_request (hu : x.before.pending.Unique)
    (hnet : x.net.send x.before.resolver = .ok ()) (hrequest : x.request? = some request) :
    x.upstream.length + x.before.pending.size =
      x.after.pending.size + if x.replaced?.isSome then 1 else 0 := by
  unfold replaced?
  rw [upstream_eq]
  rcases cases_of_request hrequest with ⟨-, -, hforwarded, -, hafter⟩ |
    ⟨hnot, -, ⟨-, hafter⟩ | ⟨e, -, hrefused, -⟩⟩
  · rw [hforwarded, hafter, Option.bind_some]
    cases hfind : x.before.pending.find? request.id with
    | none =>
        have hsize : (x.before.pending.insert ⟨request.id, request.client, x.now⟩).size =
            x.before.pending.size + 1 := Pending.size_insert_of_find?_eq_none hfind
        simp [hsize, Nat.add_comm]
    | some v =>
        have hsize : (x.before.pending.insert ⟨request.id, request.client, x.now⟩).size =
            x.before.pending.size := hu.size_insert_of_find?_eq_some hfind
        simp [hsize, Nat.add_comm]
  · rw [hnot, hafter]
    simp
  · rw [hnet] at hrefused
    cases hrefused

theorem balance_of_reply (hu : x.before.pending.Unique)
    (hprompt : x.before.pending.Prompt x.now) {id : UInt16} (hreply : x.reply? = some id) :
    x.before.pending.size = x.after.pending.size + if x.passedOn?.isSome then 1 else 0 := by
  obtain ⟨datagram, harrival, -⟩ := of_reply? hreply
  rcases cases_of_reply harrival with ⟨hnone, -, hafter⟩ | ⟨id', w, hreply', hfind, hafter, -⟩
  · rw [hafter, passedOn?_of_unawaited hreply (hnone id hreply)]
    rfl
  · cases hreply.symm.trans hreply'
    have hlate : ¬x.before.pending.Expired x.now w := hprompt w (Pending.of_find? hfind).1
    rw [hafter, passedOn?_of_awaited hreply hfind hlate]
    exact (hu.size_erase hfind).symm

/-- What goes out is added to what waits, and what is passed on or replaced is taken off. -/
theorem balance (hu : x.before.pending.Unique) (hnet : x.net.send x.before.resolver = .ok ())
    (hprompt : x.before.pending.Prompt x.now) :
    x.upstream.length + x.before.pending.size =
      x.after.pending.size + (if x.passedOn?.isSome then 1 else 0) +
        if x.replaced?.isSome then 1 else 0 := by
  cases hrequest : x.request? with
  | some request =>
      rw [balance_of_request hu hnet hrequest,
        passedOn?_of_reply?_eq_none (reply?_of_request? hrequest)]
      rfl
  | none =>
      have hreplaced : x.replaced? = none := by
        unfold replaced?
        rw [forwarded?_of_request?_eq_none hrequest]
        rfl
      rw [upstream_of_request?_eq_none hrequest, hreplaced, List.length_nil, Nat.zero_add]
      cases hreply : x.reply? with
      | some id => exact balance_of_reply hu hprompt hreply
      | none =>
          rw [passedOn?_of_reply?_eq_none hreply]
          rcases (cases_of_idle (subject?_eq_none_iff.mpr ⟨hrequest, hreply⟩)).2 with heq | hpurge
          · rw [heq]
            rfl
          · rw [hpurge, hprompt.purge]
            rfl

/-- A query that the table does not take gets a reply that says so, and nothing else happens. -/
theorem of_not_admits (hrequest : x.request? = some request)
    (hfull : ¬x.before.pending.Admits request.id) :
    x.upstream = [] ∧ x.after = x.before ∧
      ∃ answer, Replies request.message ResponseCode.servFail.code [] answer ∧
        x.sent = x.answers request.client answer := by
  obtain ⟨datagram, -, hon⟩ := of_request? hrequest
  obtain ⟨-, -, hd⟩ := Responder.of_handedOn hon
  rcases cases_of_request hrequest with ⟨hroom, -⟩ | ⟨-, hsent, ⟨-, hafter⟩ | ⟨_, hroom, -⟩⟩
  · exact absurd hroom hfull
  · refine ⟨upstream_of_answers hsent, hafter, _, ?_, hsent⟩
    exact replies_of_honest hd (Nat.zero_le _) (List.forall_mem_nil _) ResponseCode.servFail.code
  · exact absurd hroom hfull

theorem upstream_of_matched (harrival : x.arrival = .query client datagram)
    (hd : decode (received datagram) = .ok m) (hfirst : m.questions.head? = some q)
    (hrule : (x.before.responder.rules.find? q.name q.type q.class_).isSome) :
    x.upstream = [] := by
  refine upstream_of_request?_eq_none ?_
  unfold request?
  rw [harrival]
  dsimp only
  cases hon : x.before.responder.handedOn? (received datagram) client with
  | none => rfl
  | some request =>
      obtain ⟨m', q', hd', -, hfirst', hnone, -⟩ := Responder.handedOn?_eq_some_iff.mp hon
      cases hd.symm.trans hd'
      cases hfirst.symm.trans hfirst'
      rw [hnone] at hrule
      cases hrule

end Step

/-! ## Runs -/

variable {s : Service} {run : List Moment}

theorem flatMap_upstream_eq (hnet : ∀ x ∈ s.steps run, x.net.send s.resolver = .ok ()) :
    (s.steps run).flatMap Step.upstream =
      (s.steps run).filterMap (Step.admitted? s.responder s.pending.capacity) := by
  rw [List.filterMap_eq_flatMap_toList]
  refine List.flatMap_congr ?_
  intro x hx
  have hx' := hnet x hx
  rw [← resolver_of_mem_steps hx] at hx'
  rw [Step.upstream_eq_admitted? hx', responder_of_mem_steps hx, capacity_of_mem_steps hx]

/-- Nothing that went out is forgotten: it waits, or it was passed on or replaced. -/
theorem balance_of_run (hs : s.pending.Sound)
    (hnet : ∀ x ∈ s.steps run, x.net.send s.resolver = .ok ())
    (hprompt : ∀ x ∈ s.steps run, x.before.pending.Prompt x.now) :
    ((s.steps run).flatMap Step.upstream).length + s.pending.size =
      (s.after run).pending.size + (s.steps run).countP (·.passedOn?.isSome) +
        (s.steps run).countP (·.replaced?.isSome) := by
  induction run generalizing s with
  | nil => simp [steps, after]
  | cons m run ih =>
      rw [steps, List.forall_mem_cons] at hnet hprompt
      have hstep : (s.stepAt m).upstream.length + s.pending.size =
          (s.stepAt m).after.pending.size +
            (if (s.stepAt m).passedOn?.isSome then 1 else 0) +
            if (s.stepAt m).replaced?.isSome then 1 else 0 :=
        Step.balance hs.unique hnet.1 hprompt.1
      have hresolver : (s.stepAt m).after.resolver = s.resolver := by
        obtain ⟨entries, hafter⟩ := (s.stepAt m).after_eq
        rw [hafter]
        rfl
      have hrest := ih ((s.stepAt m).sound_after hs) (hresolver ▸ hnet.2) hprompt.2
      rw [steps, List.flatMap_cons, List.length_append, List.countP_cons, List.countP_cons, after]
      omega

/--
The resolver gets what is admitted, in the order in which it came, and never a query that
a rule is for. No id waits twice, and no more queries wait than may. Each query that went
out waits, or its reply was passed on, or it was replaced. And a query that the table has
no room for gets a reply that says so, and changes nothing.
-/
theorem upstream_gets_what_is_admitted (responder : Responder) (resolver : Endpoint)
    (timeout capacity : Nat) (run : List Moment) :
    let start := fresh responder resolver timeout capacity
    let history := start.steps run
    let table := (start.after run).pending
    ((∀ x ∈ history, x.net.send resolver = .ok ()) →
      history.flatMap Step.upstream = history.filterMap (Step.admitted? responder capacity) ∧
      ((∀ x ∈ history, x.before.pending.Prompt x.now) →
        (history.flatMap Step.upstream).length =
          table.size + history.countP (·.passedOn?.isSome) +
            history.countP (·.replaced?.isSome))) ∧
    (table.Unique ∧ table.size ≤ capacity) ∧
    (∀ x ∈ history, ∀ w, x.passedOn? = some w →
      ∃ source datagram, x.arrival = .reply source datagram ∧
        x.sent = x.answers w.client (some (received datagram))) ∧
    ∀ x ∈ history, ∀ client datagram m q, x.arrival = .query client datagram →
      decode (received datagram) = .ok m → m.questions.head? = some q →
      ((responder.rules.find? q.name q.type q.class_).isSome → x.upstream = []) ∧
      (m.header.qr = false → responder.rules.find? q.name q.type q.class_ = none →
        capacity ≤ x.before.pending.size → x.before.pending.find? m.header.id = none →
        x.upstream = [] ∧ x.after = x.before ∧
          ∃ answer, Replies m ResponseCode.servFail.code [] answer ∧
            x.sent = x.answers client answer) := by
  intro start history table
  have hsound : table.Sound := sound_after_run (Pending.sound_of_isEmpty rfl) run
  have hcapacity : table.capacity = capacity := by
    obtain ⟨entries, hafter⟩ := after_run_eq start run
    exact congrArg (·.pending.capacity) hafter
  refine ⟨?_, ⟨hsound.unique, hcapacity ▸ hsound.bounded⟩, ?_, ?_⟩
  · intro hnet
    refine ⟨flatMap_upstream_eq hnet, fun hprompt => ?_⟩
    exact balance_of_run (Pending.sound_of_isEmpty rfl) hnet hprompt
  · intro x _ w hpassed
    exact Step.sent_of_passedOn? hpassed
  · intro x hx client datagram m q harrival hd hfirst
    have hresponder : x.before.responder = responder := responder_of_mem_steps hx
    have hroom : x.before.pending.capacity = capacity := capacity_of_mem_steps hx
    rw [← hresponder, ← hroom]
    constructor
    · intro hrule
      exact Step.upstream_of_matched harrival hd hfirst hrule
    · intro hq hrule hfull hfind
      have hrequest := Step.request?_of_unmatched harrival hd hq hfirst hrule
      exact Step.of_not_admits hrequest (Pending.not_admits_iff.mpr ⟨hfull, hfind⟩)

/-- A service for which one query at a time may wait. -/
def cramped : Service := fresh { rules := {} } unruled.resolver 5000 1

/-- A query under the id 8. -/
def queryOfEight : Bytes := #[0, 8, 1, 0, 0, 1, 0, 0, 0, 0, 0, 0, 1, 97, 0, 0, 1, 0, 1]

/-- Two clients ask under one id, and before the reply there comes a query under another. -/
def crowd : List Moment :=
  twoQueries ++ [⟨.connected, 8, .query firstClient queryOfEight⟩, replyMoment]

theorem upstream_gets_two_of_crowd :
    (∀ x ∈ cramped.steps crowd, x.net.send cramped.resolver = .ok ()) ∧
      (∀ x ∈ cramped.steps crowd, x.before.pending.Prompt x.now) ∧
      (cramped.steps crowd).flatMap Step.upstream = [queryOfSeven, queryOfSeven] ∧
      2 = (cramped.after crowd).pending.size +
        (cramped.steps crowd).countP (·.passedOn?.isSome) +
        (cramped.steps crowd).countP (·.replaced?.isSome) := by
  have hnet : ∀ x ∈ cramped.steps crowd, x.net.send cramped.resolver = .ok () := by
    decide +kernel
  have hprompt : ∀ x ∈ cramped.steps crowd, x.before.pending.Prompt x.now := by
    unfold Pending.Prompt
    decide +kernel
  obtain ⟨hordered, hbalance⟩ :=
    (upstream_gets_what_is_admitted { rules := {} } unruled.resolver 5000 1 crowd).1 hnet
  have hupstream : (cramped.steps crowd).flatMap Step.upstream = [queryOfSeven, queryOfSeven] :=
    hordered.trans (by decide +kernel)
  refine ⟨hnet, hprompt, hupstream, ?_⟩
  have hlength : ((cramped.steps crowd).flatMap Step.upstream).length = 2 :=
    congrArg List.length hupstream
  exact hlength.symm.trans (hbalance hprompt)

end Service

end DnsResponder
