import DnsResponder.Proofs.Service.Attribution
import DnsResponder.Proofs.Service.Traffic
import Mathlib.Data.List.Perm.Subperm

/-!
# Clients do not see one another

All clients share one table, so what one client does could make a difference to what
another gets. It makes none as long as the two things that are shared do not run out: no
two clients hand on queries under one id, and a query under a new id finds room.

Two runs are compared, one with everybody and one in which a single client is alone with
the resolver. In the second run less waits, but what waits for that client is the same in
both, and that is the whole of what its datagrams depend on. A query of somebody else
leaves this part of the table as it is. Everything that stands in both runs changes it in
the same way.
-/

namespace DnsResponder

/-- The datagram, if it goes to the client. -/
def Departure.toClient? (client : Endpoint) : Departure → Option Bytes
  | .toClient c datagram => if c = client then some datagram else none
  | .toResolver _ => none

/-- Somebody else than the client sends a query. -/
def Arrival.OfOther (client : Endpoint) : Arrival → Prop
  | .query c _ => c ≠ client
  | _ => False

instance {client : Endpoint} : DecidablePred (Arrival.OfOther client)
  | .query c _ => inferInstanceAs (Decidable (c ≠ client))
  | .reply _ _ => inferInstanceAs (Decidable False)
  | .tick => inferInstanceAs (Decidable False)

theorem Arrival.OfOther.exists_query {client : Endpoint} {a : Arrival} (h : a.OfOther client) :
    ∃ other datagram, a = .query other datagram ∧ other ≠ client := by
  cases a with
  | query other datagram => exact ⟨other, datagram, rfl, h⟩
  | reply source datagram => exact h.elim
  | tick => exact h.elim

/-! ## What waits for one client -/

namespace Pending

variable {client : Endpoint} {p q : Pending} {w : Waiting} {id : UInt16} {now : Nat}

/-- In `q` there waits what in `p` waits for the client. -/
def IsPart (client : Endpoint) (p q : Pending) : Prop :=
  ∀ id, q.find? id = (p.find? id).filter (·.client = client)

theorem IsPart.of_find? (h : IsPart client p q) (hfind : q.find? id = some w) :
    p.find? id = some w ∧ w.client = client := by
  rw [h id, Option.filter_eq_some_iff] at hfind
  exact ⟨hfind.1, of_decide_eq_true hfind.2⟩

theorem IsPart.find?_of_client (h : IsPart client p q) (hfind : p.find? id = some w)
    (hw : w.client = client) : q.find? id = some w := by
  rw [h id, hfind]
  exact Option.filter_some_pos (decide_eq_true hw)

theorem IsPart.find?_eq_none (h : IsPart client p q)
    (hother : ∀ w, p.find? id = some w → w.client ≠ client) : q.find? id = none := by
  cases hfind : q.find? id with
  | none => rfl
  | some w =>
      obtain ⟨hp, hw⟩ := h.of_find? hfind
      exact absurd hw (hother w hp)

theorem IsPart.insert (h : IsPart client p q) (hw : w.client = client) :
    IsPart client (p.insert w) (q.insert w) := by
  intro id
  rw [find?_insert, find?_insert]
  split
  · rw [Option.filter_some_pos (by simpa using hw)]
  · exact h id

/-- What waits for somebody else makes no difference, if it takes no place of the client's. -/
theorem IsPart.insert_other (h : IsPart client p q) (hw : w.client ≠ client)
    (hfree : q.find? w.id = none) : IsPart client (p.insert w) q := by
  intro id
  rw [find?_insert]
  split
  · rename_i hid
    rw [hid, hfree]
    rw [Option.filter_some_neg (by simpa using hw)]
  · exact h id

theorem IsPart.erase (h : IsPart client p q) (id : UInt16) :
    IsPart client (p.erase id) (q.erase id) := by
  intro other
  rw [find?_erase, find?_erase]
  split
  · rfl
  · exact h other

theorem IsPart.erase_other (h : IsPart client p q) (hfree : q.find? id = none) :
    IsPart client (p.erase id) q := by
  have := h.erase id
  rwa [erase_of_find?_eq_none hfree] at this

/-- What waits for one client is no more than what waits for all of them. -/
theorem IsPart.size_le (h : IsPart client p q) (hu : q.Unique) : q.size ≤ p.size := by
  have hsub : q.entries.map (·.id) ⊆ p.entries.map (·.id) := by
    intro id hid
    obtain ⟨w, hw, rfl⟩ := List.mem_map.mp hid
    obtain ⟨hp, -⟩ := h.of_find? (hu.find?_of_mem hw)
    exact List.mem_map.mpr ⟨w, (Pending.of_find? hp).1, rfl⟩
  have hlen := (List.Nodup.subperm hu hsub).length_le
  rwa [List.length_map, List.length_map] at hlen

theorem IsPart.prompt (h : IsPart client p q) (hu : q.Unique) (htimeout : q.timeout = p.timeout)
    (hprompt : p.Prompt now) : q.Prompt now := by
  intro w hw hlate
  obtain ⟨hp, -⟩ := h.of_find? (hu.find?_of_mem hw)
  refine hprompt w (Pending.of_find? hp).1 ?_
  unfold Expired at hlate ⊢
  rwa [htimeout] at hlate

/-- Where there is room for a query of the client among all, there is room for it in its part. -/
theorem IsPart.admits (h : IsPart client p q) (hu : q.Unique) (hcapacity : q.capacity = p.capacity)
    (hown : ∀ w, p.find? id = some w → w.client = client) (hroom : p.Admits id) : q.Admits id := by
  cases hfind : p.find? id with
  | some w =>
      refine .inr ?_
      rw [h.find?_of_client hfind (hown w hfind)]
      rfl
  | none =>
      rcases hroom with hlt | hsome
      · refine .inl ?_
        rw [hcapacity]
        exact Nat.lt_of_le_of_lt (h.size_le hu) hlt
      · rw [hfind] at hsome
        cases hsome

end Pending

namespace Service

namespace Step

/-- What the client gets. -/
def delivered (client : Endpoint) (x : Step) : List Bytes :=
  x.sent.filterMap (Departure.toClient? client)

variable {client : Endpoint} {x y : Step} {request : Request}

theorem delivered_of_answers {other : Endpoint} {answer : Option Bytes}
    (h : x.sent = x.answers other answer) (hne : other ≠ client) : x.delivered client = [] := by
  unfold delivered
  rw [h, List.filterMap_eq_nil_iff]
  intro departure hmem
  obtain ⟨datagram, -, rfl⟩ := List.mem_map.mp hmem
  exact if_neg hne

/-- A client's query, and what comes of it, is nothing that other clients get to see. -/
theorem delivered_of_query {other : Endpoint} {datagram : Bytes}
    (harrival : x.arrival = .query other datagram) (hne : other ≠ client) :
    x.delivered client = [] := by
  cases hrequest : x.request? with
  | some request =>
      obtain ⟨datagram', harrival', -⟩ := of_request? hrequest
      obtain rfl : other = request.client := by
        rw [harrival] at harrival'
        cases harrival'
        rfl
      rcases cases_of_request hrequest with ⟨-, -, -, hsent, -⟩ | ⟨-, hsent, -⟩
      · unfold delivered
        rw [hsent]
        rfl
      · exact delivered_of_answers hsent hne
  | none =>
      have hkept : x.before.responder.handedOn? (received datagram) other = none := by
        unfold request? at hrequest
        rwa [harrival] at hrequest
      exact delivered_of_answers (of_kept harrival hkept).1 hne

/-- A query that there is room for waits, unless the network refuses it. -/
theorem of_admitted (hrequest : x.request? = some request)
    (hroom : x.before.pending.Admits request.id) :
    x.sent = (if (x.net.send x.before.resolver).isOk then [.toResolver request.datagram]
        else x.failure request) ∧
      x.after.pending =
        let noted := x.before.pending.insert ⟨request.id, request.client, x.now⟩
        if (x.net.send x.before.resolver).isOk then noted else noted.erase request.id := by
  rcases cases_of_request hrequest with ⟨-, hnet, -, hsent, hafter⟩ |
    ⟨-, hsent, ⟨hfull, -⟩ | ⟨e, -, hnet, hafter⟩⟩
  · rw [hsent, hafter, hnet]
    exact ⟨rfl, rfl⟩
  · exact absurd hroom hfull
  · rw [hsent, hafter, hnet]
    exact ⟨rfl, rfl⟩

end Step

/-! ## Two runs side by side -/

/--
The service `t` is what `s` would be if nobody but the client had ever sent a query.

Both answer alike and ask the same resolver. They differ in what waits for others.
-/
structure Mirrors (client : Endpoint) (s t : Service) : Prop where
  responder : t.responder = s.responder
  resolver : t.resolver = s.resolver
  timeout : t.pending.timeout = s.pending.timeout
  capacity : t.pending.capacity = s.pending.capacity
  unique : t.pending.Unique
  part : s.pending.IsPart client t.pending

namespace Mirrors

variable {client : Endpoint} {s t s' t' : Service} {x y : Step} {datagram : Bytes}

/-- Only what waits can come to differ. -/
theorem of_entries (h : Mirrors client s t) {entries entries' : List Waiting}
    (hs : s' = { s with pending := { s.pending with entries } })
    (ht : t' = { t with pending := { t.pending with entries := entries' } })
    (hunique : t'.pending.Unique) (hpart : s'.pending.IsPart client t'.pending) :
    Mirrors client s' t' where
  responder := by rw [hs, ht]; exact h.responder
  resolver := by rw [hs, ht]; exact h.resolver
  timeout := by rw [hs, ht]; exact h.timeout
  capacity := by rw [hs, ht]; exact h.capacity
  unique := hunique
  part := hpart

/-- A step that the other run does not have changes nothing for the client. -/
theorem skip {other : Endpoint} (h : Mirrors client x.before t)
    (harrival : x.arrival = .query other datagram) (hne : other ≠ client)
    (hfree : ∀ request ∈ x.request?, t.pending.find? request.id = none) :
    Mirrors client x.after t := by
  obtain ⟨entries, hentries⟩ := x.after_eq
  refine h.of_entries hentries rfl h.unique ?_
  cases hrequest : x.request? with
  | some request =>
      have hother : request.client ≠ client := by
        obtain ⟨datagram', harrival', -⟩ := Step.of_request? hrequest
        rw [harrival] at harrival'
        cases harrival'
        exact hne
      have hfree := hfree request hrequest
      rcases Step.cases_of_request hrequest with ⟨-, -, -, -, hafter⟩ |
        ⟨-, -, ⟨-, hafter⟩ | ⟨e, -, -, hafter⟩⟩
      · rw [hafter]
        exact h.part.insert_other hother hfree
      · rw [hafter]
        exact h.part
      · rw [hafter]
        exact (h.part.insert_other hother hfree).erase_other hfree
  | none =>
      have hkept : x.before.responder.handedOn? (received datagram) other = none := by
        unfold Step.request? at hrequest
        rwa [harrival] at hrequest
      rw [(Step.of_kept harrival hkept).2]
      exact h.part

/-! A moment that both runs have is met by both with the same question about it. -/

theorem request?_eq (h : Mirrors client x.before y.before) (hsame : y.toMoment = x.toMoment) :
    y.request? = x.request? := by
  unfold Step.request?
  rw [hsame, h.responder]

theorem reply?_eq (h : Mirrors client x.before y.before) (hsame : y.toMoment = x.toMoment) :
    y.reply? = x.reply? := by
  unfold Step.reply?
  rw [hsame, h.resolver]

theorem answers_eq (hsame : y.toMoment = x.toMoment) (other : Endpoint) (answer : Option Bytes) :
    y.answers other answer = x.answers other answer := by
  unfold Step.answers
  rw [hsame]

/-- A query of the client goes the same way in both runs. -/
theorem of_query (h : Mirrors client x.before y.before) (hsame : y.toMoment = x.toMoment)
    (harrival : x.arrival = .query client datagram)
    (hroom : ∀ request ∈ x.request?, x.before.pending.Admits request.id)
    (hown : ∀ request ∈ x.request?, ∀ w, x.before.pending.find? request.id = some w →
      w.client = client) :
    y.sent = x.sent ∧ y.after.pending.Unique ∧
      x.after.pending.IsPart client y.after.pending := by
  have harrival' : y.arrival = .query client datagram := by rw [hsame, harrival]
  have hrequest' := h.request?_eq hsame
  cases hrequest : x.request? with
  | none =>
      have hkept : x.before.responder.handedOn? (received datagram) client = none := by
        unfold Step.request? at hrequest
        rwa [harrival] at hrequest
      obtain ⟨hsent, hafter⟩ := Step.of_kept harrival hkept
      obtain ⟨hsent', hafter'⟩ := Step.of_kept harrival' (h.responder ▸ hkept)
      rw [hsent, hsent', hafter, hafter', answers_eq hsame, h.responder,
        Responder.handle_answer_of_kept hkept]
      exact ⟨rfl, h.unique, h.part⟩
  | some request =>
      obtain rfl : request.client = client := by
        obtain ⟨datagram', harrival', -⟩ := Step.of_request? hrequest
        rw [harrival] at harrival'
        cases harrival'
        rfl
      have hadmits := hroom request hrequest
      have hadmits' := h.part.admits h.unique h.capacity (hown request hrequest) hadmits
      obtain ⟨hsent, hafter⟩ := Step.of_admitted hrequest hadmits
      obtain ⟨hsent', hafter'⟩ := Step.of_admitted (hrequest'.trans hrequest) hadmits'
      have hpart := h.part.insert (w := ⟨request.id, request.client, x.now⟩) rfl
      have hunique := h.unique.insert ⟨request.id, request.client, x.now⟩
      rw [hsent, hsent', hafter, hafter', hsame, h.resolver]
      split
      · exact ⟨rfl, hunique, hpart⟩
      · exact ⟨answers_eq hsame _ _, hunique.erase _, hpart.erase _⟩

/-- A reply goes to the client in both runs or in none. -/
theorem of_reply {source : Endpoint} (h : Mirrors client x.before y.before)
    (hsame : y.toMoment = x.toMoment) (harrival : x.arrival = .reply source datagram)
    (hprompt : x.before.pending.Prompt x.now) :
    y.delivered client = x.delivered client ∧ y.after.pending.Unique ∧
      x.after.pending.IsPart client y.after.pending := by
  have harrival' : y.arrival = .reply source datagram := by rw [hsame, harrival]
  have hreply' := h.reply?_eq hsame
  have hprompt' : y.before.pending.Prompt y.now := by
    rw [hsame]
    exact h.part.prompt h.unique h.timeout hprompt
  rcases Step.cases_of_reply harrival with ⟨hnone, hsent, hafter⟩ |
    ⟨id, w, hreply, hfind, hafter, hsent⟩
  · have hnone' : ∀ id, y.reply? = some id → y.before.pending.find? id = none := by
      intro id hid
      rw [h.part id, hnone id (hreply' ▸ hid)]
      rfl
    obtain ⟨hsent', hafter'⟩ := Step.of_unawaited harrival' hnone'
    unfold Step.delivered
    rw [hsent, hsent', hafter, hafter']
    exact ⟨rfl, h.unique, h.part⟩
  · have hsent : x.sent = x.answers w.client (some (received datagram)) := by
      rcases hsent with ⟨hlate, -⟩ | ⟨-, hsent⟩
      · exact absurd hlate (hprompt w (Pending.of_find? hfind).1)
      · exact hsent
    rw [hafter]
    by_cases hw : w.client = client
    · have hfind' := h.part.find?_of_client hfind hw
      obtain ⟨hsent', hafter'⟩ := Step.of_awaited harrival' (hreply'.trans hreply) hfind'
        (hprompt' w (Pending.of_find? hfind').1)
      unfold Step.delivered
      rw [hsent, hsent', hafter', answers_eq hsame]
      exact ⟨rfl, h.unique.erase id, h.part.erase id⟩
    · have hfree : y.before.pending.find? id = none := by
        refine h.part.find?_eq_none fun v hv => ?_
        cases hfind.symm.trans hv
        exact hw
      have hnone' : ∀ id, y.reply? = some id → y.before.pending.find? id = none := by
        intro id' hid
        cases (hreply'.trans hreply).symm.trans hid
        exact hfree
      obtain ⟨hsent', hafter'⟩ := Step.of_unawaited harrival' hnone'
      rw [Step.delivered_of_answers hsent hw, hafter']
      unfold Step.delivered
      rw [hsent']
      exact ⟨rfl, h.unique, h.part.erase_other hfree⟩

/-- A step that both runs have keeps them alike, and the client gets the same in both. -/
theorem keep (h : Mirrors client x.before y.before) (hsame : y.toMoment = x.toMoment)
    (hmine : ¬x.arrival.OfOther client) (hprompt : x.before.pending.Prompt x.now)
    (hroom : ∀ request ∈ x.request?, x.before.pending.Admits request.id)
    (hown : ∀ request ∈ x.request?, ∀ w, x.before.pending.find? request.id = some w →
      w.client = request.client) :
    y.delivered client = x.delivered client ∧ Mirrors client x.after y.after := by
  obtain ⟨entries, hx⟩ := x.after_eq
  obtain ⟨entries', hy⟩ := y.after_eq
  have hkeep : y.delivered client = x.delivered client ∧ y.after.pending.Unique ∧
      x.after.pending.IsPart client y.after.pending := by
    cases harrival : x.arrival with
    | query other datagram =>
        obtain rfl : other = client := by
          rw [harrival] at hmine
          exact not_not.mp hmine
        obtain ⟨hsent, hkeep⟩ := h.of_query hsame harrival hroom fun request hrequest w hw => by
          obtain ⟨datagram', harrival', -⟩ := Step.of_request? hrequest
          rw [harrival] at harrival'
          cases harrival'
          exact hown request hrequest w hw
        exact ⟨congrArg (List.filterMap _) hsent, hkeep⟩
    | reply source datagram => exact h.of_reply hsame harrival hprompt
    | tick =>
        have harrival' : y.arrival = .tick := by rw [hsame, harrival]
        obtain ⟨hsent, hafter⟩ := Step.of_tick harrival
        obtain ⟨hsent', hafter'⟩ := Step.of_tick harrival'
        have hprompt' : y.before.pending.Prompt y.now := by
          rw [hsame]
          exact h.part.prompt h.unique h.timeout hprompt
        unfold Step.delivered
        rw [hsent, hsent', hafter, hafter']
        dsimp only
        rw [hprompt.purge, hprompt'.purge]
        exact ⟨rfl, h.unique, h.part⟩
  exact ⟨hkeep.1, h.of_entries hx hy hkeep.2.1 hkeep.2.2⟩

end Mirrors

/-! ## Runs -/

/-- The run without the queries that others than the client send. -/
def aloneWith (client : Endpoint) (run : List Moment) : List Moment :=
  run.filter fun m => ¬m.arrival.OfOther client

/--
No two clients hand on queries under one id.

A query is handed on even if the network then refuses it. By that time it has taken the place
of what waited under its id, and when it is struck out again nothing waits there any more. So a
query that never goes out can cost another client its reply.
-/
def Apart (history : List Step) : Prop :=
  ∀ x ∈ history, ∀ y ∈ history, ∀ r ∈ x.request?, ∀ q ∈ y.request?, r.id = q.id →
    r.client = q.client

/--
A query under an id that does not wait yet finds room in the table.

Again every query counts that is handed on. One that finds no room does not go out, so of the
queries that do go out this would be nothing to ask.
-/
def Roomy (history : List Step) : Prop :=
  ∀ x ∈ history, ∀ r ∈ x.request?, x.before.pending.find? r.id = none →
    x.before.pending.size < x.before.pending.capacity

variable {s : Service} {run : List Moment} {client : Endpoint}

/-- Whoever waits has sent a query under the id before. -/
theorem exists_request_of_find? (hs : s.pending.entries = []) {id : UInt16} {w : Waiting}
    (h : (s.after run).pending.find? id = some w) :
    ∃ x ∈ s.steps run, ∃ own ∈ x.request?, own.client = w.client ∧ own.id = id := by
  obtain ⟨k, own, hsent, hclient, hid, -⟩ := exists_last_query (owed?_of_find? hs h)
  obtain ⟨x, hx, hforwarded⟩ := Option.bind_eq_some_iff.mp hsent
  exact ⟨x, List.mem_of_getElem? hx, own, Step.request?_of_forwarded? hforwarded, hclient, hid⟩

/-- The run in which the client is alone goes alongside the run with everybody. -/
theorem mirrors_aloneWith (hs : s.pending.entries = [])
    (hprompt : ∀ x ∈ s.steps run, x.before.pending.Prompt x.now)
    (hapart : Apart (s.steps run)) (hroomy : Roomy (s.steps run)) :
    (s.steps (aloneWith client run)).flatMap (Step.delivered client) =
        (s.steps run).flatMap (Step.delivered client) ∧
      Mirrors client (s.after run) (s.after (aloneWith client run)) := by
  induction run using List.reverseRecOn with
  | nil =>
      refine ⟨rfl, rfl, rfl, rfl, rfl, (Pending.sound_of_isEmpty hs).unique, ?_⟩
      intro id
      show s.pending.find? id = (s.pending.find? id).filter _
      unfold Pending.find?
      rw [hs]
      rfl
  | append_singleton run m ih =>
      have hsteps := steps_concat s run m
      rw [hsteps] at hapart hroomy hprompt ⊢
      rw [List.forall_mem_append, List.forall_mem_singleton] at hprompt
      obtain ⟨hrun, hlast⟩ := hprompt
      obtain ⟨hsame, hmirrors⟩ := ih hrun
        (fun x hx y hy => hapart x (List.mem_append_left _ hx) y (List.mem_append_left _ hy))
        (fun x hx => hroomy x (List.mem_append_left _ hx))
      set x := (s.after run).stepAt m with hx
      have hmem : x ∈ s.steps run ++ [x] := List.mem_append_right _ (List.mem_singleton_self x)
      -- whatever waits under the id of a query waits for the client of that query
      have hown : ∀ request ∈ x.request?, ∀ w, x.before.pending.find? request.id = some w →
          w.client = request.client := by
        intro request hrequest w hw
        obtain ⟨y, hy, own, hown, hclient, hid⟩ := exists_request_of_find? hs hw
        rw [← hclient]
        exact hapart y (List.mem_append_left _ hy) x hmem own hown request hrequest hid
      have hroom : ∀ request ∈ x.request?, x.before.pending.Admits request.id := by
        intro request hrequest
        cases hfind : x.before.pending.find? request.id with
        | none => exact .inl (hroomy x hmem request hrequest hfind)
        | some w =>
            refine .inr ?_
            rw [hfind]
            rfl
      rw [after_concat, List.flatMap_append, List.flatMap_singleton, ← hsame, ← hx]
      by_cases hother : m.arrival.OfOther client
      · have halone : aloneWith client (run ++ [m]) = aloneWith client run := by
          unfold aloneWith
          rw [List.filter_append, List.filter_cons_of_neg (by simpa using hother), List.filter_nil,
            List.append_nil]
        obtain ⟨other, datagram, harrival, hne⟩ := hother.exists_query
        -- a place that this query takes or gives up was never the client's
        have hfree : ∀ request ∈ x.request?,
            (s.after (aloneWith client run)).pending.find? request.id = none := by
          intro request hrequest
          refine hmirrors.part.find?_eq_none fun w hw hclient => ?_
          rw [← hclient, hown request hrequest w hw] at hne
          obtain ⟨datagram', harrival', -⟩ := Step.of_request? hrequest
          exact hne (Arrival.query.inj (harrival.symm.trans harrival')).1
        rw [halone, Step.delivered_of_query (x := x) harrival hne, List.append_nil]
        exact ⟨rfl, Mirrors.skip (x := x) hmirrors harrival hne hfree⟩
      · have halone : aloneWith client (run ++ [m]) = aloneWith client run ++ [m] := by
          unfold aloneWith
          rw [List.filter_append, List.filter_cons_of_pos (by simpa using hother), List.filter_nil]
        rw [halone, steps_concat, after_concat, List.flatMap_append, List.flatMap_singleton]
        obtain ⟨hdelivered, hafter⟩ :=
          Mirrors.keep (x := x) (y := (s.after (aloneWith client run)).stepAt m) hmirrors rfl hother
            hlast hroom hown
        exact ⟨congrArg _ hdelivered, hafter⟩

/--
A client gets the same datagrams, octet by octet and in the same order, whether or not
others send queries, as long as no two clients hand on queries under one id, there is
room for queries under new ids, and no query waits until it expires.
-/
theorem delivered_alone (responder : Responder) (resolver : Endpoint) (timeout capacity : Nat)
    (run : List Moment) (client : Endpoint)
    (hprompt : ∀ x ∈ (fresh responder resolver timeout capacity).steps run,
      x.before.pending.Prompt x.now)
    (hapart : Apart ((fresh responder resolver timeout capacity).steps run))
    (hroomy : Roomy ((fresh responder resolver timeout capacity).steps run)) :
    ((fresh responder resolver timeout capacity).steps (aloneWith client run)).flatMap
        (Step.delivered client) =
      ((fresh responder resolver timeout capacity).steps run).flatMap (Step.delivered client) :=
  (mirrors_aloneWith rfl hprompt hapart hroomy).1

/-- A reply under the id 8. -/
def replyToEight : Bytes := #[0, 8, 129, 128, 0, 0, 0, 0, 0, 0, 0, 0]

/-- Two clients ask under ids of their own, and the replies come in the other order, the first one twice. -/
def twoClients : List Moment :=
  [⟨.connected, 0, .query firstClient queryOfSeven⟩, ⟨.connected, 5, .query secondClient queryOfEight⟩,
    ⟨.connected, 9, .reply unruled.resolver replyToEight⟩,
    ⟨.connected, 12, .reply unruled.resolver replyToEight⟩, replyMoment]

theorem delivered_alone_to_first :
    (∀ x ∈ unruled.steps twoClients, x.before.pending.Prompt x.now) ∧
      Apart (unruled.steps twoClients) ∧ Roomy (unruled.steps twoClients) ∧
      (aloneWith firstClient twoClients).length < twoClients.length ∧
      (unruled.steps (aloneWith firstClient twoClients)).flatMap (Step.delivered firstClient) =
        [replyToSeven] := by
  have hprompt : ∀ x ∈ unruled.steps twoClients, x.before.pending.Prompt x.now := by
    unfold Pending.Prompt
    decide +kernel
  have hapart : Apart (unruled.steps twoClients) := by
    unfold Apart
    decide +kernel
  have hroomy : Roomy (unruled.steps twoClients) := by
    unfold Roomy
    decide +kernel
  refine ⟨hprompt, hapart, hroomy, by decide, ?_⟩
  exact (delivered_alone _ _ _ _ twoClients firstClient hprompt hapart hroomy).trans (by decide +kernel)

end Service

end DnsResponder
