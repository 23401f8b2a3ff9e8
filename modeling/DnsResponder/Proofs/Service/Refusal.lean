import DnsResponder.Proofs.Service.Relaying

/-!
# When a query cannot be handed on

Two things can stop a query on its way to the resolver: the table may be full, or the
network may refuse the datagram. Either way the client is told, and nothing should be
left of the query in the table.

A full table stays as it is. But what the network refuses has been noted by then, and the
note is removed by its id. If it took the place of an earlier query under that id, then
that query is gone as well: the resolver still works on it, and nobody gets its reply.
-/

namespace DnsResponder

namespace Pending

variable {p : Pending} {id : UInt16}

theorem erase_insert (p : Pending) (w : Waiting) : (p.insert w).erase w.id = p.erase w.id := by
  unfold insert erase
  dsimp only
  rw [List.filter_cons_of_neg (by simp), List.filter_filter]
  simp only [Bool.and_self]

/-- Removing an id changes nothing only where nothing waits under it. -/
theorem erase_eq_self_iff : p.erase id = p ↔ p.find? id = none := by
  constructor
  · intro h
    rw [← h, find?_erase, if_pos rfl]
  · exact erase_of_find?_eq_none

end Pending

namespace Relay

variable {net : Network} {now : Nat} {request : Request} {relay : Relay}

theorem forward_error_iff :
    (∃ e, (forward net now request relay).answer = .error e) ↔
      ¬relay.pending.Admits request.id ∨ ∃ e, net.send relay.resolver = .error e := by
  by_cases hroom : relay.pending.Admits request.id
  · cases hnet : net.send relay.resolver with
    | ok _ => simp [forward_of_sent net now relay hroom hnet, hroom]
    | error e => simp [(forward_of_not_sent net now relay hroom hnet).1]
  · simp [(forward_of_full net now relay hroom).1, hroom]

/-- Whatever stops a query, afterwards nothing waits under its id and all else is as it was. -/
theorem state_of_forward_error (h : ∃ e, (forward net now request relay).answer = .error e) :
    (forward net now request relay).state =
      { relay with pending := relay.pending.erase request.id } := by
  by_cases hroom : relay.pending.Admits request.id
  · -- the note has taken the place of what waited, and it is removed by its id
    obtain ⟨e, hnet⟩ := (forward_error_iff.mp h).resolve_left (not_not_intro hroom)
    rw [(forward_of_not_sent net now relay hroom hnet).2]
    exact congrArg (fun p => { relay with pending := p }) (Pending.erase_insert _ _)
  · rw [(forward_of_full net now relay hroom).2,
      Pending.erase_of_find?_eq_none (Pending.not_admits_iff.mp hroom).2]

/--
A query cannot be handed on if the table is full or the network refuses it. It then leaves
the table as it was just if nothing waited under its id. Otherwise what waited is lost,
though nothing under any other id is, and a reply to it reaches nobody.
-/
theorem forward_error_keeps_iff (net : Network) (now : Nat) (request : Request) (relay : Relay) :
    let turn := forward net now request relay
    ((∃ e, turn.answer = .error e) ↔
      ¬relay.pending.Admits request.id ∨ ∃ e, net.send relay.resolver = .error e) ∧
    ((∃ e, turn.answer = .error e) →
      (turn.state.pending = relay.pending ↔ relay.pending.find? request.id = none) ∧
      (∀ id, id ≠ request.id → turn.state.pending.find? id = relay.pending.find? id) ∧
      ∀ later now' datagram, replyId? datagram = some request.id →
        (receive later now' relay.resolver datagram turn.state).answer = none) := by
  dsimp only
  refine ⟨forward_error_iff, fun h => ?_⟩
  rw [state_of_forward_error h]
  refine ⟨Pending.erase_eq_self_iff, ?_, ?_⟩
  · intro id hid
    rw [Pending.find?_erase, if_neg hid]
  · intro later now' datagram hreply
    have hnobody : (relay.pending.erase request.id).find? request.id = none := by
      rw [Pending.find?_erase, if_pos rfl]
    exact (receive_of_unawaited later now' { relay with pending := relay.pending.erase request.id }
      hreply hnobody).1

/-- The first client waits for the reply to its query. -/
def afterFirst : Relay :=
  (Service.unruled.after [⟨.connected, 0, .query Service.firstClient Service.queryOfSeven⟩]).relay

/-- The second client asks under the same id. -/
def secondRequest : Request where
  message := (decode Service.queryOfSeven).toOption.getD default
  datagram := Service.queryOfSeven
  client := Service.secondClient

/-- A query that the network refuses may well take another client's query with it. -/
theorem forward_error_forgets_first :
    let turn := forward .unrouted 5 secondRequest afterFirst
    let reply := receive .connected 20 Service.unruled.resolver Service.replyToSeven
    (∃ e, turn.answer = .error e) ∧
      afterFirst.pending.entries = [⟨7, Service.firstClient, 0⟩] ∧ turn.state.pending.entries = [] ∧
      (reply afterFirst).answer = some Service.firstClient ∧ (reply turn.state).answer = none := by
  dsimp only
  refine ⟨forward_error_iff.mpr (.inr ⟨.networkUnreachable, rfl⟩), ?_⟩
  decide +kernel

end Relay

end DnsResponder
