import DnsResponder.Host
import DnsResponder.Pending
import DnsResponder.Responder

/-!
# Asking the resolver

Queries that no rule answers go to one resolver, and whatever it sends back goes to
the client that waits under the id in its first two octets. Nothing is decoded on
the way back: a reply passes unchanged even if it is no message that the responder
could read itself.

A query is noted as waiting before it is sent. If sending fails, the note is removed
again, so that nobody waits for a reply that cannot come.
-/

namespace DnsResponder

/-- The octets at the start of a message that every reply must have. -/
def headerLength : Nat := 12

/-- The resolver, the queries that wait for it, and what has been sent to it. -/
structure Relay where
  resolver : Endpoint
  pending : Pending
  /-- The datagrams sent to the resolver, in order. -/
  sent : List Bytes := []

/-- The id of a reply, which has to be long enough to be a message. -/
def replyId? (datagram : Bytes) : Option UInt16 :=
  if datagram.size < headerLength then none
  else
    match Reader.u16 datagram 0 with
    | .ok (id, _) => some id
    | .error _ => none

namespace Relay

/-- Hands a request on to the resolver. -/
def forward (net : Network) (now : Nat) : Forwarder Relay := fun request relay =>
  let id := request.id
  let noted := relay.pending.register now id request.client
  if noted.answer then
    match net.send relay.resolver with
    | .ok () =>
        ⟨.ok (),
          { relay with pending := noted.state, sent := relay.sent ++ [request.datagram] },
          noted.events ++ [.sent id relay.resolver request.datagram.size]⟩
    | .error e =>
        ⟨.error (.notSent s!"Failed to send query to {relay.resolver}: {e.message}"),
          { relay with pending := noted.state.erase id }, noted.events⟩
  else
    ⟨.error (.notSent s!"{relay.pending.size} queries already awaiting upstream"),
      { relay with pending := noted.state }, noted.events⟩

/-- Takes a datagram that came from `source`, and answers with the client it goes to, if any. -/
def receive (net : Network) (now : Nat) (source : Endpoint) (datagram : Bytes) (relay : Relay) :
    Turn Relay (Option Endpoint) :=
  if source ≠ relay.resolver then ⟨none, relay, [.foreignReply relay.resolver source]⟩
  else
    match replyId? datagram with
    | none => ⟨none, relay, [.shortReply datagram.size]⟩
    | some id =>
        let taken := relay.pending.take now id
        let relay := { relay with pending := taken.state }
        match taken.answer with
        | none => ⟨none, relay, taken.events ++ [.unexpectedReply id]⟩
        | some w =>
            match net.send w.client with
            | .ok () =>
                ⟨some w.client, relay, taken.events ++ [.relayed id w.client (now - w.since)]⟩
            | .error e => ⟨none, relay, taken.events ++ [.notRelayed e w.client]⟩

end Relay

end DnsResponder
