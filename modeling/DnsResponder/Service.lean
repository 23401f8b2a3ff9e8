import DnsResponder.Relay

/-!
# The service

The service has two sockets. Clients send queries to one; the resolver's replies come
in on the other. What the service does is one step for each datagram that arrives,
and for each tick of the sweeper that gives up on queries which have waited too long.
A step leaves a new state behind and sends some datagrams, and nothing else connects
one step with the next.

A step is taken as a whole. If datagrams are handled side by side, the table may be
looked at for one query, whether there is room and whether its id waits already, and
then for another before the first is entered; so more queries may come to wait than
the table is to hold. That is no row of steps, and nothing is said about it here.

A datagram longer than 4096 octets is cut when it is received, on either socket.
-/

namespace DnsResponder

/-- The most octets of a datagram that are received. -/
def maxDatagram : Nat := 4096

/-- The part of a datagram that is received. -/
def received (datagram : Bytes) : Bytes := datagram.extract 0 maxDatagram

/-- The service: how it answers, and what it knows about the resolver. -/
structure Service where
  responder : Responder
  resolver : Endpoint
  pending : Pending

/-- What happens to the service. -/
inductive Arrival where
  /-- A client sends a datagram. -/
  | query (client : Endpoint) (datagram : Bytes)
  /-- A datagram comes in on the socket that the resolver replies to. -/
  | reply (source : Endpoint) (datagram : Bytes)
  /-- The sweeper ticks. -/
  | tick
deriving DecidableEq

/-- A datagram that the service sends. -/
inductive Departure where
  | toClient (client : Endpoint) (datagram : Bytes)
  | toResolver (datagram : Bytes)
deriving DecidableEq

namespace Service

/-- What the service knows about the resolver, before anything is sent in this step. -/
def relay (s : Service) : Relay := { resolver := s.resolver, pending := s.pending }

/-- A step for a datagram from a client. A reply that the network refuses is lost. -/
def onQuery (net : Network) (now : Nat) (client : Endpoint) (datagram : Bytes) (s : Service) :
    Turn Service (List Departure) :=
  let turn := s.responder.handle (Relay.forward net now) (received datagram) client s.relay
  let replies := turn.answer.toList.filter fun _ => (net.send client).isOk
  ⟨turn.state.sent.map .toResolver ++ replies.map (.toClient client),
    { s with pending := turn.state.pending }, turn.events⟩

/-- A step for a datagram on the resolver's socket. -/
def onReply (net : Network) (now : Nat) (source : Endpoint) (datagram : Bytes) (s : Service) :
    Turn Service (List Departure) :=
  let datagram := received datagram
  let turn := s.relay.receive net now source datagram
  ⟨turn.answer.toList.map (.toClient · datagram), { s with pending := turn.state.pending },
    turn.events⟩

/-- A step for a tick of the sweeper. -/
def onTick (now : Nat) (s : Service) : Turn Service (List Departure) :=
  let turn := s.pending.sweep now
  ⟨[], { s with pending := turn.state }, turn.events⟩

/-- A step of the service. -/
def step (net : Network) (now : Nat) (s : Service) : Arrival → Turn Service (List Departure)
  | .query client datagram => s.onQuery net now client datagram
  | .reply source datagram => s.onReply net now source datagram
  | .tick => s.onTick now

/-- What the service sends at each of a row of steps, and the state it ends in. -/
def run (net : Network) (s : Service) : List (Nat × Arrival) → List (List Departure) × Service
  | [] => ([], s)
  | (now, arrival) :: rest =>
      let turn := s.step net now arrival
      let (departures, s) := run net turn.state rest
      (turn.answer :: departures, s)

end Service

end DnsResponder
