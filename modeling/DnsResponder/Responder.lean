import DnsResponder.Event
import DnsResponder.Rule.Table
import DnsResponder.Wire.Decode

/-!
# Answering queries

A datagram that a client sent has one of four fates. If it is no message, or is
itself a response, it is dropped. If it asks nothing, the reply says so. If a rule is
for its first question, the rule answers. All other queries are handed on, as the
very octets that came in, and then the client gets no reply now unless handing on
fails.

How a query is handed on is an argument: a `Forwarder` takes the request and a state
of its own, and says whether it succeeded. Nothing else here has a state, so that
the state after a datagram tells whether the forwarder was asked, and how often.
-/

namespace DnsResponder

/-- A query together with the datagram that held it and the client that sent it. -/
structure Request where
  message : Message
  datagram : Bytes
  client : Endpoint
deriving DecidableEq

/-- The id of the query. -/
def Request.id (r : Request) : UInt16 := r.message.header.id

/-- Hands a request on, at a state of its own. -/
abbrev Forwarder (σ : Type) := Request → σ → Turn σ (Except ForwardError Unit)

/-- The rules, and how long an answer from them may be kept. -/
structure Responder where
  rules : RuleTable
  ttl : UInt32 := 1

/-- What became of a query. -/
inductive Outcome where
  /-- It has been answered here. -/
  | answered (reply : Message)
  /-- It has been handed on. -/
  | forwarded
deriving DecidableEq

namespace Responder

variable {σ : Type}

/-- The records with which a rule answers. -/
def records (r : Responder) (rule : Rule) : List Record :=
  match rule.response with
  | .found type class_ data => [Record.of rule.name type class_ r.ttl data]
  | .notFound _ => []

/-- The reply to `query` by a rule. -/
def answer (r : Responder) (query : Message) (rule : Rule) : Message :=
  query.reply rule.response.rcode (r.records rule)

/-- Answers a query or hands it on. -/
def execute (r : Responder) (forward : Forwarder σ) (request : Request) (s : σ) :
    Turn σ (Except ForwardError Outcome) :=
  match request.message.firstQuestion? with
  | none =>
      ⟨.ok (.answered (request.message.errorReply .formErr)), s,
        [.noQuestion request.id request.client]⟩
  | some q =>
      match r.rules.find? q.name q.type q.class_ with
      | some rule =>
          ⟨.ok (.answered (r.answer request.message rule)), s, [.matched q request.client]⟩
      | none =>
          let turn := forward request s
          ⟨turn.answer.map fun _ => .forwarded, turn.state,
            .unmatched q request.client :: turn.events⟩

/-- Writes a reply. One that cannot be written is not sent. -/
def write (reply : Message) (s : σ) (events : List Event) : Turn σ (Option Bytes) :=
  match encode true reply with
  | .ok datagram => ⟨some datagram, s, events⟩
  | .error e => ⟨none, s, events ++ [.notWritten e reply.header.id]⟩

/-- Handles a datagram from a client, and answers with the datagram to send back, if any. -/
def handle (r : Responder) (forward : Forwarder σ) (datagram : Bytes) (client : Endpoint) (s : σ) :
    Turn σ (Option Bytes) :=
  match decode datagram with
  | .error e => ⟨none, s, [.malformed e client datagram.size]⟩
  | .ok message =>
      if message.header.qr then ⟨none, s, [.strayResponse message.header.id client]⟩
      else
        let turn := r.execute forward ⟨message, datagram, client⟩ s
        match turn.answer with
        | .ok (.answered reply) => write reply turn.state turn.events
        | .ok .forwarded => ⟨none, turn.state, turn.events⟩
        | .error e =>
            write (message.errorReply .servFail) turn.state
              (turn.events ++ [.failed e message.header.id client])

end Responder

end DnsResponder
