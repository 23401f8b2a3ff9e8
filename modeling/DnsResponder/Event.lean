import DnsResponder.Message
import DnsResponder.Name.Dotted
import DnsResponder.Host
import DnsResponder.Wire.Encode
import DnsResponder.Wire.Reader

/-!
# Events

The responder reports what it does as events. An event is a fact about the domain;
its level, its headline and the named values that go with it are derived from the
fact, so a report can never say something else than what happened.
-/

namespace DnsResponder

/-- Why a query could not be handed on. -/
inductive ForwardError where
  /-- The query was not sent to the resolver. -/
  | notSent (reason : String)
  /-- The host failed. -/
  | host (reason : String)
deriving DecidableEq, Repr

/-- What went wrong, in words. -/
def ForwardError.message : ForwardError → String
  | notSent reason => s!"Forwarding failed: {reason}"
  | host reason => s!"I/O error: {reason}"

/-- How much attention an event deserves. -/
inductive Level where
  | error | warn | info | debug
deriving DecidableEq, Repr

/-- The name of a level. -/
def Level.name : Level → String
  | error => "ERROR"
  | warn => "WARN"
  | info => "INFO"
  | debug => "DEBUG"

/-- How much is reported at a level: the higher the rank, the more urgent the level. -/
def Level.rank : Level → Nat
  | error => 3
  | warn => 2
  | info => 1
  | debug => 0

/-- The level with the given name; a name that means nothing is taken for `info`. -/
def Level.ofName (name : String) : Level :=
  match name with
  | "error" => .error
  | "warn" => .warn
  | "debug" | "trace" => .debug
  | _ => .info

/-- Something worth reporting. -/
inductive Event where
  /-- A rule answers the question. -/
  | matched (question : Question) (client : Endpoint)
  /-- No rule answers the question, and the resolver is to be asked. -/
  | unmatched (question : Question) (client : Endpoint)
  /-- A query asks nothing. -/
  | noQuestion (id : UInt16) (client : Endpoint)
  /-- A datagram is no message. -/
  | malformed (error : DecodeError) (client : Endpoint) (size : Nat)
  /-- A response came where queries are expected. -/
  | strayResponse (id : UInt16) (client : Endpoint)
  /-- A query could not be handed on. -/
  | failed (error : ForwardError) (id : UInt16) (client : Endpoint)
  /-- A reply cannot be written. -/
  | notWritten (error : EncodeError) (id : UInt16)
  /-- A query took over the id of another client's query. -/
  | idReused (id : UInt16) (previous client : Endpoint)
  /-- A reply came too late. -/
  | expired (id : UInt16) (client : Endpoint)
  /-- Queries that had waited too long were given up. -/
  | purged (count remaining : Nat)
  /-- A query was sent to the resolver. -/
  | sent (id : UInt16) (resolver : Endpoint) (size : Nat)
  /-- The resolver's reply was passed to the client. -/
  | relayed (id : UInt16) (client : Endpoint) (elapsed : Nat)
  /-- The resolver's reply could not be passed to the client. -/
  | notRelayed (error : HostError) (client : Endpoint)
  /-- The resolver replied to no query that waits. -/
  | unexpectedReply (id : UInt16)
  /-- A datagram from the resolver is too short to be a message. -/
  | shortReply (size : Nat)
  /-- A datagram came from somewhere else than the resolver. -/
  | foreignReply (expected source : Endpoint)

namespace Event

/-- How much attention the event deserves. -/
def level : Event → Level
  | matched .. | unmatched .. => .info
  | noQuestion .. | strayResponse .. | expired .. | purged .. | sent .. | relayed ..
  | unexpectedReply .. => .debug
  | malformed .. | idReused .. | notRelayed .. | shortReply .. | foreignReply .. => .warn
  | failed .. | notWritten .. => .error

/-- The headline of the event. -/
def headline : Event → String
  | matched .. => "MATCHED"
  | unmatched .. => "FORWARD"
  | noQuestion .. => "Query without question"
  | malformed .. => "Dropping malformed query"
  | strayResponse .. => "Ignoring response on query socket"
  | failed .. => "Query handling failed"
  | notWritten .. => "Failed to encode response"
  | idReused .. => "Transaction id reused while pending; earlier client will not get a reply"
  | expired .. => "Upstream reply arrived after expiry"
  | purged .. => "Expired pending queries"
  | sent .. => "Query forwarded"
  | relayed .. => "Relayed upstream reply"
  | notRelayed .. => "Failed to relay upstream reply"
  | unexpectedReply .. => "No pending query for upstream reply"
  | shortReply .. => "Short upstream reply dropped"
  | foreignReply .. => "Reply from unexpected source dropped"

/-- The named values about a question and its client. -/
def questionFields (q : Question) (client : Endpoint) : List (String × String) :=
  [("domain", q.name.text), ("qtype", RecordType.describe q.type),
    ("qclass", RecordClass.describe q.class_), ("client", client.text)]

/-- The named values of the event. -/
def fields : Event → List (String × String)
  | matched q client | unmatched q client => questionFields q client
  | noQuestion id client | strayResponse id client | expired id client =>
      [("id", toString id.toNat), ("client", client.text)]
  | malformed error client size =>
      [("error", error.message), ("client", client.text), ("bytes", toString size)]
  | failed error id client =>
      [("error", error.message), ("id", toString id.toNat), ("client", client.text)]
  | notWritten error id => [("error", error.message), ("id", toString id.toNat)]
  | idReused id previous client =>
      [("id", toString id.toNat), ("previous", previous.text), ("client", client.text)]
  | purged count remaining => [("purged", toString count), ("remaining", toString remaining)]
  | sent id resolver size =>
      [("id", toString id.toNat), ("upstream", resolver.text), ("bytes", toString size)]
  | relayed id client elapsed =>
      [("id", toString id.toNat), ("client", client.text), ("elapsed_ms", toString elapsed)]
  | notRelayed error client => [("error", error.message), ("client", client.text)]
  | unexpectedReply id => [("id", toString id.toNat)]
  | shortReply size => [("bytes", toString size)]
  | foreignReply expected source =>
      [("expected", expected.text), ("received_from", source.text)]

/-- The level and the headline of the event. -/
def line (e : Event) : String := s!"{e.level.name} {e.headline}"

/-- All that is reported about the event, on one line. -/
def report (e : Event) : String :=
  String.join (e.line :: e.fields.map fun (key, value) => s!" {key}={value}")

end Event

/--
What it came to when something was done: the answer, the state that is left behind, and
what was reported on the way, in order.
-/
structure Turn (σ α : Type) where
  answer : α
  state : σ
  events : List Event

end DnsResponder
