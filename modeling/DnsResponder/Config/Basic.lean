import DnsResponder.Net.Endpoint
import DnsResponder.WhiteSpace

/-!
# Configuration

What an operator can set: where the responder listens, which resolver takes the
queries that no rule answers, where the rules are, and how events are reported. Every
setting has a value that holds when nobody sets it.

Reading a configuration and finding it sensible are two things. A configuration may
well name a resolver that is no endpoint; it is `validate` that refuses it, and it
names the first fault only.
-/

namespace DnsResponder

/-- Where the responder listens. -/
structure ListenSettings where
  /-- The number of the socket. -/
  number : UInt16 := 53
  address : String := "0.0.0.0"
deriving DecidableEq, Repr

/-- Which resolver takes the queries that no rule answers. -/
structure ResolverSettings where
  endpoint : String := "1.1.1.1:53"
  /-- How many seconds a query waits for its reply. -/
  timeout : UInt64 := 5
  /-- How many queries may wait. -/
  capacity : UInt64 := 4096
deriving DecidableEq, Repr

/-- Where the rules are, and how long the answers that they give may be kept. -/
structure RuleSettings where
  path : String := "rules.conf"
  ttl : UInt32 := 1
deriving DecidableEq, Repr

/-- How events are reported. -/
structure LogSettings where
  level : String := "info"
  json : Bool := false
deriving DecidableEq, Repr

/-- Everything that can be set. -/
structure Config where
  listen : ListenSettings := {}
  resolver : ResolverSettings := {}
  rules : RuleSettings := {}
  log : LogSettings := {}
deriving DecidableEq, Repr

/-- What can be wrong with a configuration. -/
inductive ConfigFault where
  | zeroNumber
  /-- The resolver is no endpoint. -/
  | badResolver (text : String)
  | zeroTimeout
  | zeroCapacity
  | noRules
deriving DecidableEq, Repr

/-- The fault in words. -/
def ConfigFault.message : ConfigFault → String
  | zeroNumber => "DNS port cannot be 0"
  | badResolver text => s!"Invalid upstream server '{text}': {Endpoint.syntaxComplaint}"
  | zeroTimeout => "Upstream timeout must be at least one second"
  | zeroCapacity => "Upstream max_pending cannot be 0"
  | noRules => "No rules file configured"

namespace ListenSettings

/-- The endpoint to listen on, as text. An address with a colon in it is put in brackets. -/
def text (s : ListenSettings) : String :=
  if s.address.toList.contains ':' then s!"[{s.address}]:{s.number.toNat}"
  else s!"{s.address}:{s.number.toNat}"

/-- The endpoint to listen on. -/
def endpoint? (s : ListenSettings) : Option Endpoint := Endpoint.ofText? s.text

end ListenSettings

namespace ResolverSettings

/-- The resolver's endpoint. -/
def resolved (s : ResolverSettings) : Except ConfigFault Endpoint :=
  match Endpoint.ofText? s.endpoint with
  | some e => .ok e
  | none => .error (.badResolver s.endpoint)

/-- How long a query waits for its reply, in milliseconds. -/
def timeoutMillis (s : ResolverSettings) : Nat := s.timeout.toNat * 1000

end ResolverSettings

namespace Config

/-- Finds the first fault. -/
def validate (c : Config) : Except ConfigFault Unit :=
  if c.listen.number = 0 then .error .zeroNumber
  else
    match c.resolver.resolved with
    | .error e => .error e
    | .ok _ =>
        if c.resolver.timeout = 0 then .error .zeroTimeout
        else if c.resolver.capacity = 0 then .error .zeroCapacity
        else if Text.isBlankText c.rules.path then .error .noRules
        else .ok ()

end Config

/-- What the command line can set in place of the configuration file. -/
structure Overrides where
  number? : Option UInt16 := none
  address? : Option String := none
  rules? : Option String := none
  resolver? : Option String := none
  level? : Option String := none
deriving DecidableEq, Repr

namespace Config

/-- The configuration with what the command line sets. -/
def override (c : Config) (o : Overrides) : Config where
  listen :=
    { number := o.number?.getD c.listen.number, address := o.address?.getD c.listen.address }
  resolver := { c.resolver with endpoint := o.resolver?.getD c.resolver.endpoint }
  rules := { c.rules with path := o.rules?.getD c.rules.path }
  log := { c.log with level := o.level?.getD c.log.level }

end Config

end DnsResponder
