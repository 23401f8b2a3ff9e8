import DnsResponder.Config.Load
import DnsResponder.Rule.Grammar
import DnsResponder.Service

/-!
# Starting

Before the responder answers anything it reads its configuration and its rules. Either
all of that succeeds or the responder does not start: it never runs with a part of its
rules.

What stops it is reported as a headline, often with the cause behind it. The report
has two forms: on one line, with a colon in front of the cause, and on several lines,
with the cause set in.
-/

namespace DnsResponder

/-- Why the responder does not start. -/
inductive StartupError where
  | config (e : ConfigError)
  | rulesUnread (path : String) (e : HostError)
  | rulesRefused (path : String) (e : RuleError)
  /-- The text of where to listen is no endpoint. -/
  | badListen (text : String)
  | host (e : HostError)

namespace StartupError

/-- What happened. -/
def headline : StartupError → String
  | config e => e.message
  | rulesUnread path _ => s!"Failed to read rules file {path}"
  | rulesRefused path _ => s!"Failed to compile rules file {path}"
  | badListen text => s!"Invalid listen address {text}"
  | host e => e.message

/-- Why it happened, where the headline does not say so itself. -/
def cause? : StartupError → Option String
  | rulesUnread _ e => some e.message
  | rulesRefused _ e => some e.message
  | badListen _ => some Endpoint.syntaxComplaint
  | config _ | host _ => none

/-- Headline and cause on one line. -/
def message (e : StartupError) : String :=
  match e.cause? with
  | some cause => s!"{e.headline}: {cause}"
  | none => e.headline

/-- What a line is set in by. -/
def margin : List Char := "    ".toList

/-- A text with every line set in. -/
def setIn (text : String) : String :=
  String.ofList (margin ++ text.toList.flatMap fun c => if c = '\n' then c :: margin else [c])

/-- Headline and cause on lines of their own. -/
def report (e : StartupError) : String :=
  match e.cause? with
  | some cause => s!"Error: {e.headline}\n\nCaused by:\n{setIn cause}\n"
  | none => s!"Error: {e.headline}\n"

end StartupError

/-- What the responder starts with. -/
structure Setup where
  config : Config
  rules : RuleTable

namespace Setup

variable {m : Type → Type} [Monad m]

/-- Reads the configuration and finds it sensible. -/
def loadConfig (files : Files m) (path? : Option String) (o : Overrides) :
    m (Except StartupError Config) := do
  match ← Config.load files path? o with
  | .error e => return .error (.config e)
  | .ok config =>
      match config.validate with
      | .error fault => return .error (.config (.invalid fault))
      | .ok () => return .ok config

/-- Reads the rules. -/
def loadRules (files : Files m) (path : String) : m (Except StartupError RuleTable) := do
  match ← files.readText path with
  | .error e => return .error (.rulesUnread path e)
  | .ok source => return (RuleTable.ofText source).mapError (.rulesRefused path)

/-- Reads everything that the responder starts with. -/
def load (files : Files m) (path? : Option String) (o : Overrides) :
    m (Except StartupError Setup) := do
  match ← loadConfig files path? o with
  | .error e => return .error e
  | .ok config =>
      match ← loadRules files config.rules.path with
      | .error e => return .error e
      | .ok rules => return .ok { config, rules }

end Setup

/-- The service that a setup makes, and the endpoint at which it listens. -/
def Service.ofSetup (net : Network) (setup : Setup) : Except StartupError (Endpoint × Service) :=
  let settings := setup.config.resolver
  match settings.resolved with
  | .error fault => .error (.config (.invalid fault))
  | .ok resolver =>
      match setup.config.listen.endpoint? with
      | none => .error (.badListen setup.config.listen.text)
      | some listen =>
          match net.listen listen with
          | .error e => .error (.host e)
          | .ok () =>
              .ok (listen, {
                responder := { rules := setup.rules, ttl := setup.config.rules.ttl }
                resolver
                pending :=
                  { timeout := settings.timeoutMillis, capacity := settings.capacity.toNat } })

end DnsResponder
