import DnsResponder.CommandLine
import DnsResponder.Startup

/-!
# The program

From its arguments to the moment at which it listens. Everything that ends the program
before that moment is an `Ending`: what it prints and the status with which it ends.
The status is 0 when it has done what it was asked for, 1 when it cannot start, and 2
when the arguments make no sense.
-/

namespace DnsResponder

/-- How the program ends. -/
structure Ending where
  status : Nat
  out : String := ""
  err : String := ""
deriving DecidableEq, Repr

namespace Program

/-- The name and version of the program. -/
def version : String := "ruledns 0.3.0\n"

/-- How the program is called. -/
def usage : String := "Usage: ruledns [OPTIONS]\n"

/-- What the options are. -/
def help : String := String.join [
  "ruledns - rule-driven DNS responder with upstream forwarding\n",
  "\n",
  usage,
  "\n",
  "Options:\n",
  "  -c, --config <FILE>          Configuration file path\n",
  "  -d, --dns-port <DNS_PORT>    DNS server port\n",
  "  -b, --bind <BIND>            Bind address\n",
  "  -r, --rules <FILE>           Rules file path\n",
  "  -u, --upstream <UPSTREAM>    Upstream resolver (IP:PORT) for queries no rule matches\n",
  "      --log-level <LOG_LEVEL>  Log level (trace, debug, info, warn, error)\n",
  "      --check                  Compile the rules file, report the result and exit\n",
  "  -h, --help                   Print help\n",
  "  -V, --version                Print version\n"]

/-- The program has printed what was asked for. -/
def done (out : String) : Ending := { status := 0, out }

/-- The program cannot start. -/
def refused (e : StartupError) : Ending := { status := 1, err := e.report }

/-- The arguments make no sense. -/
def misused (e : CommandLine.UsageError) : Ending :=
  { status := 2, err := s!"error: {e.message}\n\n{usage}\nFor more information, try '--help'.\n" }

/-- The report on rules without an error. -/
def approved (setup : Setup) : String :=
  s!"{setup.config.rules.path}: {setup.rules.size} rules OK\n"

/-- What becomes of the program. -/
inductive Launch where
  | ended (o : Ending)
  /-- It listens, and reports what it does from the given level on. -/
  | listening (here : Endpoint) (s : Service) (level : String)

/-- What the program does with options that make sense. -/
def start {m : Type → Type} [Monad m] (files : Files m) (net : Network) (o : CommandLine.Options) :
    m Launch := do
  match ← Setup.load files o.config? o.overrides with
  | .error e => return .ended (refused e)
  | .ok setup =>
      if o.check then return .ended (done (approved setup))
      match Service.ofSetup net setup with
      | .error e => return .ended (refused e)
      | .ok (here, s) => return .listening here s setup.config.log.level

/-- What the program does with its arguments. -/
def launch {m : Type → Type} [Monad m] (files : Files m) (net : Network) (arguments : List String) :
    m Launch :=
  match CommandLine.read arguments with
  | .error e => return .ended (misused e)
  | .ok .version => return .ended (done version)
  | .ok .help => return .ended (done help)
  | .ok (.run o) => start files net o

end Program

end DnsResponder
