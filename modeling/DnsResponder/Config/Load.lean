import DnsResponder.Config.Decode
import DnsResponder.Host

/-!
# Finding the configuration

A configuration comes from the file that is asked for, else from the file in the
working directory, else from the file of the system, else from nowhere, and then every
setting is as it is when nobody sets it. A file that is asked for has to be there. What
the command line sets comes on top, wherever the rest came from.
-/

namespace DnsResponder

/-- Why there is no configuration. -/
inductive ConfigError where
  | unread (path : String) (cause : HostError)
  | malformed (cause : ConfigSyntaxError)
  | invalid (fault : ConfigFault)
deriving DecidableEq, Repr

/-- The error in words. -/
def ConfigError.message : ConfigError → String
  | unread path cause => s!"Failed to read config file {path}: {cause.message}"
  | malformed cause => s!"Failed to parse config: {cause.message}"
  | invalid fault => s!"Configuration validation error: {fault.message}"

namespace Config

/-- The file in the working directory. -/
def localPath : String := "ruledns.toml"

/-- The file of the system. -/
def systemPath : String := "/etc/ruledns/config.toml"

variable {m : Type → Type} [Monad m]

/-- The file that is taken when none is asked for. -/
def found? (files : Files m) : m (Option String) := do
  if ← files.exists? localPath then return some localPath
  if ← files.exists? systemPath then return some systemPath
  return none

/-- Reads the configuration in a file. -/
def ofFile (files : Files m) (path : String) : m (Except ConfigError Config) := do
  match ← files.readText path with
  | .error e => return .error (.unread path e)
  | .ok text => return (ofText text).mapError .malformed

/-- Reads the configuration in the file that is asked for, or in the one that is found. -/
def base (files : Files m) (path? : Option String) : m (Except ConfigError Config) := do
  match path? with
  | some path => ofFile files path
  | none =>
      match ← found? files with
      | some path => ofFile files path
      | none => return .ok {}

/-- Reads a configuration and puts what the command line sets on top. -/
def load (files : Files m) (path? : Option String) (o : Overrides) :
    m (Except ConfigError Config) := do
  return (← base files path?).map (·.override o)

end Config

end DnsResponder
