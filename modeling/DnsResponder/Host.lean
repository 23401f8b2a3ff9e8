import DnsResponder.Net.Endpoint

/-!
# The host

What the responder needs from the machine that it runs on is little: to read a file,
to listen at an endpoint, and to send a datagram. Each may be refused, and a refusal
carries the text by which the host knows it.

`Files` reads files in any monad, so that the same code reads them from a disk and
from a value that stands for one. A `Network` says at which endpoints the host listens
and which datagrams it takes. It is an argument wherever something is sent, so that
the behaviour on a network that takes everything and on one that takes nothing can be
told apart.
-/

namespace DnsResponder

/-- Why the host refused something. -/
inductive HostError where
  | notFound
  | isDirectory
  | notDirectory
  | nameTooLong
  | invalidArgument
  | networkUnreachable
  /-- The address to listen at is none of the host's own. -/
  | foreignAddress
  /-- A file that is to be read as text is not UTF-8. -/
  | notUtf8
  /-- A path holds a zero character. -/
  | zeroInPath
  /-- Any other refusal, in the host's words. -/
  | other (text : String)
deriving DecidableEq, Repr

/-- The refusal in words. -/
def HostError.message : HostError → String
  | notFound => "No such file or directory (os error 2)"
  | isDirectory => "Is a directory (os error 21)"
  | notDirectory => "Not a directory (os error 20)"
  | nameTooLong => "File name too long (os error 36)"
  | invalidArgument => "Invalid argument (os error 22)"
  | foreignAddress => "Cannot assign requested address (os error 99)"
  | networkUnreachable => "Network is unreachable (os error 101)"
  | notUtf8 => "stream did not contain valid UTF-8"
  | zeroInPath => "file name contained an unexpected NUL byte"
  | other text => text

/-- Whether a refusal to read says that nothing is there to be read. -/
def HostError.isAbsence : HostError → Bool
  | notFound | notDirectory | nameTooLong | zeroInPath => true
  | _ => false

/-- The files of the host. -/
structure Files (m : Type → Type) where
  /-- Reads a whole file. -/
  read : String → m (Except HostError Bytes)

namespace Files

variable {m : Type → Type} [Monad m]

/-- Whether there is anything at a path, be it a file or not. -/
def exists? (files : Files m) (path : String) : m Bool := do
  match ← files.read path with
  | .ok _ => return true
  | .error e => return !e.isAbsence

/-- Reads a whole file as text. -/
def readText (files : Files m) (path : String) : m (Except HostError String) := do
  match ← files.read path with
  | .error e => return .error e
  | .ok bytes =>
      match String.fromUTF8? ⟨bytes⟩ with
      | some text => return .ok text
      | none => return .error .notUtf8

end Files

/-- At which endpoints the host listens, and which datagrams it takes. -/
structure Network where
  /-- Opens a socket at the given endpoint, or refuses to. -/
  listen : Endpoint → Except HostError Unit
  /-- Takes a datagram for the given endpoint, or refuses it. -/
  send : Endpoint → Except HostError Unit

namespace Network

/-- A network that listens everywhere, and that reaches every endpoint except those with the socket number zero, which is none. -/
def connected : Network where
  listen _ := .ok ()
  send e := if e.number = 0 then .error .invalidArgument else .ok ()

/-- Whether an address is one that every host has: its own, or the one that means all of its addresses. -/
def isOwn : Endpoint → Bool
  | .v4 x _ => x.a == 127 || x.octets == #[0, 0, 0, 0]
  | .v6 x _ _ => x.text == "::" || x.text == "::1"

/-- A network without any route. The host listens at the addresses that every host has. -/
def unrouted : Network where
  listen e := if isOwn e then .ok () else .error .foreignAddress
  send _ := .error .networkUnreachable

end Network

end DnsResponder
