import DnsResponder.Line
import DnsResponder.Program

/-!
# The command

`main` reads the files that the program asks for, prints what it has to say, and then
passes lines to the service for as long as lines come in. The sweeper gets its tick
before each of them.
-/

namespace DnsResponder

/-- What the host means by an error. Some hosts give the negative of its number. -/
def hostError (e : IO.Error) : HostError :=
  let number (code : UInt32) : Nat := if code < 0x80000000 then code.toNat else 0x100000000 - code.toNat
  match e with
  | .noFileOrDirectory .. => .notFound
  | .inappropriateType _ code _ => if number code = 20 then .notDirectory else .isDirectory
  | .invalidArgument _ code _ => if number code = 36 then .nameTooLong else .invalidArgument
  | other => .other (toString other)

/-- The files on the disk. -/
def disk : Files IO where
  read path := do
    if path.toList.contains '\x00' then return .error .zeroInPath
    try
      return .ok (← IO.FS.readBinFile path).data
    catch e =>
      return .error (hostError e)

/-- Passes lines to the service until none is left. -/
partial def serve (least : Level) (s : Service) : IO Unit := do
  let line ← (← IO.getStdin).getLine
  if line.isEmpty then return
  let now ← IO.monoMsNow
  let swept := s.step Network.connected now .tick
  let turn := match Arrival.ofLine? line.trimAscii.toString with
    | some arrival => swept.state.step Network.connected now arrival
    | none => ⟨[], swept.state, []⟩
  for e in swept.events ++ turn.events do
    if least.rank ≤ e.level.rank then IO.eprintln e.report
  for d in turn.answer do
    IO.println (d.line s.resolver)
  (← IO.getStdout).flush
  serve least turn.state

end DnsResponder

open DnsResponder in
/-- Runs the program. -/
def main (arguments : List String) : IO UInt32 := do
  match ← Program.launch disk Network.connected arguments with
  | .ended e =>
      IO.print e.out
      IO.eprint e.err
      return UInt32.ofNat e.status
  | .listening _ s level =>
      serve (Level.ofName level) s
      return 0
