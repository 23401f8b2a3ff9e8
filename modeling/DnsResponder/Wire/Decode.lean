import DnsResponder.Message
import DnsResponder.Wire.Chase

/-!
# Reading a message

The header comes first and says how many entries each section has. The sections
follow in a fixed order, and whatever stands behind the last record is ignored.

Record data is taken as it is. Names inside it are neither followed nor checked,
and a datagram is refused only for what its own layout says.
-/

namespace DnsResponder

namespace Reader

/-- Whether the bit with weight `weight` is set in `word`. -/
def flag (word weight : Nat) : Bool := decide (word / weight % 2 = 1)

/-- The header whose second word is `flags`. -/
def headerOf (id : UInt16) (flags : Nat) (questions answers authorities additionals : UInt16) :
    Header where
  id := id
  qr := flag flags 32768
  opcode := UInt8.ofNat (flags / 2048 % 16)
  aa := flag flags 1024
  tc := flag flags 512
  rd := flag flags 256
  ra := flag flags 128
  z := UInt8.ofNat (flags / 16 % 8)
  rcode := UInt8.ofNat (flags % 16)
  questionCount := questions
  answerCount := answers
  authorityCount := authorities
  additionalCount := additionals

/-- The fixed part of a message. -/
def header : Reader Header := do
  let id ← u16
  let flags ← u16
  let questions ← u16
  let answers ← u16
  let authorities ← u16
  let additionals ← u16
  return headerOf id flags.toNat questions answers authorities additionals

/-- One entry of the question section. -/
def question : Reader Question := do
  let name ← name
  let type ← u16
  let class_ ← u16
  return { name, type, class_ }

/-- One record. -/
def record : Reader Record := do
  let name ← name
  let type ← u16
  let class_ ← u16
  let ttl ← u32
  let declared ← u16
  let data ← bytes declared.toNat
  return { name, type, class_, ttl, declared, data }

/-- A whole message. -/
def message : Reader Message := do
  let header ← header
  let questions ← times question header.questionCount.toNat
  let answers ← times record header.answerCount.toNat
  let authorities ← times record header.authorityCount.toNat
  let additionals ← times record header.additionalCount.toNat
  return { header, questions, answers, authorities, additionals }

end Reader

/-- The message that a datagram holds. -/
def decode (datagram : Bytes) : Except DecodeError Message :=
  (Reader.message datagram 0).map Prod.fst

theorem decode_eq_ok_iff {d : Bytes} {m : Message} :
    decode d = .ok m ↔ ∃ stop, Reader.message d 0 = .ok (m, stop) := by
  unfold decode
  rcases Reader.message d 0 with e | ⟨m', stop⟩
  · simp [Except.map]
  · simp [Except.map]

theorem decode_eq_error_iff {d : Bytes} {e : DecodeError} :
    decode d = .error e ↔ Reader.message d 0 = .error e := by
  unfold decode
  rcases Reader.message d 0 with e' | found
  · simp [Except.map]
  · simp [Except.map]

end DnsResponder
