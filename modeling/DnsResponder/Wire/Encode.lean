import DnsResponder.Message
import DnsResponder.Name.Dotted
import DnsResponder.Wire.Writer

/-!
# Writing a message

A message can be written exactly when its declarations are true: the header counts
each section as it is, and each record gives the length that its data has. Nothing
is repaired. A message that passes is written field by field in the order in which
it is read.
-/

namespace DnsResponder

/-- The four sections of a message. -/
inductive MessageSection where
  | question | answer | authority | additional
deriving DecidableEq, Repr

/-- The name of a section in reports. -/
def MessageSection.text : MessageSection → String
  | question => "question"
  | answer => "answer"
  | authority => "authority"
  | additional => "additional"

/-- Which declaration of a message is false. -/
inductive EncodeError where
  /-- A record declares another length than its data has. -/
  | dataLength (name : Name) (declared : UInt16) (actual : Nat)
  /-- The header declares another length than a section has. -/
  | sectionCount (which : MessageSection) (declared : UInt16) (actual : Nat)
deriving DecidableEq

/-- What is wrong with the message, in words. -/
def EncodeError.message : EncodeError → String
  | dataLength name declared actual =>
      s!"Record '{name}' declares rdlength {declared.toNat} but carries {actual} bytes of rdata"
  | sectionCount which declared actual =>
      s!"Header {which.text} count is {declared.toNat} but the section holds {actual} entries"

namespace Record

/-- Whether the record gives the length that its data has. -/
def Honest (r : Record) : Prop := r.declared.toNat = r.data.size

instance (r : Record) : Decidable r.Honest :=
  inferInstanceAs (Decidable (r.declared.toNat = r.data.size))

/-- Passes a record whose declaration is true. -/
def check (r : Record) : Except EncodeError Unit :=
  if r.Honest then .ok () else .error (.dataLength r.name r.declared r.data.size)

end Record

/-- Passes a section whose count in the header is true. -/
def checkCount (which : MessageSection) (declared : UInt16) (actual : Nat) :
    Except EncodeError Unit :=
  if declared.toNat = actual then .ok () else .error (.sectionCount which declared actual)

/-- Passes a message whose declarations are all true, and else names the first false one. -/
def Message.check (m : Message) : Except EncodeError Unit := do
  checkCount .question m.header.questionCount m.questions.length
  checkCount .answer m.header.answerCount m.answers.length
  checkCount .authority m.header.authorityCount m.authorities.length
  checkCount .additional m.header.additionalCount m.additionals.length
  m.records.forM Record.check

/-- `weight` where the flag is set. -/
def flagWeight (set : Bool) (weight : Nat) : Nat := if set then weight else 0

/-- The second word of a header. -/
def Header.flags (h : Header) : Nat :=
  flagWeight h.qr 32768 + h.opcode.toNat % 16 * 2048 + flagWeight h.aa 1024 + flagWeight h.tc 512
    + flagWeight h.rd 256 + flagWeight h.ra 128 + h.z.toNat % 8 * 16 + h.rcode.toNat % 16

namespace Writer

/-- Appends the fixed part of a message. -/
def header (w : Writer) (h : Header) : Writer :=
  (((((w.u16 h.id).u16 (UInt16.ofNat h.flags)).u16 h.questionCount).u16 h.answerCount).u16
    h.authorityCount).u16 h.additionalCount

/-- Appends an entry of the question section. -/
def question (compress : Bool) (w : Writer) (q : Question) : Writer :=
  ((w.name compress q.name).u16 q.type).u16 q.class_

/-- Appends a record. -/
def record (compress : Bool) (w : Writer) (r : Record) : Writer :=
  (((((w.name compress r.name).u16 r.type).u16 r.class_).u32 r.ttl).u16 r.declared).data r.data

/-- Appends a whole message. -/
def message (compress : Bool) (w : Writer) (m : Message) : Writer :=
  m.records.foldl (record compress) (m.questions.foldl (question compress) (w.header m.header))

end Writer

/-- The datagram that holds `m`, with repeated names replaced by pointers if `compress` is set. -/
def encode (compress : Bool) (m : Message) : Except EncodeError Bytes := do
  m.check
  return (Writer.message compress {} m).bytes

end DnsResponder
