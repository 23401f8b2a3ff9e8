import DnsResponder.Name.Basic
import DnsResponder.Registry

/-!
# Messages

A message is a header and four sections. The header states how long each section
is and a record states how long its data is. Both statements are kept as fields of
their own, because a message that was received says what its sender declared and a
message that is being built may declare anything; only writing it out insists that
the declarations are true.
-/

namespace DnsResponder

/-- The largest number that a sixteen-bit field holds. -/
def maxWord : Nat := 65535

/-- A length as a sixteen-bit field declares it, with everything too long shown as the maximum. -/
def declaredLength (n : Nat) : UInt16 := UInt16.ofNat (min n maxWord)

/--
The fixed part of a message.

`opcode` and `rcode` have four bits and `z` has three; writing drops wider values.
-/
structure Header where
  id : UInt16 := 0
  /-- Set in a response, clear in a query. -/
  qr : Bool := false
  opcode : UInt8 := 0
  aa : Bool := false
  tc : Bool := false
  /-- The client asks for recursion. -/
  rd : Bool := false
  ra : Bool := false
  z : UInt8 := 0
  rcode : UInt8 := 0
  questionCount : UInt16 := 0
  answerCount : UInt16 := 0
  authorityCount : UInt16 := 0
  additionalCount : UInt16 := 0
deriving DecidableEq, Inhabited

/-- What is asked: a name, a type and a class. -/
structure Question where
  name : Name
  type : UInt16
  class_ : UInt16
deriving DecidableEq, Inhabited

/-- A resource record. `declared` is the length of the data according to the record itself. -/
structure Record where
  name : Name
  type : UInt16
  class_ : UInt16
  ttl : UInt32
  declared : UInt16
  data : Bytes
deriving DecidableEq, Inhabited

/-- A record that declares its data as long as it is, up to the largest declarable length. -/
def Record.of (name : Name) (type class_ : UInt16) (ttl : UInt32) (data : Bytes) : Record :=
  { name, type, class_, ttl, declared := declaredLength data.size, data }

/-- A DNS message. -/
structure Message where
  header : Header := {}
  questions : List Question := []
  answers : List Record := []
  authorities : List Record := []
  additionals : List Record := []
deriving DecidableEq, Inhabited

namespace Message

/-- The question that gets answered; any further ones are carried along. -/
def firstQuestion? (m : Message) : Option Question := m.questions.head?

/-- The records of all sections, in the order in which they are written. -/
def records (m : Message) : List Record := m.answers ++ m.authorities ++ m.additionals

/-- The message with the section lengths declared in its header. -/
def withCounts (m : Message) : Message :=
  { m with
    header := { m.header with
      questionCount := declaredLength m.questions.length
      answerCount := declaredLength m.answers.length
      authorityCount := declaredLength m.authorities.length
      additionalCount := declaredLength m.additionals.length } }

/-- A reply to `query`: its id, opcode, recursion bit and questions, with the given code and answers. -/
def reply (query : Message) (rcode : UInt8) (answers : List Record) : Message :=
  withCounts
    { header :=
        { id := query.header.id, qr := true, opcode := query.header.opcode, rd := query.header.rd,
          rcode }
      questions := query.questions
      answers }

/-- A reply without answers. -/
def errorReply (query : Message) (code : ResponseCode) : Message := query.reply code.code []

end Message

end DnsResponder
