import DnsResponder.Name.Dotted
import DnsResponder.Net.Ipv4
import DnsResponder.Rule.Parser
import DnsResponder.Rule.Table

/-!
# The grammar of rule source

```text
rules    = rule* end
rule     = TYPE NAME CLASS "->" response
response = "-" | TYPE value CLASS
```

The type in a response decides how its value is read. An `A` value is an IPv4
address. The values of `CNAME` and `TXT` are taken as they are written, a `CNAME`
target included. An `AAAA` value is refused, and every other type is refused before
its value is looked at.

One error rejects the whole source: a table holds every rule of its source or does
not exist.
-/

namespace DnsResponder

namespace Grammar

open DnsResponder.Parser

/-- The record type that a token names. -/
def typeOf (token : Token) : Except RuleError RecordType :=
  match RecordType.ofMnemonic? token.value with
  | some t => .ok t
  | none => .error (.unknownMnemonic .type token.value token.start)

/-- The record class that a token names. -/
def classOf (token : Token) : Except RuleError RecordClass :=
  match RecordClass.ofMnemonic? token.value with
  | some c => .ok c
  | none => .error (.unknownMnemonic .recordClass token.value token.start)

/-- The domain name that a token spells. -/
def nameOf (token : Token) : Except RuleError Name :=
  match Name.ofText token.value with
  | .ok n => .ok n
  | .error e => .error (.badName token.value e token.start)

/-- The octets of the IPv4 address that a token spells. -/
def ipv4Of (token : Token) : Except RuleError Bytes :=
  match Ipv4.ofChars? token.value.toList with
  | some x => .ok x.octets
  | none => .error (.badIpv4 token.value token.start)

/-- A record type. -/
def recordType : Parser RecordType := tryMap typeOf (expect .text)

/-- A record class. -/
def recordClass : Parser RecordClass := tryMap classOf (expect .text)

/-- A domain name. -/
def domainName : Parser Name := tryMap nameOf (expect .text)

/-- The value of a response of type `type`, where the type itself was written at `offset`. -/
def value (type : RecordType) (offset : Nat) : Parser Bytes :=
  match type with
  | .a => tryMap ipv4Of (expect .text)
  | .aaaa => tryMap (fun token => .error (.ipv6 token.value token.start)) (expect .text)
  | .cname | .txt => map (fun token => token.value.toUTF8.data) (expect .text)
  | other => fail (.unusableType other.mnemonic offset)

/-- A response type with its value. -/
def typedValue : Parser (RecordType × Bytes) :=
  andThen
    (fun token =>
      match typeOf token with
      | .ok type => map (fun data => (type, data)) (value type token.start)
      | .error e => fail e)
    (expect .text)

/-- The response that answers with a record. -/
def found : Parser Response :=
  map (fun ((type, data), class_) => .found type.code class_.code data)
    (pair typedValue recordClass)

/-- The response that answers with none. -/
def refusal : Parser Response := map (fun _ => Response.refusal) (expect .dash)

/-- A response. -/
def response : Parser Response := oneOf [refusal, found]

/-- The question that a rule is for. -/
def subject : Parser ((RecordType × Name) × RecordClass) :=
  pair (pair recordType domainName) recordClass

/-- A rule. -/
def rule : Parser Rule :=
  map
    (fun (((type, name), class_), (_, response)) =>
      { name, type := type.code, class_ := class_.code, response })
    (pair subject (pair (expect .arrow) response))

/-- All rules of a source. -/
def rules : Parser RuleTable := map (fun (rules, _) => ⟨rules⟩) (pair (repeatUntil rule .eof) (expect .eof))

end Grammar

/-- The rules that a source holds. -/
def RuleTable.ofText (source : String) : Except RuleError RuleTable := Grammar.rules.run source

end DnsResponder
