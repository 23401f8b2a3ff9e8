import DnsResponder.Decimal
import DnsResponder.Name.Dotted

/-!
# IPv4 addresses

An address is four octets and is written as four decimal numbers with dots between
them. Each number has one way to be written: no sign, no leading zero, at most 255.
So every address has exactly one text, and every other text is refused.
-/

namespace DnsResponder

/-- An IPv4 address. -/
structure Ipv4 where
  a : UInt8
  b : UInt8
  c : UInt8
  d : UInt8
deriving DecidableEq, Repr, Inhabited

namespace Ipv4

/-- The four octets, in the order in which they are written and sent. -/
def octets (x : Ipv4) : Bytes := #[x.a, x.b, x.c, x.d]

/-- Reads the text of an address. -/
def ofChars? (cs : List Char) : Option Ipv4 :=
  match Dotted.pieces cs with
  | [a, b, c, d] => do
      return ⟨← Decimal.octet? a, ← Decimal.octet? b, ← Decimal.octet? c, ← Decimal.octet? d⟩
  | _ => none

/-- The text of an address. -/
def text (x : Ipv4) : String := s!"{x.a.toNat}.{x.b.toNat}.{x.c.toNat}.{x.d.toNat}"

end Ipv4

instance : ToString Ipv4 := ⟨Ipv4.text⟩

end DnsResponder
