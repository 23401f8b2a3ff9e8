import DnsResponder.Net.Ipv6

/-!
# Endpoints

An endpoint is where datagrams come from and go to: an address and a number that
picks one socket at that address. An IPv6 endpoint may also name the scope in which
its address holds.

The text of an endpoint is the address, a colon and the number, with an IPv6 address
in brackets. The number may have leading zeros; nothing may stand in front of the
text or behind it.
-/

namespace DnsResponder

/-- Where datagrams come from and go to. -/
inductive Endpoint where
  | v4 (address : Ipv4) (number : UInt16)
  | v6 (address : Ipv6) (scope : UInt32) (number : UInt16)
deriving DecidableEq

namespace Endpoint

/-- The number that picks the socket. -/
def number : Endpoint → UInt16
  | v4 _ n => n
  | v6 _ _ n => n

/-- Reads a decimal number up to `limit`, leading zeros allowed, and answers with what follows it. -/
def readNumber? (limit : Nat) (cs : List Char) : Option (Nat × List Char) :=
  let digits := cs.takeWhile Decimal.isDigit
  let n := Decimal.value digits
  if digits ≠ [] ∧ n ≤ limit then some (n, cs.drop digits.length) else none

/-- Reads a colon and a socket number, with nothing behind them. -/
def readSocket? : List Char → Option UInt16
  | ':' :: cs =>
      match readNumber? 65535 cs with
      | some (n, []) => some (UInt16.ofNat n)
      | _ => none
  | _ => none

/-- Reads a scope, if there is one; without one it is zero. -/
def readScope (cs : List Char) : Nat × List Char :=
  match cs with
  | '%' :: rest => (readNumber? 4294967295 rest).getD (0, cs)
  | _ => (0, cs)

/-- Reads the text of an endpoint with an IPv4 address. -/
def ofCharsV4? (cs : List Char) : Option Endpoint := do
  let address := cs.takeWhile fun c => Decimal.isDigit c || c = '.'
  return .v4 (← Ipv4.ofChars? address) (← readSocket? (cs.drop address.length))

/-- Reads the text of an endpoint with an IPv6 address. -/
def ofCharsV6? : List Char → Option Endpoint
  | '[' :: cs => do
      let (address, rest) ← Ipv6.read? cs
      let (scope, rest) := readScope rest
      match rest with
      | ']' :: rest => return .v6 address (UInt32.ofNat scope) (← readSocket? rest)
      | _ => none
  | _ => none

/-- Reads the text of an endpoint. -/
def ofText? (text : String) : Option Endpoint :=
  (ofCharsV4? text.toList).or (ofCharsV6? text.toList)

/-- The text of an endpoint. -/
def text : Endpoint → String
  | v4 address n => s!"{address.text}:{n.toNat}"
  | v6 address scope n =>
      if scope = 0 then s!"[{address.text}]:{n.toNat}"
      else s!"[{address.text}%{scope.toNat}]:{n.toNat}"

/-- What is said about text that is no endpoint. -/
def syntaxComplaint : String := "invalid socket address syntax"

end Endpoint

instance : ToString Endpoint := ⟨Endpoint.text⟩

end DnsResponder
