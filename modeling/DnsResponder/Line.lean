import DnsResponder.Service

/-!
# Datagrams as lines of text

The service is driven over its standard streams, and whatever owns the sockets passes
datagrams on as lines. A line that comes in holds a word for the socket, `query` for
the one that clients send to and `reply` for the one that the resolver sends to, then
the sender's endpoint, then the octets in hexadecimal digits. A line that goes out
holds `client` or `resolver`, the receiver's endpoint, and the octets.
-/

namespace DnsResponder

namespace Line

/-- Reads octets, where `read` are those read already. -/
def octetsFrom (read : Bytes) : List Char → Option Bytes
  | [] => some read
  | [_] => none
  | high :: low :: rest => do
      octetsFrom (read.push (UInt8.ofNat ((← Text.hexValue? high) * 16 + (← Text.hexValue? low)))) rest

/-- Reads octets. -/
def octets? (text : String) : Option Bytes := octetsFrom #[] text.toList

/-- Octets as text. -/
def text (octets : Bytes) : String := String.join (octets.toList.map Text.hex)

end Line

/-- Reads the line of a datagram that arrives. -/
def Arrival.ofLine? (line : String) : Option Arrival :=
  match (line.splitOn " ").filter (· ≠ "") with
  | ["query", client, octets] => do return .query (← Endpoint.ofText? client) (← Line.octets? octets)
  | ["reply", source, octets] => do return .reply (← Endpoint.ofText? source) (← Line.octets? octets)
  | _ => none

/-- The line of a datagram that departs, where `resolver` is the resolver. -/
def Departure.line (resolver : Endpoint) : Departure → String
  | .toClient client datagram => s!"client {client} {Line.text datagram}"
  | .toResolver datagram => s!"resolver {resolver} {Line.text datagram}"

end DnsResponder
