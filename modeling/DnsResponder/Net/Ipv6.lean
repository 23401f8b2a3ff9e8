import DnsResponder.Net.Ipv4

/-!
# IPv6 addresses

An address is eight groups of sixteen bits. It is written as the groups in
hexadecimal with colons between them. Two colons in a row may stand, once, for one
or more groups that are zero, and the last two groups may be written as an IPv4
address.

There are many texts for one address, and one of them is how it is shown: no
leading zeros, lower case, the longest row of at least two zero groups left out (the
first of several longest), and an IPv4 address in its usual form behind `::ffff:`.
-/

namespace DnsResponder

namespace Hexadecimal

/-- The value of a hexadecimal digit of either case. -/
def digit? (c : Char) : Option Nat :=
  let n := c.toNat
  if 48 ≤ n ∧ n ≤ 57 then some (n - 48)
  else if 97 ≤ n ∧ n ≤ 102 then some (n - 87)
  else if 65 ≤ n ∧ n ≤ 70 then some (n - 55)
  else none

/-- The number that a row of hexadecimal digits stands for. -/
def value (cs : List Char) : Nat := cs.foldl (fun n c => n * 16 + (digit? c).getD 0) 0

end Hexadecimal

/-- An IPv6 address, as its eight groups. -/
structure Ipv6 where
  groups : List UInt16
  length_eq : groups.length = 8
deriving DecidableEq

namespace Ipv6

/-- The address with the given groups, if there are eight of them. -/
def ofGroups? (groups : List UInt16) : Option Ipv6 :=
  if h : groups.length = 8 then some ⟨groups, h⟩ else none

/-! ## Reading -/

/-- What follows the colon ahead, which the first group of a row does without. -/
def afterColon? (first : Bool) (cs : List Char) : Option (List Char) :=
  if first then some cs
  else
    match cs with
    | ':' :: rest => some rest
    | _ => none

/-- Reads a group of one to four hexadecimal digits. -/
def group? (first : Bool) (cs : List Char) : Option (UInt16 × List Char) := do
  let cs ← afterColon? first cs
  let digits := cs.takeWhile fun c => (Hexadecimal.digit? c).isSome
  if digits ≠ [] ∧ digits.length ≤ 4 then
    some (UInt16.ofNat (Hexadecimal.value digits), cs.drop digits.length)
  else none

/-- Reads an IPv4 address that stands for two groups. -/
def embedded? (first : Bool) (cs : List Char) : Option (List UInt16 × List Char) := do
  let cs ← afterColon? first cs
  let digits := cs.takeWhile fun c => Decimal.isDigit c || c = '.'
  let x ← Ipv4.ofChars? digits
  some
    ([UInt16.ofNat (x.a.toNat * 256 + x.b.toNat), UInt16.ofNat (x.c.toNat * 256 + x.d.toNat)],
      cs.drop digits.length)

/--
Reads as many groups as there are, up to the given number. An IPv4 address needs room
for two, and nothing follows it; the answer says whether there was one.
-/
def readGroups : Nat → Bool → List Char → List UInt16 × Bool × List Char
  | 0, _, cs => ([], false, cs)
  | room + 1, first, cs =>
      match if room = 0 then none else embedded? first cs with
      | some (gs, rest) => (gs, true, rest)
      | none =>
          match group? first cs with
          | some (g, rest) =>
              let (gs, embedded, rest) := readGroups room false rest
              (g :: gs, embedded, rest)
          | none => ([], false, cs)

/-- Reads an address and answers with what follows it. -/
def read? (cs : List Char) : Option (Ipv6 × List Char) := do
  let (front, embedded, rest) := readGroups 8 true cs
  if front.length = 8 then
    return (← ofGroups? front, rest)
  else if embedded then none
  else
    match rest with
    | ':' :: ':' :: rest =>
        let (back, _, rest) := readGroups (7 - front.length) true rest
        let zeros := List.replicate (8 - front.length - back.length) 0
        return (← ofGroups? (front ++ zeros ++ back), rest)
    | _ => none

/-! ## Showing -/

/-- A group in hexadecimal, without leading zeros. -/
def groupText (g : UInt16) : String := String.ofList (Nat.toDigits 16 g.toNat)

/-- Groups with colons between them. -/
def groupsText (gs : List UInt16) : String := ":".intercalate (gs.map groupText)

/-- A row of zero groups: where it starts, and how long it is. -/
structure ZeroRow where
  start : Nat := 0
  length : Nat := 0

/-- Scans the groups from place `i` on, with the row that ends there and the longest row so far. -/
def longestZeros (i : Nat) (current longest : ZeroRow) : List UInt16 → ZeroRow
  | [] => longest
  | g :: gs =>
      if g = 0 then
        let current : ZeroRow :=
          if current.length = 0 then ⟨i, 1⟩ else ⟨current.start, current.length + 1⟩
        longestZeros (i + 1) current (if longest.length < current.length then current else longest) gs
      else longestZeros (i + 1) {} longest gs

/-- The text in which an address is shown. -/
def text (x : Ipv6) : String :=
  match x.groups with
  | [0, 0, 0, 0, 0, 65535, hi, lo] =>
      let octet (n : Nat) : UInt8 := UInt8.ofNat n
      let v4 : Ipv4 :=
        ⟨octet (hi.toNat / 256), octet (hi.toNat % 256), octet (lo.toNat / 256),
          octet (lo.toNat % 256)⟩
      s!"::ffff:{v4.text}"
  | gs =>
      let row := longestZeros 0 {} {} gs
      if 1 < row.length then
        groupsText (gs.take row.start) ++ "::" ++ groupsText (gs.drop (row.start + row.length))
      else groupsText gs

end Ipv6

instance : ToString Ipv6 := ⟨Ipv6.text⟩

end DnsResponder
