import DnsResponder.Decimal
import DnsResponder.Text

/-!
# TOML numbers

Integers are written in base ten with an optional sign, or in base sixteen, eight or
two behind `0x`, `0o` or `0b` and without one. Between any two digits an underscore
may stand. A number in base ten has no leading zero.

What is written like a number is judged twice. A text of another form is no TOML. A
text of the right form may still stand for no number, and that matters only where
the number is asked for. The form is the wider of the two:

* it says nothing about size, while an integer has at most 128 bits and no other
  number lies beyond the largest finite double;
* `0x`, `0o` and `0b` have it with no digit behind them;
* from the first underscore of an integer in base ten on, it is only about what
  stands beside an underscore, and there a digit in base sixteen will do.

The digits of an exponent are counted up to the first few that make more than 65535,
and those behind them are passed over, so an exponent is always small.
-/

namespace DnsResponder

namespace Toml

/-- Whether `c` is a digit in the given base. -/
def isDigitIn (base : Nat) (c : Char) : Bool :=
  match Text.hexValue? c with
  | some d => decide (d < base)
  | none => false

/-- Whether `cs` is one or more digits in the given base, with at most one underscore between any two. -/
def isDigits (base : Nat) : List Char → Bool
  | [] => false
  | [c] => isDigitIn base c
  | c :: '_' :: cs => isDigitIn base c && isDigits base cs
  | c :: cs => isDigitIn base c && isDigits base cs

/-- The number that digits in the given base stand for, underscores aside. -/
def digitsValue (base : Nat) (cs : List Char) : Nat :=
  cs.foldl (fun n c => if c = '_' then n else n * base + (Text.hexValue? c).getD 0) 0

/-- Whether `cs` is the text of a natural number in base ten. -/
def isWhole (cs : List Char) : Bool :=
  isDigits 10 cs && (cs.head? != some '0' || cs.length == 1)

/-- The sign at the front of a text, and what is behind it. -/
def unsigned : List Char → Option Char × List Char
  | '-' :: cs => (some '-', cs)
  | '+' :: cs => (some '+', cs)
  | cs => (none, cs)

/-- What a text in the form of a number stands for. -/
inductive Numeral where
  | integer (n : Int)
  /-- A number with a fraction or an exponent, which is left as it is written. -/
  | float
  | nothing
deriving DecidableEq, Repr

/-! ## Integers -/

/-- The integer behind a sign, if it has at most 128 bits. -/
def Numeral.ofInt (n : Int) : Numeral :=
  if (if n < 0 then n.natAbs ≤ Nat.pow 2 127 else n.natAbs < Nat.pow 2 128) then .integer n
  else .nothing

/-- What the characters behind a sign stand for as digits in the given base, underscores aside. -/
def Numeral.ofDigits (base : Nat) (sign? : Option Char) (cs : List Char) : Numeral :=
  let digits := cs.filter (· != '_')
  let n : Int := digitsValue base digits
  if digits.isEmpty || !digits.all (isDigitIn base) then .nothing
  else .ofInt (if sign? = some '-' then -n else n)

/-- Reads the digits behind `0x`, `0o` or `0b`, of which there may be none. -/
def based? (base : Nat) (cs : List Char) : Option Numeral :=
  if cs.isEmpty || isDigits base cs then some (.ofDigits base none cs) else none

/-- Whether a digit in base sixteen is on either side of every underscore; `before` tells of the front. -/
def barsHaveDigits (before : Bool) : List Char → Bool
  | [] => true
  | c :: cs =>
      (c != '_' || (before && (cs.head?.map (isDigitIn 16)).getD false)) &&
        barsHaveDigits (isDigitIn 16 c) cs

/-- Whether `cs` has the form of an integer in base ten that has underscores, its sign aside. -/
def isBarred (cs : List Char) : Bool :=
  let behind := cs.dropWhile Decimal.isDigit
  behind.head? == some '_' && cs.head? != some '0' && barsHaveDigits false cs &&
    !behind.any fun c => c == ' ' || c == '.' || c == 'e' || c == 'E'

/-! ## Other numbers -/

/-- A number that is no integer: the integer `digits` times a power of ten. -/
structure Scaled where
  digits : Nat
  exponent : Int

/-- The least number that is nearer to the next power of two than to the largest finite double. -/
def doubleLimit : Nat := Nat.pow 2 1024 - Nat.pow 2 970

/-- Whether the number lies beyond the largest finite double. -/
def Scaled.tooLarge (x : Scaled) : Bool :=
  let places : Int := (Nat.toDigits 10 x.digits).length + x.exponent
  if x.digits = 0 ∨ places < 300 then false
  else if 320 < places then true
  else if x.exponent < 0 then decide (doubleLimit * Nat.pow 10 x.exponent.natAbs ≤ x.digits)
  else decide (doubleLimit ≤ x.digits * Nat.pow 10 x.exponent.natAbs)

/-- The most that the front of an exponent may stand for if the next digit is to count. -/
def exponentLimit : Nat := 65535

/-- The number that the digits of an exponent stand for, of which those too far behind do not count. -/
def exponentValue (cs : List Char) : Nat :=
  (cs.filter (· != '_')).foldl
    (fun n c => if n ≤ exponentLimit then n * 10 + (Text.hexValue? c).getD 0 else n) 0

/-- Reads an exponent with its letter; nothing at all is the exponent zero. -/
def exponent? : List Char → Option Int
  | [] => some 0
  | c :: cs =>
      let (sign?, digits) := unsigned cs
      let n : Int := exponentValue digits
      if (c = 'e' ∨ c = 'E') ∧ isDigits 10 digits then some (if sign? = some '-' then -n else n)
      else none

/-- Whether `c` is a digit in base ten or an underscore. -/
def isDigitOrBar (c : Char) : Bool := Decimal.isDigit c || c == '_'

/-- Reads a number that has a fraction or an exponent, without its sign. -/
def scaled? (cs : List Char) : Option Scaled := do
  let whole := cs.takeWhile isDigitOrBar
  guard (isWhole whole)
  match cs.drop whole.length with
  | [] => none
  | '.' :: rest =>
      let fraction := rest.takeWhile isDigitOrBar
      guard (isDigits 10 fraction)
      let places := (fraction.filter Decimal.isDigit).length
      return ⟨digitsValue 10 (whole ++ fraction), (← exponent? (rest.drop fraction.length)) - places⟩
  | rest => return ⟨digitsValue 10 whole, ← exponent? rest⟩

/-! ## Numbers of either kind -/

/-- What a text stands for that has the form of a number. -/
def numeral? : List Char → Option Numeral
  | '0' :: 'x' :: cs => based? 16 cs
  | '0' :: 'o' :: cs => based? 8 cs
  | '0' :: 'b' :: cs => based? 2 cs
  | cs =>
      let (sign?, body) := unsigned cs
      if isWhole body || isBarred body then some (.ofDigits 10 sign? body)
      else if body = ['i', 'n', 'f'] ∨ body = ['n', 'a', 'n'] then some .float
      else (scaled? body).map fun x => if x.tooLarge then .nothing else .float

end Toml

end DnsResponder
