import DnsResponder.Decimal

/-!
# TOML dates and times

A date, a time of day, or both with a `T` or one blank between them, and then also
the distance from universal time. Seconds may be left out, and a fraction may follow
them. Only existing days and times are dates and times, where the last minute of a
day may have a sixty-first second.
-/

namespace DnsResponder

namespace Toml

namespace DateTime

/-- Reads exactly `n` digits. -/
def digits? (n : Nat) (cs : List Char) : Option (Nat × List Char) :=
  let ds := cs.take n
  if ds.length = n ∧ ds.all Decimal.isDigit then some (Decimal.value ds, cs.drop n) else none

/-- Reads one given character. -/
def skip? (c : Char) : List Char → Option (List Char)
  | [] => none
  | d :: cs => if d = c then some cs else none

/-- Reads exactly two digits that stand for a number of at most `limit`. -/
def upTo? (limit : Nat) (cs : List Char) : Option (List Char) := do
  let (n, rest) ← digits? 2 cs
  guard (n ≤ limit)
  return rest

/-- Whether a year has a twenty-ninth of February. -/
def isLeap (year : Nat) : Bool := year % 4 = 0 && (year % 100 ≠ 0 || year % 400 = 0)

/-- The number of days of a month; no other number is a month. -/
def days (year month : Nat) : Nat :=
  match month with
  | 1 | 3 | 5 | 7 | 8 | 10 | 12 => 31
  | 4 | 6 | 9 | 11 => 30
  | 2 => if isLeap year then 29 else 28
  | _ => 0

/-- Reads a date and answers with what follows it. -/
def date? (cs : List Char) : Option (List Char) := do
  let (year, cs) ← digits? 4 cs
  let (month, cs) ← digits? 2 (← skip? '-' cs)
  let (day, cs) ← digits? 2 (← skip? '-' cs)
  guard (1 ≤ day ∧ day ≤ days year month)
  return cs

/-- Reads the fraction of a second, if there is one. -/
def fraction? : List Char → Option (List Char)
  | '.' :: cs => if (cs.head?.map Decimal.isDigit).getD false then some (cs.dropWhile Decimal.isDigit) else none
  | cs => some cs

/-- Reads a time of day and answers with what follows it. -/
def time? (cs : List Char) : Option (List Char) := do
  match ← upTo? 59 (← skip? ':' (← upTo? 23 cs)) with
  | ':' :: rest => fraction? (← upTo? 60 rest)
  | rest => return rest

/-- Reads the distance from universal time, with nothing behind it. -/
def isOffset : List Char → Bool
  | ['Z'] | ['z'] => true
  | c :: cs =>
      (c == '+' || c == '-') &&
        match (do upTo? 59 (← skip? ':' (← upTo? 23 cs)) : Option (List Char)) with
        | some rest => rest.isEmpty
        | none => false
  | [] => false

/-- Whether a time of day, perhaps with its distance from universal time, makes up the text. -/
def isTimeWithOffset (cs : List Char) : Bool :=
  match time? cs with
  | some rest => rest.isEmpty || isOffset rest
  | none => false

/-- Whether the text is a date, a time of day or both. -/
def isDateTime (cs : List Char) : Bool :=
  match date? cs with
  | some [] => true
  | some (c :: rest) => (c == 'T' || c == 't' || c == ' ') && isTimeWithOffset rest
  | none =>
      match time? cs with
      | some rest => rest.isEmpty
      | none => false

end DateTime

end Toml

end DnsResponder
