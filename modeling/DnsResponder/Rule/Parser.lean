import DnsResponder.Rule.Error

/-!
# Parsers

A parser starts at a place in the source and ends at a place, whether it succeeds
or not. The place after a failure is part of what a parser does: it is where the
parser gave up, and only `oneOf` ever goes back, to try its next alternative from
where it started itself.

Comments are skipped in one place, by `expect`, just before it takes a token. So
they may stand between any two tokens, and no grammar has to mention them.

A repetition ends when the token ahead is the stop token. It insists that each round
uses up some of the source, and that is also why it ends.
-/

namespace DnsResponder

/-- Reads a value at a place in the source, and says where it stopped. -/
def Parser (α : Type) : Type := Cursor → Except RuleError α × Cursor

namespace Parser

variable {α β : Type}

/-- The next token that is not a comment, if it is of the given kind. -/
def expect (kind : Token.Kind) : Parser Token := fun c =>
  let (token, c) := c.skipComments.next
  if token.kind = kind then (.ok token, c)
  else (.error (.mismatch kind token.kind token.value token.start), c)

/-- Moves past the comments ahead. -/
def skipComments : Parser Unit := fun c => (.ok (), c.skipComments)

/-- Answers `value` and stays in place. -/
def succeed (value : α) : Parser α := fun c => (.ok value, c)

/-- Complains and stays in place. -/
def fail (error : RuleError) : Parser α := fun c => (.error error, c)

/-- Changes the value, which the change may reject. -/
def tryMap (f : α → Except RuleError β) (p : Parser α) : Parser β := fun c =>
  let (result, c) := p c
  (result.bind f, c)

/-- Changes the value. -/
def map (f : α → β) (p : Parser α) : Parser β := tryMap (fun a => .ok (f a)) p

/-- Goes on with the parser that the first value picks. -/
def andThen (f : α → Parser β) (p : Parser α) : Parser β := fun c =>
  match p c with
  | (.ok a, c) => f a c
  | (.error e, c) => (.error e, c)

/-- One parser and then another. -/
def pair (p : Parser α) (q : Parser β) : Parser (α × β) :=
  andThen (fun a => map (fun b => (a, b)) q) p

/-- Parsers one after the other, behind the values in `acc`. -/
def sequenceFrom (acc : Array α) : List (Parser α) → Parser (List α)
  | [] => fun c => (.ok acc.toList, c)
  | p :: ps => fun c =>
      match p c with
      | (.ok a, c) => sequenceFrom (acc.push a) ps c
      | (.error e, c) => (.error e, c)

/-- Parsers one after the other. -/
def sequence (ps : List (Parser α)) : Parser (List α) := sequenceFrom #[] ps

/-- The first of the parsers that succeeds at `start`, where `failed` lists the complaints so far. -/
def firstOf (start : Cursor) (failed : Array RuleError) :
    List (Parser α) → Except RuleError α × Cursor
  | [] => (.error (.noAlternative failed.toList), start)
  | p :: ps =>
      match p start with
      | (.ok a, c) => (.ok a, c)
      | (.error e, _) => firstOf start (failed.push e) ps

/-- The first alternative that succeeds. When none does, the place is the one before all of them. -/
def oneOf (alternatives : List (Parser α)) : Parser α := fun c => firstOf c #[] alternatives

/-- Repeats the parser up to the stop token, behind the values in `acc`. -/
def repeatFrom (p : Parser α) (stop : Token.Kind) (acc : Array α) (c : Cursor) :
    Except RuleError (List α) × Cursor :=
  let here := c.skipComments
  if here.peek.kind = stop then (.ok acc.toList, here)
  else
    match p here with
    | (.error e, c') => (.error e, c')
    | (.ok a, c') =>
        if c'.remaining < here.remaining then repeatFrom p stop (acc.push a) c'
        else (.error (.noProgress here.peek.start), c')
termination_by c.remaining
decreasing_by
  rename_i h
  exact Nat.lt_of_lt_of_le h c.remaining_skipComments_le

/-- Repeats the parser up to the stop token, which is left ahead. -/
def repeatUntil (p : Parser α) (stop : Token.Kind) : Parser (List α) := repeatFrom p stop #[]

/-- Parses a source from its start. -/
def run (p : Parser α) (source : String) : Except RuleError α := (p (Cursor.ofText source)).1

end Parser

end DnsResponder
