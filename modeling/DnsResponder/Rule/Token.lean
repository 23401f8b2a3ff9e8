import DnsResponder.Text

/-!
# Tokens

Rule source is cut into tokens: a run of letters, digits, dots and colons is one
piece of text; `->` and a lone `>` are arrows; a `-` that starts no arrow is a dash;
`#` starts a comment that runs to the end of its line. Blanks separate tokens and
are not tokens themselves. Whatever character fits nowhere is a token of its own,
marked as invalid, so that cutting never fails and the complaint is left to the
grammar.

`lexeme` decides one token from the characters ahead and nothing else. `Cursor`
keeps the place in the source: how far it is from the start in bytes, and what is
still to come.
-/

namespace DnsResponder

/-- What a token is. -/
inductive Token.Kind where
  | eof | invalid | arrow | text | comment | dash
deriving DecidableEq, Repr

/-- The name of a kind in reports. -/
def Token.Kind.name : Token.Kind → String
  | eof => "eof"
  | invalid => "invalid"
  | arrow => "arrow"
  | text => "text"
  | comment => "comment"
  | dash => "dash"

/--
A token. It stands at the bytes from `start` up to `stop`.

The value is the source between these two places, except that the value of a
comment leaves out the `#`.
-/
structure Token where
  kind : Token.Kind
  start : Nat
  stop : Nat
  value : String
deriving DecidableEq, Repr

/-- The characters that make up text: ASCII letters and digits, dot and colon. -/
def isTextChar (c : Char) : Bool := c.isAlphanum || c = '.' || c = ':'

/-- The characters between tokens. -/
def isBlank (c : Char) : Bool := c = ' ' || c = '\t' || c = '\r' || c = '\n'

/-- The characters that end a comment. -/
def isLineEnd (c : Char) : Bool := c = '\n' || c = '\r'

/-- A token cut off the characters ahead. -/
structure Lexeme where
  kind : Token.Kind
  /-- The characters of the token. -/
  chars : List Char
  /-- The characters after it. -/
  rest : List Char

/-- The value of the token. -/
def Lexeme.value (l : Lexeme) : String :=
  String.ofList (if l.kind = .comment then l.chars.tail else l.chars)

/-- Cuts off the token that starts with `c` where `cs` comes after it. -/
def lexeme (c : Char) (cs : List Char) : Lexeme :=
  if c = '-' then
    match cs with
    | '>' :: rest => ⟨.arrow, ['-', '>'], rest⟩
    | _ => ⟨.dash, ['-'], cs⟩
  else if c = '>' then ⟨.arrow, ['>'], cs⟩
  else if c = '#' then
    ⟨.comment, '#' :: cs.takeWhile (!isLineEnd ·), cs.dropWhile (!isLineEnd ·)⟩
  else if isTextChar c then ⟨.text, c :: cs.takeWhile isTextChar, cs.dropWhile isTextChar⟩
  else ⟨.invalid, [c], cs⟩

/-- Cutting neither loses nor adds characters. -/
theorem lexeme_chars_append_rest (c : Char) (cs : List Char) :
    (lexeme c cs).chars ++ (lexeme c cs).rest = c :: cs := by
  unfold lexeme
  split
  · subst c
    split <;> rfl
  · split
    · subst c; rfl
    · split
      · subst c
        simp [List.takeWhile_append_dropWhile]
      · split
        · simp [List.takeWhile_append_dropWhile]
        · rfl

/-- A token starts with the first character ahead. -/
theorem exists_lexeme_chars (c : Char) (cs : List Char) :
    ∃ more, (lexeme c cs).chars = c :: more := by
  unfold lexeme
  split
  · subst c
    split <;> exact ⟨_, rfl⟩
  · split
    · subst c; exact ⟨_, rfl⟩
    · split
      · subst c; exact ⟨_, rfl⟩
      · split <;> exact ⟨_, rfl⟩

/-- Cutting off a token leaves fewer characters. -/
theorem length_lexeme_rest (c : Char) (cs : List Char) :
    (lexeme c cs).rest.length ≤ cs.length := by
  have h := congrArg List.length (lexeme_chars_append_rest c cs)
  obtain ⟨more, hm⟩ := exists_lexeme_chars c cs
  rw [hm] at h
  simp only [List.cons_append, List.length_cons, List.length_append] at h
  omega

/-- No token cut off the source is the end of it. -/
theorem lexeme_kind_ne_eof (c : Char) (cs : List Char) : (lexeme c cs).kind ≠ .eof := by
  unfold lexeme
  split
  · split <;> simp
  · split
    · simp
    · split
      · simp
      · split <;> simp

/-- A place in the source. -/
structure Cursor where
  /-- The whole source. -/
  source : List Char
  /-- How many bytes it has. -/
  size : Nat
  /-- How many bytes of it lie behind. -/
  offset : Nat
  /-- What lies ahead. -/
  rest : List Char
deriving DecidableEq

namespace Cursor

/-- The start of a source. -/
def ofText (text : String) : Cursor :=
  ⟨text.toList, Text.utf8Length text.toList, 0, text.toList⟩

/-- How many bytes of the source lie ahead. -/
def remaining (c : Cursor) : Nat := c.size - c.offset

/-- Moves past the blanks ahead. -/
def skipBlanks (c : Cursor) : Cursor :=
  { c with
    offset := c.offset + Text.utf8Length (c.rest.takeWhile isBlank)
    rest := c.rest.dropWhile isBlank }

/-- The token ahead and the place after it. At the end of the source that is the end, again and again. -/
def next (c : Cursor) : Token × Cursor :=
  let c := c.skipBlanks
  match c.rest with
  | [] => (⟨.eof, c.offset, c.offset, ""⟩, c)
  | ch :: cs =>
      let l := lexeme ch cs
      let stop := c.offset + Text.utf8Length l.chars
      (⟨l.kind, c.offset, stop, l.value⟩, { c with offset := stop, rest := l.rest })

/-- The token ahead. -/
def peek (c : Cursor) : Token := c.next.1

/-- The token ahead and the place after it, unless that token is the end of the source. -/
def next? (c : Cursor) : Option Token × Cursor :=
  let (token, c) := c.next
  (if token.kind = .eof then none else some token, c)

/-- Walks from `offset` over `rest` to the last place between two characters that is not beyond `target`. -/
def seek (target offset : Nat) : List Char → Nat × List Char
  | [] => (offset, [])
  | ch :: cs =>
      if offset + ch.utf8Size ≤ target then seek target (offset + ch.utf8Size) cs
      else (offset, ch :: cs)

/-- Moves to the last place between two characters that is not beyond `target`. -/
def rewind (c : Cursor) (target : Nat) : Cursor :=
  let (offset, rest) := seek target 0 c.source
  { c with offset, rest }

theorem length_skipBlanks_rest (c : Cursor) : c.skipBlanks.rest.length ≤ c.rest.length :=
  (List.dropWhile_suffix isBlank).length_le

/-- Taking a token other than the end uses up characters. -/
theorem length_next_rest_lt {c : Cursor} (h : c.next.1.kind ≠ .eof) :
    c.next.2.rest.length < c.rest.length := by
  have hb := c.length_skipBlanks_rest
  unfold next at h ⊢
  dsimp only at h ⊢
  split at h
  · exact absurd rfl h
  · rename_i ch cs hr
    have hl := length_lexeme_rest ch cs
    rw [hr, List.length_cons] at hb
    dsimp only
    omega

theorem remaining_skipBlanks_le (c : Cursor) : c.skipBlanks.remaining ≤ c.remaining :=
  Nat.sub_le_sub_left (Nat.le_add_right c.offset _) c.size

/-- Taking a token never goes back. -/
theorem remaining_next_le (c : Cursor) : c.next.2.remaining ≤ c.remaining := by
  have hb := c.remaining_skipBlanks_le
  unfold next
  dsimp only
  split
  · exact hb
  · exact Nat.le_trans (Nat.sub_le_sub_left (Nat.le_add_right c.skipBlanks.offset _) c.size) hb

/-- Moves past comments, as long as the token ahead is one. -/
def skipComments (c : Cursor) : Cursor :=
  if c.next.1.kind = .comment then c.next.2.skipComments else c
termination_by c.rest.length
decreasing_by
  rename_i h
  exact length_next_rest_lt (by rw [h]; decide)

theorem remaining_skipComments_le (c : Cursor) : c.skipComments.remaining ≤ c.remaining := by
  fun_induction skipComments c with
  | case1 c h ih => exact Nat.le_trans ih c.remaining_next_le
  | case2 c h => exact Nat.le_refl _

/-- All tokens from here to the end of the source. -/
def tokens (c : Cursor) : List Token :=
  if c.next.1.kind = .eof then [] else c.next.1 :: c.next.2.tokens
termination_by c.rest.length
decreasing_by
  rename_i h
  exact length_next_rest_lt h

end Cursor

end DnsResponder
