import DnsResponder.Text
import DnsResponder.Toml.Reader

/-!
# Quoted text in TOML

There are four ways to quote. Between apostrophes every character stands for itself.
Between quotation marks a backslash starts an escape sequence. Either mark written
three times also lets the text run over several lines: a line end directly behind
the opening marks is dropped, up to two marks may stand in front of the closing ones,
and between quotation marks a backslash at the end of a line drops all blanks and
line ends up to the next character.

Line ends inside the text are kept as they are written.
-/

namespace DnsResponder

namespace Toml

/-- The character with the given number, if that number is one of a character. -/
def character? (n : Nat) : Option Char :=
  if n.isValidChar then some (Char.ofNat n) else none

/-- Reads the number that exactly `n` digits in base sixteen stand for. -/
def hex? (n : Nat) (cs : List Char) : Option Nat :=
  let ds := cs.take n
  if ds.length = n then ds.foldlM (fun v c => (Text.hexValue? c).map (v * 16 + ·)) 0 else none

/-- Reads an escape sequence of `n` digits behind its letter. -/
def numbered (n : Nat) : Reader Char := fun cs =>
  match cs with
  | [] => .error ⟨.badEscape, cs⟩
  | _ :: digits =>
      match (hex? n digits).bind character? with
      | some c => .ok ⟨c, digits.drop n, by simp only [List.length_drop, List.length_cons]; omega⟩
      | none => .error ⟨.badEscape, cs⟩

/-- What a letter behind a backslash stands for on its own. -/
def escaped? (c : Char) : Option Char :=
  match c with
  | 'b' => some '\x08'
  | 't' => some '\t'
  | 'n' => some '\n'
  | 'f' => some '\x0c'
  | 'r' => some '\r'
  | 'e' => some '\x1b'
  | '\x22' => some '\x22'
  | '\x5c' => some '\x5c'
  | _ => none

/-- Reads an escape sequence from behind its backslash. -/
def escape : Reader Char := fun cs =>
  match cs with
  | 'x' :: digits => numbered 2 ('x' :: digits)
  | 'u' :: digits => numbered 4 ('u' :: digits)
  | 'U' :: digits => numbered 8 ('U' :: digits)
  | c :: rest =>
      match escaped? c with
      | some d => .ok ⟨d, rest, Nat.lt_succ_self _⟩
      | none => .error ⟨.badEscape, cs⟩
  | [] => .error ⟨.badEscape, cs⟩

/-- Reads up to the closing apostrophe. -/
def literal : Reader String := fun cs =>
  let body := cs.takeWhile fun c => isPlain c && c != '\x27'
  match h : cs.dropWhile fun c => isPlain c && c != '\x27' with
  | '\x27' :: rest =>
      .ok ⟨String.ofList body, rest, by
        have := (List.dropWhile_suffix (l := cs) fun c => isPlain c && c != '\x27').length_le
        rw [h, List.length_cons] at this
        omega⟩
  | rest => .error ⟨.unclosed "\x27", rest⟩

/-- Reads up to the closing quotation mark, where `done` is what has been read, the newest character first. -/
def basicFrom {start : List Char} (done : List Char) (cs : List Char)
    (h : cs.length ≤ start.length) : Except Failure (Read String start) :=
  match cs with
  | [] => .error ⟨.unclosed "\x22", cs⟩
  | c :: rest =>
      have hrest : rest.length < start.length := Nat.lt_of_succ_le h
      if c = '\x22' then .ok ⟨String.ofList done.reverse, rest, hrest⟩
      else if c = '\x5c' then
        match escape rest with
        | .error e => .error e
        | .ok e =>
            have := e.shorter
            basicFrom (e.value :: done) e.rest (by omega)
      else if isPlain c then basicFrom (c :: done) rest (Nat.le_of_lt hrest)
      else .error ⟨.badCharacter, cs⟩
termination_by cs.length
decreasing_by all_goals simp only [List.length_cons]; omega

/-- Reads up to the closing quotation mark. -/
def basic : Reader String := Reader.repeating (basicFrom [])

/-- The text without a line end at its front. -/
def dropLineEnd : List Char → List Char
  | '\n' :: rest => rest
  | '\r' :: '\n' :: rest => rest
  | cs => cs

theorem length_dropLineEnd_le (cs : List Char) : (dropLineEnd cs).length ≤ cs.length := by
  unfold dropLineEnd
  split
  · exact Nat.le_succ _
  · simp only [List.length_cons]
    omega
  · exact Nat.le_refl _

/-- The number of times that `mark` stands at the front of a text, as far as five matter. -/
def marks (mark : Char) (cs : List Char) : Nat := ((cs.take 5).takeWhile (· == mark)).length

/-- Whether a text starts with a line end, blanks aside. -/
def endsLine (cs : List Char) : Bool :=
  match skipBlanks cs with
  | '\n' :: _ => true
  | '\r' :: '\n' :: _ => true
  | _ => false

/-- The text from the first character on that is no blank and no line end. -/
def skipSpace : List Char → List Char
  | [] => []
  | '\r' :: '\n' :: rest => skipSpace rest
  | c :: rest => if isBlank c || c == '\n' then skipSpace rest else c :: rest

theorem length_skipSpace_le (cs : List Char) : (skipSpace cs).length ≤ cs.length := by
  fun_induction skipSpace cs with
  | case1 => exact Nat.le_refl _
  | case2 rest ih => simp only [List.length_cons]; omega
  | case3 c rest hc h ih => simp only [List.length_cons]; omega
  | case4 => exact Nat.le_refl _

/--
Reads up to the three closing marks of a text that may run over several lines, where
`done` is what has been read, the newest character first.
-/
def multilineFrom {start : List Char} (mark : Char) (done : List Char) (cs : List Char)
    (h : cs.length ≤ start.length) : Except Failure (Read String start) :=
  match cs with
  | [] => .error ⟨.unclosed (String.ofList [mark, mark, mark]), cs⟩
  | c :: rest =>
      have hrest : rest.length < start.length := Nat.lt_of_succ_le h
      if c = mark then
        if 3 ≤ marks mark cs then
          .ok ⟨String.ofList (List.replicate (marks mark cs - 3) mark ++ done).reverse,
            rest.drop (marks mark cs - 1), by simp only [List.length_drop]; omega⟩
        else multilineFrom mark (c :: done) rest (Nat.le_of_lt hrest)
      else if c = '\x5c' ∧ mark = '\x22' then
        if endsLine rest then
          have := length_skipSpace_le rest
          multilineFrom mark done (skipSpace rest) (by omega)
        else
          match escape rest with
          | .error e => .error e
          | .ok e =>
              have := e.shorter
              multilineFrom mark (e.value :: done) e.rest (by omega)
      else if isPlain c || c == '\n' then multilineFrom mark (c :: done) rest (Nat.le_of_lt hrest)
      else if c = '\r' ∧ rest.head? = some '\n' then
        multilineFrom mark (c :: done) rest (Nat.le_of_lt hrest)
      else .error ⟨.badCharacter, cs⟩
termination_by cs.length
decreasing_by all_goals simp only [List.length_cons]; omega

/-- Reads up to the three closing marks, from behind the three opening ones. -/
def multiline (mark : Char) : Reader String := fun cs =>
  multilineFrom mark [] (dropLineEnd cs) (length_dropLineEnd_le cs)

/-- Reads quoted text on one line. -/
def quotedLine : Reader String := fun cs =>
  match cs with
  | '\x22' :: rest => (basic rest).map (Read.behind _)
  | '\x27' :: rest => (literal rest).map (Read.behind _)
  | _ => .error ⟨.noValue, cs⟩

/-- Reads quoted text. -/
def quoted : Reader String := fun cs =>
  match cs with
  | '\x22' :: '\x22' :: '\x22' :: rest =>
      (multiline '\x22' rest).map fun r => ((r.behind _).behind _).behind _
  | '\x27' :: '\x27' :: '\x27' :: rest =>
      (multiline '\x27' rest).map fun r => ((r.behind _).behind _).behind _
  | line => quotedLine line

end Toml

end DnsResponder
