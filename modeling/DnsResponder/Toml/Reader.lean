import DnsResponder.Toml.Value

/-!
# Reading TOML from the front

A reader takes the characters ahead and answers with a value and with what follows
it. What follows is shorter, and the answer carries the proof, so a reader can be
repeated until the text is used up and no count of steps is needed.

A reader that repeats something hands on the text that is left with a proof that it
is no longer than the text at which the repetition started.
-/

namespace DnsResponder

namespace Toml

/-- What is wrong with a text that is no TOML. -/
inductive Fault where
  | noKey
  | noValue
  | noEquals
  | noLineEnd
  | badEscape
  | badCharacter
  /-- What was opened is not closed by this sign. -/
  | unclosed (sign : String)
  | tooDeep
  /-- Two parts of the text disagree. -/
  | clash (c : Clash)
deriving DecidableEq, Repr

/-- The fault in words. -/
def Fault.message : Fault → String
  | noKey => "expected a key"
  | noValue => "expected a value"
  | noEquals => "expected '='"
  | noLineEnd => "expected the end of the line"
  | badEscape => "unknown escape sequence"
  | badCharacter => "unexpected control character"
  | unclosed sign => s!"expected '{sign}'"
  | tooDeep => "too many levels"
  | clash c => c.message

/-- Where reading stops: the fault, and the characters from there on. -/
structure Failure where
  fault : Fault
  rest : List Char

/-- What a reader makes of the front of `start`. -/
structure Read (α : Type) (start : List Char) where
  value : α
  rest : List Char
  shorter : rest.length < start.length

/-- A reader of values of type `α`. -/
abbrev Reader (α : Type) := (cs : List Char) → Except Failure (Read α cs)

/-- The value changed by `f`. -/
def Read.map {α β : Type} {start : List Char} (f : α → β) (r : Read α start) : Read β start :=
  ⟨f r.value, r.rest, r.shorter⟩

/-- The same answer for a longer text with the same end. -/
def Read.widen {α : Type} {start cs : List Char} (h : cs.length ≤ start.length) (r : Read α cs) :
    Read α start :=
  ⟨r.value, r.rest, Nat.lt_of_lt_of_le r.shorter h⟩

/-- The same answer for a text with one more character in front. -/
def Read.behind {α : Type} {cs : List Char} (c : Char) (r : Read α cs) : Read α (c :: cs) :=
  r.widen (Nat.le_succ cs.length)

/-- The reader that repeats something until the text is used up, started with the whole text. -/
def Reader.repeating {α : Type}
    (read : {start : List Char} → (cs : List Char) → cs.length ≤ start.length →
      Except Failure (Read α start)) : Reader α :=
  fun cs => read cs (Nat.le_refl _)

/-! ## Blanks, comments and line ends -/

/-- The characters that separate what stands on one line. -/
def isBlank (c : Char) : Bool := c == ' ' || c == '\t'

/-- The characters of text that is no markup: all but the control characters, the tab excepted. -/
def isPlain (c : Char) : Bool := c == '\t' || (decide (32 ≤ c.toNat) && decide (c.toNat ≠ 127))

/-- The text from the first character on that is no blank. -/
def skipBlanks (cs : List Char) : List Char := cs.dropWhile isBlank

theorem length_skipBlanks_le (cs : List Char) : (skipBlanks cs).length ≤ cs.length :=
  (List.dropWhile_suffix isBlank).length_le

theorem length_lt_of_skipBlanks {cs rest : List Char} {c : Char} (h : skipBlanks cs = c :: rest) :
    rest.length < cs.length := by
  have hb := length_skipBlanks_le cs
  rw [h, List.length_cons] at hb
  exact hb

/-- The text from the first character on that belongs to no blank, comment or line end. -/
def skipLayout (cs : List Char) : List Char :=
  match _h : skipBlanks cs with
  | '#' :: rest => skipLayout (rest.dropWhile isPlain)
  | '\n' :: rest => skipLayout rest
  | '\r' :: '\n' :: rest => skipLayout rest
  | rest => rest
termination_by cs.length
decreasing_by
  all_goals
    have hb := length_skipBlanks_le cs
    rw [_h] at hb
    simp only [List.length_cons] at hb
  · have : (rest.dropWhile isPlain).length ≤ rest.length := (List.dropWhile_suffix isPlain).length_le
    omega
  · omega
  · omega

theorem length_skipLayout_le (cs : List Char) : (skipLayout cs).length ≤ cs.length := by
  fun_induction skipLayout cs with
  | case1 cs rest h ih =>
      have hb := length_skipBlanks_le cs
      have : (rest.dropWhile isPlain).length ≤ rest.length := (List.dropWhile_suffix isPlain).length_le
      rw [h, List.length_cons] at hb
      omega
  | case2 cs rest h ih =>
      have hb := length_skipBlanks_le cs
      rw [h, List.length_cons] at hb
      omega
  | case3 cs rest h ih =>
      have hb := length_skipBlanks_le cs
      rw [h, List.length_cons, List.length_cons] at hb
      omega
  | case4 cs => exact length_skipBlanks_le cs

/-- The text from the next sign on, which may stand on a later line if lines may be crossed. -/
def skipGap (crossing : Bool) (cs : List Char) : List Char :=
  if crossing then skipLayout cs else skipBlanks cs

theorem length_skipGap_le (crossing : Bool) (cs : List Char) :
    (skipGap crossing cs).length ≤ cs.length := by
  cases crossing with
  | false => exact length_skipBlanks_le cs
  | true => exact length_skipLayout_le cs

/-- The text from the first character on that belongs to no blank and to no comment on this line. -/
def skipRemark (cs : List Char) : List Char :=
  match skipBlanks cs with
  | '#' :: comment => comment.dropWhile isPlain
  | rest => rest

theorem length_skipRemark_le (cs : List Char) : (skipRemark cs).length ≤ cs.length := by
  have hb := length_skipBlanks_le cs
  unfold skipRemark
  split
  next comment hc =>
    have : (comment.dropWhile isPlain).length ≤ comment.length :=
      (List.dropWhile_suffix isPlain).length_le
    rw [hc, List.length_cons] at hb
    omega
  next => exact hb

/-- The text behind the end of the line; only blanks and a comment may stand in front of it. -/
def lineEnd (cs : List Char) : Except Failure (List Char) :=
  match skipRemark cs with
  | [] => .ok []
  | '\n' :: rest => .ok rest
  | '\r' :: '\n' :: rest => .ok rest
  | rest => .error ⟨.noLineEnd, rest⟩

theorem length_le_of_lineEnd {cs rest : List Char} (h : lineEnd cs = .ok rest) :
    rest.length ≤ cs.length := by
  have hb := length_skipRemark_le cs
  unfold lineEnd at h
  split at h
  next hr => simp_all
  next more hr =>
    rw [hr, List.length_cons] at hb
    injection h with h
    subst h
    omega
  next more hr =>
    rw [hr, List.length_cons, List.length_cons] at hb
    injection h with h
    subst h
    omega
  next => exact absurd h (by simp)

end Toml

end DnsResponder
