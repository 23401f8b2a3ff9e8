import DnsResponder.Toml.DateTime
import DnsResponder.Toml.Number
import DnsResponder.Toml.Quoted

/-!
# TOML documents

A document is a row of entries and headers, each on a line of its own. Reading it
cuts it into sections, a header and the entries below it; the table is then built
from the sections, which is where two parts of a document can clash.

A value may hold other values. How deep they may lie within one another is limited,
and the limit is what the recursion runs on: `value 0` reads only values that hold
no others. The same limit holds for the keys that dots join to one.
-/

namespace DnsResponder

namespace Toml

/-- How many levels a value may have, and how many keys may be joined by dots. -/
def maxDepth : Nat := 80

/-! ## Keys -/

/-- The characters of a key that is not quoted. -/
def isKeyChar (c : Char) : Bool := c.isAlphanum || c == '_' || c == '-'

/-- Reads a key, quoted or not. -/
def word : Reader String := fun cs =>
  let chars := cs.takeWhile isKeyChar
  match h : cs with
  | c :: rest =>
      if c = '\x22' ∨ c = '\x27' then quotedLine (c :: rest)
      else if chars = [] then .error ⟨.noKey, cs⟩
      else .ok ⟨String.ofList chars, rest.drop (chars.length - 1), by
        simp only [List.length_drop, List.length_cons]; omega⟩
  | [] => .error ⟨.noKey, cs⟩

/-- Reads keys with dots between them, where `parents` are those read already, the newest first. -/
def keyFrom {start : List Char} (parents : List String) (cs : List Char)
    (h : cs.length ≤ start.length) : Except Failure (Read KeyPath start) :=
  match word (skipBlanks cs) with
  | .error e => .error e
  | .ok k =>
      have hk : k.rest.length < cs.length := Nat.lt_of_lt_of_le k.shorter (length_skipBlanks_le cs)
      match hr : skipBlanks k.rest with
      | '.' :: rest =>
          have hlt : rest.length < cs.length := Nat.lt_trans (length_lt_of_skipBlanks hr) hk
          if maxDepth ≤ parents.length + 1 then .error ⟨.tooDeep, rest⟩
          else keyFrom (k.value :: parents) rest (Nat.le_trans (Nat.le_of_lt hlt) h)
      | rest =>
          have hle : rest.length ≤ k.rest.length := hr ▸ length_skipBlanks_le k.rest
          .ok ⟨⟨parents.reverse, k.value⟩, rest,
            Nat.lt_of_le_of_lt hle (Nat.lt_of_lt_of_le hk h)⟩
termination_by cs.length

/-- Reads keys with dots between them. -/
def key : Reader KeyPath := Reader.repeating (keyFrom [])

/-! ## Values -/

/-- Whether `c` ends a value that is not quoted. -/
def endsScalar (c : Char) : Bool :=
  c == ',' || c == '=' || c == '[' || c == ']' || c == '{' || c == '}' || c == '#' || c == '\n' ||
    c == '\r'

/-- The text of a value that is not quoted, which has no blanks at its end. -/
def scalarText (cs : List Char) : List Char :=
  ((cs.takeWhile fun c => !endsScalar c).reverse.dropWhile isBlank).reverse

/-- Whether quoted text starts behind some blank. -/
def hasQuoted : List Char → Bool
  | a :: b :: cs => (isBlank a && (b == '\x22' || b == '\x27')) || hasQuoted (b :: cs)
  | _ => false

/-- The value with the given text, which is not quoted. -/
def scalar? (chars : List Char) : Option Value :=
  if hasQuoted chars then none
  else if chars = ['t', 'r', 'u', 'e'] then some (.boolean true)
  else if chars = ['f', 'a', 'l', 's', 'e'] then some (.boolean false)
  else
    match numeral? chars with
    | some (.integer n) => some (.integer n)
    | some .float => some (.float (String.ofList chars))
    | some .nothing => some (.noNumber (String.ofList chars))
    | none =>
        if DateTime.isDateTime chars then some (.dateTime (String.ofList chars)) else none

/-- Reads a value that holds no others. -/
def scalar : Reader Value := fun cs =>
  match cs with
  | [] => .error ⟨.noValue, cs⟩
  | c :: rest =>
      if c = '\x22' ∨ c = '\x27' then (quoted (c :: rest)).map (Read.map .text)
      else
        match scalar? (scalarText (c :: rest)) with
        | some v =>
            .ok ⟨v, rest.drop ((scalarText (c :: rest)).length - 1), by
              simp only [List.length_drop, List.length_cons]; omega⟩
        | none => .error ⟨.noValue, c :: rest⟩

/--
Reads items with commas between them up to the sign that closes their list. A comma
may also follow the last item.
-/
def itemsFrom {α : Type} {start : List Char} (item : Reader α) (close : Char) (found : List α)
    (cs : List Char) (h : cs.length ≤ start.length) : Except Failure (Read (List α) start) :=
  have hcs := length_skipLayout_le cs
  match hl : skipLayout cs with
  | [] => .error ⟨.unclosed (String.singleton close), []⟩
  | c :: rest =>
      have hc : rest.length < cs.length := by rw [hl, List.length_cons] at hcs; omega
      if c = close then .ok ⟨found.reverse, rest, by omega⟩
      else
        match item (c :: rest) with
        | .error e => .error e
        | .ok x =>
            have hx := x.shorter
            have hrest := length_skipLayout_le x.rest
            match hm : skipLayout x.rest with
            | [] => .error ⟨.unclosed (String.singleton close), []⟩
            | d :: more =>
                have hd : more.length < cs.length := by
                  rw [hm, List.length_cons] at hrest
                  rw [List.length_cons] at hx
                  omega
                if d = close then .ok ⟨(x.value :: found).reverse, more, by omega⟩
                else if d = ',' then itemsFrom item close (x.value :: found) more (by omega)
                else .error ⟨.unclosed (String.singleton close), d :: more⟩
termination_by cs.length

/-- Reads an entry: its key, an equals sign and its value. Between these, lines may be crossed or not. -/
def entry (crossing : Bool) (value : Reader Value) : Reader (KeyPath × Value) := fun cs =>
  match key cs with
  | .error e => .error e
  | .ok k =>
      match hr : skipGap crossing k.rest with
      | '=' :: rest =>
          have hk := k.shorter
          have hs := length_skipGap_le crossing k.rest
          have hb := length_skipGap_le crossing rest
          (value (skipGap crossing rest)).map fun v =>
            (v.map fun x => (k.value, x)).widen (by rw [hr, List.length_cons] at hs; omega)
      | rest => .error ⟨.noEquals, rest⟩

/-- Reads a value that holds others at most `depth` deep. -/
def value : Nat → Reader Value
  | 0 => fun cs =>
      match cs with
      | '[' :: _ => .error ⟨.tooDeep, cs⟩
      | '{' :: _ => .error ⟨.tooDeep, cs⟩
      | other => scalar other
  | depth + 1 => fun cs =>
      match cs with
      | '[' :: rest =>
          (Reader.repeating (itemsFrom (value depth) ']' []) rest).map fun items =>
            (items.map .array).behind _
      | '{' :: rest =>
          match Reader.repeating (itemsFrom (entry true (value depth)) '}' []) rest with
          | .error e => .error e
          | .ok entries =>
              match Table.ofEntries entries.value with
              | .ok t => .ok ((entries.map fun _ => .table t).behind _)
              | .error c => .error ⟨.clash c, rest⟩
      | other => scalar other

/-! ## Lines -/

/-- Reads a header from behind its opening brackets, up to the closing ones. -/
def header (isElement : Bool) : Reader Header := fun cs =>
  match key cs with
  | .error e => .error e
  | .ok k =>
      have hk := k.shorter
      match isElement, hr : k.rest with
      | false, ']' :: rest =>
          .ok ⟨⟨k.value, false⟩, rest, by rw [hr, List.length_cons] at hk; omega⟩
      | true, ']' :: ']' :: rest =>
          .ok ⟨⟨k.value, true⟩, rest, by rw [hr, List.length_cons, List.length_cons] at hk; omega⟩
      | false, rest => .error ⟨.unclosed "]", rest⟩
      | true, rest => .error ⟨.unclosed "]]", rest⟩

/-- What stands on a line: a header or an entry. -/
inductive Line where
  | header (h : Header)
  | entry (key : KeyPath) (v : Value)

/-- Reads what stands on a line, to the end of that line. -/
def line : Reader Line := fun cs =>
  let content : Except Failure (Read Line cs) :=
    match cs with
    | '[' :: '[' :: rest =>
        (header true rest).map fun h => ((h.map .header).behind _).behind _
    | '[' :: rest => (header false rest).map fun h => (h.map .header).behind _
    | other => (entry false (value maxDepth) other).map (Read.map fun (k, v) => .entry k v)
  match content with
  | .error e => .error e
  | .ok x =>
      match hl : lineEnd x.rest with
      | .error e => .error e
      | .ok rest => .ok ⟨x.value, rest, Nat.lt_of_le_of_lt (length_le_of_lineEnd hl) x.shorter⟩

/-- Reads lines to the end of the text, where `found` are those read already, the newest first. -/
def linesFrom (found : List Line) (cs : List Char) : Except Failure (List Line) :=
  have hcs := length_skipLayout_le cs
  match hl : skipLayout cs with
  | [] => .ok found.reverse
  | c :: rest =>
      match line (c :: rest) with
      | .error e => .error e
      | .ok x =>
          have hx := x.shorter
          have hlt : x.rest.length < cs.length := by
            rw [hl] at hcs
            omega
          linesFrom (x.value :: found) x.rest
termination_by cs.length

/-- Puts a line in front of sections: a header opens one, an entry joins the first. -/
def addLine (x : Line) : List Section → List Section
  | [] => [⟨none, []⟩]
  | s :: more =>
      match x with
      | .header h => ⟨none, []⟩ :: ⟨some h, s.entries⟩ :: more
      | .entry k v => ⟨none, (k, v) :: s.entries⟩ :: more

/-- The sections that lines make. -/
def sections (xs : List Line) : List Section := xs.foldr addLine [⟨none, []⟩]

/-! ## The whole text -/

/-- Why a text is no TOML document. -/
structure Error where
  fault : Fault
  /-- The line on which reading stopped, if it stopped. -/
  line? : Option Nat
deriving DecidableEq, Repr

/-- The error in words. -/
def Error.message (e : Error) : String :=
  match e.line? with
  | some n => s!"line {n}: {e.fault.message}"
  | none => e.fault.message

/-- The number of the line on which `rest`, the end of `cs`, starts. -/
def lineOf (cs rest : List Char) : Nat := cs.count '\n' - rest.count '\n' + 1

/-- The text without the mark that may stand in front of it. -/
def dropMark : List Char → List Char
  | '\ufeff' :: cs => cs
  | cs => cs

/-- The table that a document spells. -/
def Table.ofText (text : String) : Except Error Table :=
  let cs := dropMark text.toList
  match linesFrom [] cs with
  | .error e => .error ⟨e.fault, some (lineOf cs e.rest)⟩
  | .ok xs =>
      match Table.ofSections (sections xs) with
      | .ok t => .ok t
      | .error c => .error ⟨.clash c, none⟩

end Toml

end DnsResponder
