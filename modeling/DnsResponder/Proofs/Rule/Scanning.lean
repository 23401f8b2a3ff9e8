import DnsResponder.Proofs.Rule.Combinator
import DnsResponder.Proofs.Rule.Cutting

/-!
# Scanning at an offset

A tokenizer needs no more of its place than a number of bytes. It cuts the source there each
time it is used, and reckons from the lengths of what it finds where the token ends. A cut
through a character, or behind the end, is no text at all, and nothing in a number says that it
is never asked for.

But from a place between two characters no cut fails. What is found there has the length that
is reckoned, whether that is a constant, the length of a character or the distance to the next
character of another kind. So the offset of a `Cursor` is enough to find the token that the
cursor finds, and the offset behind it.
-/

namespace DnsResponder

namespace Text

/-- There are `n` bytes up to some place between two characters. -/
def IsBoundary (cs : List Char) (n : Nat) : Prop := ∃ as bs, cs = as ++ bs ∧ utf8Length as = n

/-- The characters on either side of byte `n`, unless one of them is on both. -/
def cut? : Nat → List Char → Option (List Char × List Char)
  | 0, cs => some ([], cs)
  | _ + 1, [] => none
  | n + 1, c :: cs =>
      if c.utf8Size ≤ n + 1 then
        (cut? (n + 1 - c.utf8Size) cs).map fun (as, bs) => (c :: as, bs)
      else none

/-- The text behind byte `n`. -/
def behind? (n : Nat) (cs : List Char) : Option (List Char) := (cut? n cs).map Prod.snd

/-- The text from byte `start` up to byte `stop`. -/
def slice? (start stop : Nat) (cs : List Char) : Option (List Char) :=
  if start ≤ stop then do
    let ahead ← behind? start cs
    let (part, _) ← cut? (stop - start) ahead
    return part
  else none

/-- The byte at which the first character that `p` accepts starts. -/
def find? (p : Char → Bool) : List Char → Option Nat
  | [] => none
  | c :: cs => if p c then some 0 else (find? p cs).map (c.utf8Size + ·)

variable {cs as bs : List Char} {n : Nat}

theorem cut?_append (as bs : List Char) : cut? (utf8Length as) (as ++ bs) = some (as, bs) := by
  induction as with
  | nil => simp [cut?]
  | cons c as ih =>
      have hpos := c.utf8Size_pos
      obtain ⟨n, hn⟩ : ∃ n, utf8Length (c :: as) = n + 1 :=
        ⟨utf8Length (c :: as) - 1, by rw [utf8Length_cons]; omega⟩
      have hle : c.utf8Size ≤ n + 1 := by rw [← hn, utf8Length_cons]; omega
      have hrest : n + 1 - c.utf8Size = utf8Length as := by rw [← hn, utf8Length_cons]; omega
      rw [hn, List.cons_append, cut?, if_pos hle, hrest, ih]
      rfl

theorem cut?_eq_some (h : cut? n cs = some (as, bs)) : cs = as ++ bs ∧ utf8Length as = n := by
  induction cs generalizing n as bs with
  | nil =>
      cases n with
      | zero =>
          cases h
          exact ⟨rfl, rfl⟩
      | succ n => cases h
  | cons c cs ih =>
      cases n with
      | zero =>
          cases h
          exact ⟨rfl, rfl⟩
      | succ n =>
          rw [cut?] at h
          split at h
          · rename_i hle
            obtain ⟨⟨as', bs'⟩, hcut, heq⟩ := Option.map_eq_some_iff.mp h
            cases heq
            obtain ⟨hcs, hlen⟩ := ih hcut
            rw [hcs, utf8Length_cons, hlen]
            exact ⟨rfl, by omega⟩
          · cases h

/-- There is a cut exactly at the boundaries. -/
theorem isBoundary_iff : IsBoundary cs n ↔ (cut? n cs).isSome := by
  rw [Option.isSome_iff_exists]
  constructor
  · rintro ⟨as, bs, rfl, rfl⟩
    exact ⟨_, cut?_append as bs⟩
  · rintro ⟨⟨as, bs⟩, h⟩
    exact ⟨as, bs, cut?_eq_some h⟩

instance : Decidable (IsBoundary cs n) := decidable_of_iff _ isBoundary_iff.symm

theorem IsBoundary.le (h : IsBoundary cs n) : n ≤ utf8Length cs := by
  obtain ⟨as, bs, rfl, rfl⟩ := h
  rw [utf8Length_append]
  exact Nat.le_add_right _ _

theorem behind?_append (as bs : List Char) : behind? (utf8Length as) (as ++ bs) = some bs := by
  rw [behind?, cut?_append]
  rfl

theorem slice?_append (as part bs : List Char) :
    slice? (utf8Length as) (utf8Length as + utf8Length part) (as ++ (part ++ bs)) = some part := by
  rw [slice?, if_pos (Nat.le_add_right _ _), behind?_append, Nat.add_sub_cancel_left]
  simp only [Option.bind_eq_bind, Option.bind_some, cut?_append]
  rfl

/-- Up to the first character that `p` accepts there are those that it does not. -/
theorem getD_find? (p : Char → Bool) (cs : List Char) :
    (find? p cs).getD (utf8Length cs) = utf8Length (cs.takeWhile (!p ·)) := by
  induction cs with
  | nil => rfl
  | cons c cs ih =>
      cases hp : p c with
      | true => simp [find?, hp]
      | false =>
          have hkept : (!p c) = true := by rw [hp]; rfl
          rw [List.takeWhile_cons_of_pos (p := fun d => !p d) hkept, utf8Length_cons,
            utf8Length_cons, ← ih, find?, hp]
          cases find? p cs with
          | none => rfl
          | some n => rfl

end Text

/-! ## Scanning -/

/-- The token that stands from `start` up to `stop`, and the offset behind it. -/
def emit? (source : List Char) (kind : Token.Kind) (start stop : Nat) : Option (Token × Nat) := do
  let part ← Text.slice? start stop source
  return (⟨kind, start, stop, String.ofList part⟩, stop)

/-- The token at an offset where no blank stands, and the offset behind it. -/
def scanToken? (source : List Char) (start : Nat) : Option (Token × Nat) := do
  match ← Text.behind? start source with
  | [] => return (⟨.eof, start, start, ""⟩, start)
  | c :: cs =>
      if c = '-' ∧ cs.head? = some '>' then emit? source .arrow start (start + 2)
      else if c = '-' then emit? source .dash start (start + 1)
      else if c = '>' then emit? source .arrow start (start + 1)
      else if c = '#' then
        let body ← Text.behind? (start + 1) source
        let len := (Text.find? isLineEnd body).getD (Text.utf8Length body)
        let value ← Text.slice? 0 len body
        return (⟨.comment, start, start + 1 + len, String.ofList value⟩, start + 1 + len)
      else if isTextChar c then
        let rest ← Text.behind? start source
        let len := (Text.find? (!isTextChar ·) rest).getD (Text.utf8Length rest)
        emit? source .text start (start + len)
      else emit? source .invalid start (start + c.utf8Size)

/-- The token ahead of an offset and the offset behind it. -/
def scan? (source : List Char) (pos : Nat) : Option (Token × Nat) := do
  let rest ← Text.behind? pos source
  let skipped := Text.utf8Length rest - Text.utf8Length (rest.dropWhile isBlank)
  scanToken? source (pos + skipped)

theorem emit?_append (before part rest : List Char) (kind : Token.Kind) :
    let start := Text.utf8Length before
    let stop := start + Text.utf8Length part
    emit? (before ++ (part ++ rest)) kind start stop =
      some (⟨kind, start, stop, String.ofList part⟩, stop) := by
  intro start stop
  rw [emit?, Text.slice?_append]
  rfl

/-- What is reckoned is the length of what stands there. -/
theorem Lexed.scanToken?_append {ch : Char} {cs : List Char} {l : Lexeme} (h : Lexed ch cs l)
    (before : List Char) :
    let start := Text.utf8Length before
    let stop := start + Text.utf8Length l.chars
    scanToken? (before ++ ch :: cs) start = some (⟨l.kind, start, stop, l.value⟩, stop) := by
  intro start stop
  have hbehind : Text.behind? start (before ++ ch :: cs) = some (ch :: cs) :=
    Text.behind?_append before (ch :: cs)
  rw [scanToken?, hbehind]
  simp only [Option.bind_eq_bind, Option.bind_some]
  cases h with
  | arrow => exact emit?_append before ['-', '>'] _ .arrow
  | dash hhead =>
      rw [if_neg fun h => hhead h.2]
      exact emit?_append before ['-'] cs .dash
  | angle => exact emit?_append before ['>'] cs .arrow
  | comment =>
      have hbody : Text.behind? (start + 1) (before ++ '#' :: cs) = some cs := by
        have hbody := Text.behind?_append (before ++ ['#']) cs
        rwa [Text.utf8Length_append, List.append_assoc] at hbody
      have hvalue := Text.slice?_append [] (cs.takeWhile (!isLineEnd ·)) (cs.dropWhile (!isLineEnd ·))
      rw [List.takeWhile_append_dropWhile, List.nil_append, Text.utf8Length_nil, Nat.zero_add] at hvalue
      have hlen : start + 1 + Text.utf8Length (cs.takeWhile (!isLineEnd ·)) = stop :=
        Nat.add_assoc _ _ _
      simp only [hbody, Text.getD_find?, hvalue, Option.bind_some, hlen]
      rfl
  | text htext =>
      have hne : ∀ d, isTextChar d = false → ch ≠ d := by
        rintro d hd rfl
        rw [hd] at htext
        cases htext
      have hrun : (ch :: cs).takeWhile (!!isTextChar ·) = ch :: cs.takeWhile isTextChar := by
        simp [htext]
      rw [if_neg fun h => hne '-' rfl h.1, if_neg (hne '-' rfl), if_neg (hne '>' rfl),
        if_neg (hne '#' rfl), if_pos htext]
      simp only [Text.getD_find?, hrun]
      have hemit := emit?_append before (ch :: cs.takeWhile isTextChar) (cs.dropWhile isTextChar) .text
      rwa [List.cons_append, List.takeWhile_append_dropWhile] at hemit
  | invalid hdash hangle hhash htext =>
      rw [if_neg fun h => hdash h.1, if_neg hdash, if_neg hangle, if_neg hhash,
        if_neg (Bool.eq_false_iff.mp htext)]
      exact emit?_append before [ch] cs .invalid

theorem scanToken?_end (source : List Char) :
    let start := Text.utf8Length source
    scanToken? source start = some (⟨.eof, start, start, ""⟩, start) := by
  intro start
  have hbehind := Text.behind?_append source []
  rw [List.append_nil] at hbehind
  rw [scanToken?, hbehind]
  rfl

namespace Cursor

/-- The offset of a place is enough to find the token ahead. -/
theorem scan?_between (before rest : List Char) :
    let c := between before rest
    scan? c.source c.offset = some (c.next.1, c.next.2.offset) := by
  intro c
  have hsplit : rest = rest.takeWhile isBlank ++ rest.dropWhile isBlank :=
    List.takeWhile_append_dropWhile.symm
  have hskipped : Text.utf8Length rest - Text.utf8Length (rest.dropWhile isBlank) =
      Text.utf8Length (rest.takeWhile isBlank) := by
    have hlen := congrArg Text.utf8Length hsplit
    rw [Text.utf8Length_append] at hlen
    omega
  have hstart : c.offset + Text.utf8Length (rest.takeWhile isBlank) =
      Text.utf8Length (before ++ rest.takeWhile isBlank) := (Text.utf8Length_append _ _).symm
  have hoffset : c.skipBlanks.offset = Text.utf8Length (before ++ rest.takeWhile isBlank) := hstart
  have hsource : c.source = (before ++ rest.takeWhile isBlank) ++ rest.dropWhile isBlank := by
    rw [List.append_assoc, ← hsplit]
    rfl
  have hbehind : Text.behind? c.offset c.source = some rest := Text.behind?_append before rest
  rw [scan?, hbehind]
  simp only [Option.bind_eq_bind, Option.bind_some]
  rw [hskipped, hstart]
  cases hdrop : rest.dropWhile isBlank with
  | nil =>
      have hrest : c.skipBlanks.rest = [] := hdrop
      rw [next_of_nothing hrest, hoffset, hsource, hdrop, List.append_nil]
      exact scanToken?_end _
  | cons ch cs =>
      have hrest : c.skipBlanks.rest = ch :: cs := hdrop
      rw [next_of_char hrest, hoffset, hsource, hdrop]
      exact (lexed_lexeme ch cs).scanToken?_append _

theorem Sound.scan? {c : Cursor} (h : c.Sound) :
    scan? c.source c.offset = some (c.next.1, c.next.2.offset) := by
  obtain ⟨before, hc⟩ := h
  rw [hc]
  exact scan?_between before c.rest

end Cursor

/-- Scanning fails inside a character and beyond the end, and nowhere else. -/
theorem isSome_scan?_iff {source : List Char} {pos : Nat} :
    (scan? source pos).isSome ↔ Text.IsBoundary source pos := by
  constructor
  · intro h
    rw [Text.isBoundary_iff]
    cases hcut : Text.cut? pos source with
    | some parts => rfl
    | none =>
        rw [scan?, Text.behind?, hcut] at h
        cases h
  · rintro ⟨before, rest, rfl, rfl⟩
    have hscan := Cursor.scan?_between before rest
    exact Option.isSome_of_eq_some hscan

end DnsResponder
