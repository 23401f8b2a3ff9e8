import DnsResponder.Proofs.Rule.Words
import Mathlib.Data.List.TakeWhile

/-!
# Where a token ends

A token is cut off at the first character that cannot belong to it, and nothing behind
that character has a say. So a text may be put together from pieces without any token
being torn or joined, provided that each seam begins with a character that ends what
stands before it. A line end does so after any token, a blank or a `#` after any token
but a comment.

Blanks and comments can then be passed over one at a time, and words be taken one at a
time, by what stands ahead.
-/

namespace DnsResponder

theorem takeWhile_append_of_stop {α : Type} {p : α → Bool} {b : α} (h : p b = false)
    (as bs : List α) :
    (as ++ b :: bs).takeWhile p = as.takeWhile p := by
  induction as with
  | nil => simp [h]
  | cons a as ih =>
      cases ha : p a with
      | true => simp [ha, ih]
      | false => simp [ha]

theorem dropWhile_append_of_stop {α : Type} {p : α → Bool} {b : α} (h : p b = false)
    (as bs : List α) :
    (as ++ b :: bs).dropWhile p = as.dropWhile p ++ b :: bs := by
  induction as with
  | nil => simp [h]
  | cons a as ih =>
      cases ha : p a with
      | true => simp [ha, ih]
      | false => simp [ha]

/-- An element of two lists put together is in the first of them or behind it. -/
theorem append_eq_append_cons {α : Type} {as bs us vs : List α} {a : α}
    (h : as ++ bs = us ++ a :: vs) :
    (∃ ds, as = us ++ a :: ds ∧ vs = ds ++ bs) ∨ ∃ ds, us = as ++ ds ∧ bs = ds ++ a :: vs := by
  rcases List.append_eq_append_iff.mp h with ⟨ds, hus, hbs⟩ | ⟨ds, has, hds⟩
  · exact .inr ⟨ds, hus, hbs⟩
  · cases ds with
    | nil => exact .inr ⟨[], by rw [has, List.append_nil, List.append_nil], hds.symm⟩
    | cons d ds =>
        obtain ⟨rfl, hvs⟩ := List.cons.inj hds
        exact .inl ⟨ds, has, hvs⟩

/-! ## Single tokens -/

/-- The token that is cut off in front of `c` and what comes after it, told by its kind. -/
inductive Lexed : Char → List Char → Lexeme → Prop where
  | arrow {cs : List Char} : Lexed '-' ('>' :: cs) ⟨.arrow, ['-', '>'], cs⟩
  | dash {cs : List Char} : cs.head? ≠ some '>' → Lexed '-' cs ⟨.dash, ['-'], cs⟩
  | angle {cs : List Char} : Lexed '>' cs ⟨.arrow, ['>'], cs⟩
  | comment {cs : List Char} : Lexed '#' cs
      ⟨.comment, '#' :: cs.takeWhile (!isLineEnd ·), cs.dropWhile (!isLineEnd ·)⟩
  | text {c : Char} {cs : List Char} : isTextChar c = true →
      Lexed c cs ⟨.text, c :: cs.takeWhile isTextChar, cs.dropWhile isTextChar⟩
  | invalid {c : Char} {cs : List Char} : c ≠ '-' → c ≠ '>' → c ≠ '#' → isTextChar c = false →
      Lexed c cs ⟨.invalid, [c], cs⟩

theorem lexed_lexeme (c : Char) (cs : List Char) : Lexed c cs (lexeme c cs) := by
  unfold lexeme
  by_cases hdash : c = '-'
  · subst hdash
    rw [if_pos rfl]
    split
    · exact .arrow
    · rename_i hne
      refine .dash fun hhead => ?_
      obtain ⟨rest, rfl⟩ := List.head?_eq_some_iff.mp hhead
      exact hne rest rfl
  · rw [if_neg hdash]
    by_cases hangle : c = '>'
    · subst hangle
      exact .angle
    · rw [if_neg hangle]
      by_cases hhash : c = '#'
      · subst hhash
        exact .comment
      · rw [if_neg hhash]
        split
        · rename_i htext
          exact .text htext
        · rename_i htext
          exact .invalid hdash hangle hhash (Bool.eq_false_iff.mpr htext)

theorem Lexed.eq {c : Char} {cs : List Char} {l : Lexeme} (h : Lexed c cs l) : lexeme c cs = l := by
  unfold lexeme
  cases h with
  | arrow => rfl
  | dash hhead =>
      rw [if_pos rfl]
      split
      · exact absurd rfl hhead
      · rfl
  | angle => rfl
  | comment => rfl
  | text htext =>
      have hne : ∀ d, isTextChar d = false → c ≠ d := by
        rintro d hd rfl
        rw [hd] at htext
        cases htext
      rw [if_neg (hne '-' rfl), if_neg (hne '>' rfl), if_neg (hne '#' rfl), if_pos htext]
  | invalid hdash hangle hhash htext =>
      rw [if_neg hdash, if_neg hangle, if_neg hhash, if_neg (Bool.eq_false_iff.mp htext)]

/-- The character belongs to no token of the kind that stands before it. -/
structure Ends (kind : Token.Kind) (b : Char) : Prop where
  arrow : b ≠ '>'
  text : isTextChar b = false
  comment : kind = .comment → isLineEnd b = true

theorem ends_of_isBlank {kind : Token.Kind} {b : Char} (hb : isBlank b = true)
    (hkind : kind ≠ .comment) : Ends kind b := by
  refine ⟨?_, ?_, fun h => absurd h hkind⟩
  · rintro rfl
    cases hb
  · unfold isBlank at hb
    simp only [Bool.or_eq_true, decide_eq_true_eq] at hb
    rcases hb with ((rfl | rfl) | rfl) | rfl <;> rfl

theorem isBlank_of_isLineEnd {b : Char} (hb : isLineEnd b = true) : isBlank b = true := by
  unfold isLineEnd at hb
  simp only [Bool.or_eq_true, decide_eq_true_eq] at hb
  rcases hb with rfl | rfl
  · rfl
  · rfl

theorem ends_of_isLineEnd (kind : Token.Kind) {b : Char} (hb : isLineEnd b = true) :
    Ends kind b := by
  -- but for comments, a line end is a blank like any other
  have hends : Ends .text b := ends_of_isBlank (isBlank_of_isLineEnd hb) (by decide)
  exact ⟨hends.arrow, hends.text, fun _ => hb⟩

/-- What stands behind the end of a token makes no difference to it. -/
theorem lexeme_append {ch b : Char} {cs : List Char} (h : Ends (lexeme ch cs).kind b)
    (ds : List Char) :
    lexeme ch (cs ++ b :: ds) =
      ⟨(lexeme ch cs).kind, (lexeme ch cs).chars, (lexeme ch cs).rest ++ b :: ds⟩ := by
  have hlexed := lexed_lexeme ch cs
  generalize lexeme ch cs = l at h hlexed ⊢
  refine Lexed.eq ?_
  cases hlexed with
  | arrow => exact .arrow
  | dash hhead =>
      refine .dash fun hhead' => ?_
      cases cs with
      | nil => exact h.arrow (Option.some.inj hhead')
      | cons d cs => exact hhead hhead'
  | angle => exact .angle
  | comment =>
      have hstop : (!isLineEnd b) = false := by rw [h.comment rfl]; rfl
      have hcomment := @Lexed.comment (cs ++ b :: ds)
      rw [takeWhile_append_of_stop (p := fun c => !isLineEnd c) hstop,
        dropWhile_append_of_stop (p := fun c => !isLineEnd c) hstop] at hcomment
      exact hcomment
  | text htext =>
      rw [← dropWhile_append_of_stop h.text, ← takeWhile_append_of_stop h.text cs ds]
      exact .text htext
  | invalid hdash hangle hhash htext => exact .invalid hdash hangle hhash htext

/-- A token that stands alone is cut as it was in its place. -/
theorem lexeme_alone {ch : Char} {cs more : List Char} (h : (lexeme ch cs).chars = ch :: more) :
    lexeme ch more = ⟨(lexeme ch cs).kind, ch :: more, []⟩ := by
  have hlexed := lexed_lexeme ch cs
  generalize lexeme ch cs = l at h hlexed ⊢
  refine Lexed.eq ?_
  have hspan : ∀ p : Char → Bool, (cs.takeWhile p).takeWhile p = cs.takeWhile p ∧
      (cs.takeWhile p).dropWhile p = [] := by
    intro p
    exact ⟨List.takeWhile_idem, List.dropWhile_eq_nil_iff.mpr fun c hc => List.mem_takeWhile_imp hc⟩
  cases hlexed with
  | arrow =>
      obtain rfl := (List.cons.inj h).2
      exact .arrow
  | dash _ =>
      obtain rfl := (List.cons.inj h).2
      exact .dash (by decide)
  | angle =>
      obtain rfl := (List.cons.inj h).2
      exact .angle
  | comment =>
      obtain rfl := (List.cons.inj h).2
      have hcomment := @Lexed.comment (cs.takeWhile (!isLineEnd ·))
      rw [(hspan _).1, (hspan _).2] at hcomment
      exact hcomment
  | text htext =>
      obtain rfl := (List.cons.inj h).2
      have htext' := @Lexed.text ch (cs.takeWhile isTextChar) htext
      rw [(hspan _).1, (hspan _).2] at htext'
      exact htext'
  | invalid hdash hangle hhash htext =>
      obtain rfl := (List.cons.inj h).2
      exact .invalid hdash hangle hhash htext

/-! ## Rows of tokens -/

namespace Cursor

variable {c d : Cursor} {ch : Char} {cs : List Char}

/-- The place behind the characters `cs`, where `rest` is still to come. -/
def past (c : Cursor) (cs rest : List Char) : Cursor :=
  { c with offset := c.offset + Text.utf8Length cs, rest }

@[simp] theorem past_rest (c : Cursor) (cs rest : List Char) : (c.past cs rest).rest = rest := rfl

@[simp] theorem past_past (c : Cursor) (cs ds rest more : List Char) :
    (c.past cs rest).past ds more = c.past (cs ++ ds) more := by
  unfold past
  rw [Text.utf8Length_append, Nat.add_assoc]

theorem past_self (c : Cursor) : c.past [] c.rest = c := rfl

theorem tokens_of_next (h : c.next = d.next) : c.tokens = d.tokens := by
  rw [tokens, tokens.eq_def d, h]

theorem words_of_next (h : c.next = d.next) : c.words = d.words := by
  unfold words
  rw [tokens_of_next h]

/-- The tokens ahead are those behind the blanks. -/
theorem next_of_blanks {bs : List Char} (hbs : ∀ b ∈ bs, isBlank b = true)
    (hrest : c.rest = bs ++ cs) : c.next = (c.past bs cs).next := by
  have hskip : c.skipBlanks = (c.past bs cs).skipBlanks := by
    unfold skipBlanks past
    rw [hrest, List.takeWhile_append_of_pos hbs, List.dropWhile_append_of_pos hbs,
      Text.utf8Length_append, Nat.add_assoc]
  unfold next
  rw [hskip]

/-- What stands behind the blanks is cut off as a token. -/
theorem next_of_ahead {bs : List Char} (hbs : ∀ b ∈ bs, isBlank b = true) (hch : isBlank ch = false)
    (hrest : c.rest = bs ++ ch :: cs) :
    c.next =
      let l := lexeme ch cs
      let start := c.offset + Text.utf8Length bs
      (⟨l.kind, start, start + Text.utf8Length l.chars, l.value⟩, c.past (bs ++ l.chars) l.rest) := by
  have hstop : ¬isBlank ch = true := by rw [hch]; exact Bool.false_ne_true
  have hskip : c.skipBlanks = c.past bs (ch :: cs) := by
    unfold skipBlanks past
    rw [hrest, List.takeWhile_append_of_pos hbs, List.dropWhile_append_of_pos hbs,
      List.takeWhile_cons_of_neg hstop, List.dropWhile_cons_of_neg hstop, List.append_nil]
  rw [next_of_char (by rw [hskip, past_rest]), hskip]
  dsimp only
  rw [← past_past c bs _ (ch :: cs)]
  rfl

/-- Ahead there are blanks, and behind them nothing or the first character of a token. -/
theorem ahead (c : Cursor) :
    ((∀ b ∈ c.rest, isBlank b = true) ∧ c.next.1.kind = .eof) ∨
      ∃ bs ch cs, (∀ b ∈ bs, isBlank b = true) ∧ isBlank ch = false ∧ c.rest = bs ++ ch :: cs := by
  have hsplit : c.rest = c.rest.takeWhile isBlank ++ c.rest.dropWhile isBlank :=
    List.takeWhile_append_dropWhile.symm
  have hblank : ∀ b ∈ c.rest.takeWhile isBlank, isBlank b = true :=
    fun b hb => List.mem_takeWhile_imp hb
  have hhead := List.head?_dropWhile_not isBlank c.rest
  cases hdrop : c.rest.dropWhile isBlank with
  | nil =>
      rw [hdrop, List.append_nil] at hsplit
      rw [← hsplit] at hblank
      exact .inl ⟨hblank, by rw [next_of_nothing hdrop]⟩
  | cons ch cs =>
      rw [hdrop] at hsplit hhead
      exact .inr ⟨_, ch, cs, hblank, by simpa using hhead, hsplit⟩

/-- A token starts behind the place from which it is taken and ahead of the place behind it. -/
theorem start_of_next (hend : c.next.1.kind ≠ .eof) :
    c.offset ≤ c.next.1.start ∧ c.next.1.start < c.next.2.offset := by
  rcases c.ahead with ⟨-, hend'⟩ | ⟨bs, ch, cs, hbs, hch, hrest⟩
  · exact absurd hend' hend
  · obtain ⟨more, hmore⟩ := exists_lexeme_chars ch cs
    have hpos := ch.utf8Size_pos
    rw [next_of_ahead hbs hch hrest]
    unfold past
    dsimp only
    rw [hmore, Text.utf8Length_append, Text.utf8Length_cons]
    constructor
    · omega
    · omega

/-- Where a line ends and more lines follow, its tokens come first, as if it stood alone. -/
theorem tokens_of_line (a : Cursor) :
    ∀ (c : Cursor) (ds : List Char), c.offset = a.offset → c.rest = a.rest ++ '\n' :: ds →
      c.tokens = a.tokens ++ (c.past (a.rest ++ ['\n']) ds).tokens := by
  induction a using tokens.induct with
  | case1 a hend =>
      intro c ds _ hrest
      have hblank : ∀ b ∈ a.rest ++ ['\n'], isBlank b = true := by
        rcases a.ahead with ⟨hblank, -⟩ | ⟨bs, ch, cs, hbs, hch, hrest⟩
        · rw [List.forall_mem_append, List.forall_mem_singleton]
          exact ⟨hblank, rfl⟩
        · rw [next_of_ahead hbs hch hrest] at hend
          exact absurd hend (lexeme_kind_ne_eof ch cs)
      rw [tokens.eq_def a, if_pos hend, List.nil_append]
      refine tokens_of_next (next_of_blanks hblank ?_)
      rw [hrest, List.append_assoc]
      rfl
  | case2 a hend ih =>
      intro c ds hoffset hrest
      rcases a.ahead with ⟨-, hend'⟩ | ⟨bs, ch, cs, hbs, hch, hrest'⟩
      · exact absurd hend' hend
      · -- the line end stops the token, so the token is the same in both texts
        have hnext := next_of_ahead hbs hch hrest'
        have hcrest : c.rest = bs ++ ch :: (cs ++ '\n' :: ds) := by
          rw [hrest, hrest', List.append_assoc, List.cons_append]
        have hcnext := next_of_ahead hbs hch hcrest
        rw [lexeme_append (ends_of_isLineEnd _ rfl)] at hcnext
        have hfirst : c.next.1 = a.next.1 := by
          rw [hcnext, hnext, hoffset]
          rfl
        have hbehind : c.next.2.past (a.next.2.rest ++ ['\n']) ds = c.past (a.rest ++ ['\n']) ds := by
          rw [hcnext, hnext, hrest', ← lexeme_chars_append_rest ch cs]
          dsimp only
          rw [past_rest, past_past]
          simp only [List.append_assoc]
        rw [tokens, tokens.eq_def a, if_neg hend, hfirst, if_neg hend, List.cons_append]
        rw [ih c.next.2 ds, hbehind]
        · rw [hcnext, hnext]
          unfold past
          dsimp only
          rw [hoffset]
        · rw [hcnext, hnext]
          rfl

end Cursor

end DnsResponder
