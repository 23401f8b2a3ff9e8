import DnsResponder.Proofs.Rule.Cutting
import DnsResponder.Proofs.Rule.Moving

/-!
# Sources one after the other

A source that holds a table can be put in front of any other source, with a line end
between them. The line end closes whatever the first source left open, a comment at its
end above all, so no token comes to stand across the seam and the words of the second
source follow those of the first, moved by as many bytes as now lie in front of them.

The rules of the first source are then read as before, and reading goes on at the second
as if it began there. So either both tables are joined, or the second source is refused
with the complaint that it would have met with alone, and every place in it is moved.
-/

namespace DnsResponder

namespace Cursor

variable {c d : Cursor} {n : Nat}

/-- Where the same text stands `n` bytes later, so does the token at its front. -/
theorem next_of_later (hrest : d.rest = c.rest) (hoffset : d.offset = c.offset + n) :
    Token.Moved (· + n) c.next.1 d.next.1 ∧ d.next.2.rest = c.next.2.rest ∧
      d.next.2.offset = c.next.2.offset + n := by
  rcases c.ahead with ⟨hblank, -⟩ | ⟨bs, ch, cs, hbs, hch, hc⟩
  · have hnothing : c.skipBlanks.rest = [] := List.dropWhile_eq_nil_iff.mpr hblank
    have hnothing' : d.skipBlanks.rest = [] := by
      rw [← hrest] at hblank
      exact List.dropWhile_eq_nil_iff.mpr hblank
    have hskip : d.skipBlanks.offset = c.skipBlanks.offset + n := by
      unfold skipBlanks
      dsimp only
      rw [hrest, hoffset, Nat.add_right_comm]
    rw [next_of_nothing hnothing, next_of_nothing hnothing']
    exact ⟨⟨rfl, hskip⟩, hnothing'.trans hnothing.symm, hskip⟩
  · rw [next_of_ahead hbs hch hc, next_of_ahead hbs hch (hrest.trans hc)]
    unfold past
    dsimp only
    rw [hoffset]
    exact ⟨⟨rfl, Nat.add_right_comm _ _ _⟩, rfl, Nat.add_right_comm _ _ _⟩

/-- Where the same text stands `n` bytes later, so do all its words. -/
theorem words_of_later (hrest : d.rest = c.rest) (hoffset : d.offset = c.offset + n) :
    List.Forall₂ (Token.Moved (· + n)) c.words d.words := by
  induction c using tokens.induct generalizing d with
  | case1 c hend =>
      have hfirst := (next_of_later hrest hoffset).1
      rw [words_of_end hend, words_of_end (hfirst.kind.trans hend)]
      exact .nil
  | case2 c hend ih =>
      obtain ⟨hfirst, hrest', hoffset'⟩ := next_of_later hrest hoffset
      have hbehind := ih hrest' hoffset'
      have hend' : d.next.1.kind ≠ .eof := fun h => hend (hfirst.kind.symm.trans h)
      by_cases hcomment : c.next.1.kind = .comment
      · rw [words_of_comment hcomment, words_of_comment (hfirst.kind.trans hcomment)]
        exact hbehind
      · have hcomment' : d.next.1.kind ≠ .comment := fun h => hcomment (hfirst.kind.symm.trans h)
        rw [words_of_word hcomment hend, words_of_word hcomment' hend']
        exact .cons hfirst hbehind

/-! ## Two lines -/

section Lines

variable (first second : String)

/-- Where the second of two sources starts that are put one after the other. -/
def secondLine : Cursor :=
  (ofText (first ++ "\n" ++ second)).past (first.toList ++ ['\n']) second.toList

theorem toList_append_newline :
    (first ++ "\n" ++ second).toList = first.toList ++ '\n' :: second.toList := by
  simp

theorem words_append_newline :
    (ofText (first ++ "\n" ++ second)).words =
      (ofText first).words ++ (secondLine first second).words := by
  have hrest : (ofText (first ++ "\n" ++ second)).rest =
      (ofText first).rest ++ '\n' :: second.toList := toList_append_newline first second
  have htokens := tokens_of_line (ofText first) (ofText (first ++ "\n" ++ second)) second.toList
    rfl hrest
  unfold words
  rw [htokens, List.filter_append]
  rfl

theorem size_append_newline :
    (ofText (first ++ "\n" ++ second)).size =
      (ofText second).size + (Text.utf8Length first.toList + 1) := by
  have hbyte : ('\n' : Char).utf8Size = 1 := rfl
  unfold ofText
  dsimp only
  rw [toList_append_newline, Text.utf8Length_append, Text.utf8Length_cons]
  omega

variable {first second}

/-- Behind the words of the first source stand those of the second, each as much later. -/
theorem moved_of_reaches (hreach : (ofText (first ++ "\n" ++ second)).Reaches d)
    (hwords : d.words = (secondLine first second).words) :
    (ofText second).Moved (· + (Text.utf8Length first.toList + 1)) d := by
  have hplace : (secondLine first second).offset =
      (ofText second).offset + (Text.utf8Length first.toList + 1) := by
    have hbyte : Text.utf8Length ['\n'] = 1 := rfl
    unfold secondLine past ofText
    dsimp only
    rw [Text.utf8Length_append, hbyte]
  have hsize : d.size = (ofText second).size + (Text.utf8Length first.toList + 1) :=
    hreach.size.trans (size_append_newline first second)
  have hlater : List.Forall₂ (Token.Moved (· + (Text.utf8Length first.toList + 1)))
      (ofText second).words (secondLine first second).words := words_of_later rfl hplace
  refine ⟨fits_ofText second, (fits_ofText _).of_reaches hreach, ?_⟩
  unfold row
  rw [hwords]
  exact List.rel_append hlater (.cons ⟨rfl, hsize⟩ .nil)

end Lines

end Cursor

namespace RuleTable

open DnsResponder.Parser

/--
A source behind one that holds a table adds its own rules to that table, or is refused as
it would be alone, with each place later by the bytes in front of it.
-/
theorem ofText_append_newline {first : String} {table : RuleTable} (h : ofText first = .ok table)
    (second : String) :
    ofText (first ++ "\n" ++ second) =
      match ofText second with
      | .ok more => .ok ⟨table.rules ++ more.rules⟩
      | .error e => .error (e.relocate (· + (Text.utf8Length first.toList + 1))) := by
  -- the rules of the first source are read, and reading goes on at the second
  obtain ⟨c, hreach, hwords, hgo⟩ :=
    repeatFrom_append_of_rows Grammar.reads_rule ne_nil_of_spelt (ofText_eq_ok_iff_rows.mp h) #[]
      (Cursor.ofText (first ++ "\n" ++ second)) _ (Cursor.fits_ofText _)
      (Cursor.words_append_newline first second)
  have hmoved := Cursor.moved_of_reaches hreach hwords
  rw [ofText_eq, hgo, ofText_eq second]
  rcases Alike.repeatFrom .eof Grammar.alike_rule Grammar.reads_rule ne_nil_of_spelt #[]
      (#[] ++ table.rules.toArray) hmoved with ⟨rules, d, d', hd, hd', -⟩ | ⟨e, d, d', hd, hd'⟩
  · rw [hd, hd']
    simp [Except.map]
  · rw [hd, hd']
    rfl

/-- A rule, and behind it a comment that the source leaves open. -/
def openComment : String := "A pi. IN -> - # kept"

theorem ofText_openComment_append :
    ∃ table e, ofText openComment = .ok table ∧ table.size = 1 ∧
      ofText (openComment ++ "\n" ++ openComment) = .ok ⟨table.rules ++ table.rules⟩ ∧
      ofText "A pi. IN" = .error e ∧ e.offsets = [8] ∧
      ofText (openComment ++ "\n" ++ "A pi. IN") = .error (e.relocate (· + 21)) := by
  have hsize : (ofText openComment).toOption.map size = some 1 := by decide +kernel
  have hplaces : namedPlaces "A pi. IN" = [8] := by decide +kernel
  obtain ⟨e, hcut, he⟩ := exists_error_of_namedPlaces (hplaces ▸ List.cons_ne_nil 8 [])
  rcases h : ofText openComment with e' | table
  · rw [h] at hsize
    cases hsize
  · rw [h] at hsize
    refine ⟨table, e, rfl, Option.some.inj hsize, ?_, hcut, he.trans hplaces, ?_⟩
    · rw [ofText_append_newline h, h]
    · rw [ofText_append_newline h, hcut]
      rfl

end RuleTable

end DnsResponder
