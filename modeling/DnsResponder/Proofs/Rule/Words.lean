import DnsResponder.Rule.Token

/-!
# Words

The grammar never sees a comment. What it sees of the source ahead is its *words*: the
tokens that are no comments, in order. Skipping comments changes the place and not the
words, and taking the token behind the comments takes exactly the first word.

Places are compared as well. A place *reaches* another when what lies between them has
only been passed over, so that nothing ahead was lost and the byte count still fits.
-/

namespace DnsResponder

namespace Cursor

/-! ## Places -/

/-- The place `c'` lies ahead of `c` in the same source, or is the same place. -/
structure Reaches (c c' : Cursor) : Prop where
  source : c'.source = c.source
  size : c'.size = c.size
  /-- What lies between the places, and how long it is. -/
  passed : ∃ cs, c.rest = cs ++ c'.rest ∧ c'.offset = c.offset + Text.utf8Length cs

variable {c c' c'' : Cursor}

theorem Reaches.refl (c : Cursor) : c.Reaches c := ⟨rfl, rfl, [], rfl, rfl⟩

theorem Reaches.trans (h : c.Reaches c') (h' : c'.Reaches c'') : c.Reaches c'' := by
  obtain ⟨cs, hrest, hoffset⟩ := h.passed
  obtain ⟨ds, hrest', hoffset'⟩ := h'.passed
  refine ⟨h'.source.trans h.source, h'.size.trans h.size, cs ++ ds, ?_, ?_⟩
  · rw [hrest, hrest', List.append_assoc]
  · rw [hoffset', hoffset, Text.utf8Length_append, Nat.add_assoc]

/-! Past the blanks there is either nothing more or a character that starts a token. -/

theorem next_of_nothing (h : c.skipBlanks.rest = []) :
    c.next = (⟨.eof, c.skipBlanks.offset, c.skipBlanks.offset, ""⟩, c.skipBlanks) := by
  unfold next
  dsimp only
  rw [h]

theorem next_of_char {ch : Char} {cs : List Char} (h : c.skipBlanks.rest = ch :: cs) :
    c.next =
      let l := lexeme ch cs
      let stop := c.skipBlanks.offset + Text.utf8Length l.chars
      (⟨l.kind, c.skipBlanks.offset, stop, l.value⟩,
        { c.skipBlanks with offset := stop, rest := l.rest }) := by
  unfold next
  dsimp only
  rw [h]

/-- The token for the end is found nowhere else than at the end. -/
theorem skipBlanks_rest_of_end (h : c.next.1.kind = .eof) : c.skipBlanks.rest = [] := by
  cases hrest : c.skipBlanks.rest with
  | nil => rfl
  | cons ch cs =>
      rw [next_of_char hrest] at h
      exact absurd h (lexeme_kind_ne_eof ch cs)

theorem reaches_skipBlanks (c : Cursor) : c.Reaches c.skipBlanks :=
  ⟨rfl, rfl, c.rest.takeWhile isBlank, List.takeWhile_append_dropWhile.symm, rfl⟩

theorem reaches_next (c : Cursor) : c.Reaches c.next.2 := by
  refine c.reaches_skipBlanks.trans ?_
  unfold next
  dsimp only
  split
  · exact Reaches.refl _
  · rename_i ch cs h
    refine ⟨rfl, rfl, (lexeme ch cs).chars, ?_, rfl⟩
    rw [h, lexeme_chars_append_rest]

theorem reaches_skipComments (c : Cursor) : c.Reaches c.skipComments := by
  fun_induction skipComments c with
  | case1 c h ih => exact c.reaches_next.trans ih
  | case2 c h => exact Reaches.refl c

/-- The bytes behind and the bytes ahead make up the source. -/
def Fits (c : Cursor) : Prop := c.offset + Text.utf8Length c.rest = c.size

theorem fits_ofText (text : String) : (ofText text).Fits := Nat.zero_add _

theorem Fits.of_reaches (h : c.Fits) (hr : c.Reaches c') : c'.Fits := by
  obtain ⟨cs, hrest, hoffset⟩ := hr.passed
  unfold Fits at h ⊢
  rw [hrest, Text.utf8Length_append] at h
  rw [hr.size, hoffset, Nat.add_assoc, h]

/-- A place that is reached and is another one has less of the source ahead. -/
theorem remaining_lt_of_reaches (h : c.Fits) (hr : c.Reaches c') (hne : c' ≠ c) :
    c'.remaining < c.remaining := by
  obtain ⟨cs, hrest, hoffset⟩ := hr.passed
  -- had nothing been passed over, the two places would be one
  have hpassed : cs ≠ [] := by
    rintro rfl
    apply hne
    rw [Text.utf8Length_nil, Nat.add_zero] at hoffset
    obtain ⟨source, size, offset, rest⟩ := c
    obtain ⟨source', size', offset', rest'⟩ := c'
    simp only [mk.injEq]
    exact ⟨hr.source, hr.size, hoffset, hrest.symm⟩
  have hlen := Text.length_le_utf8Length cs
  have hpos := List.length_pos_iff.mpr hpassed
  unfold Fits at h
  rw [hrest, Text.utf8Length_append] at h
  unfold remaining
  rw [hr.size, hoffset]
  omega

/-! ## Words -/

/-- The tokens ahead that are no comments. -/
def words (c : Cursor) : List Token := c.tokens.filter (·.kind ≠ .comment)

theorem words_of_end (h : c.next.1.kind = .eof) : c.words = [] := by
  unfold words
  rw [tokens, if_pos h]
  rfl

theorem words_of_comment (h : c.next.1.kind = .comment) : c.words = c.next.2.words := by
  unfold words
  rw [tokens, if_neg (by rw [h]; decide), List.filter_cons_of_neg (by simp [h])]

theorem words_of_word (h : c.next.1.kind ≠ .comment) (hend : c.next.1.kind ≠ .eof) :
    c.words = c.next.1 :: c.next.2.words := by
  unfold words
  rw [tokens, if_neg hend, List.filter_cons_of_pos (by simp [h])]

/-- Skipping comments leaves the words as they are. -/
theorem words_skipComments (c : Cursor) : c.skipComments.words = c.words := by
  fun_induction skipComments c with
  | case1 c h ih => rw [ih, words_of_comment h]
  | case2 c h => rfl

/-- Behind the comments stands no comment. -/
theorem next_skipComments_kind_ne (c : Cursor) : c.skipComments.next.1.kind ≠ .comment := by
  fun_induction skipComments c with
  | case1 c h ih => exact ih
  | case2 c h => exact h

/-- At the end of the source there is no word. -/
theorem words_eq_nil (h : c.skipComments.next.1.kind = .eof) : c.words = [] := by
  rw [← words_skipComments, words_of_end h]

/-- Elsewhere the token behind the comments is the first word. -/
theorem words_eq_cons (h : c.skipComments.next.1.kind ≠ .eof) :
    c.words = c.skipComments.next.1 :: c.skipComments.next.2.words := by
  rw [← words_skipComments, words_of_word c.next_skipComments_kind_ne h]

end Cursor

end DnsResponder
