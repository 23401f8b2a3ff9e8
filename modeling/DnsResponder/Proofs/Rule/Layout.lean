import DnsResponder.Proofs.Rule.Cutting
import DnsResponder.Proofs.Rule.Moving

/-!
# Layout

Between its words a source may hold any mixture of blanks and comments. Writing the words
of a source out anew, with other blanks and comments between them, gives a source with the
same words at other places, and so the same table, or the same complaint about the other
places.

The words have to be kept apart by something, as two pieces of text would otherwise be
read as one and a dash would make an arrow with a lone `>` behind it. A comment has to be
closed by the end of its line before a word can follow, and only the last one of a source
may be left open.
-/

namespace DnsResponder

/-! ## What stands between words -/

/-- Blanks and comments, each comment closed by the end of its line. -/
inductive Filler : List Char → Prop where
  | nil : Filler []
  | blank {b : Char} {cs : List Char} : isBlank b = true → Filler cs → Filler (b :: cs)
  | comment {body cs : List Char} {b : Char} : (∀ c ∈ body, isLineEnd c = false) →
      isLineEnd b = true → Filler cs → Filler ('#' :: body ++ b :: cs)

/-- What stands behind the last word: as between words, but the last comment may be left open. -/
inductive Closing : List Char → Prop where
  | closed {cs : List Char} : Filler cs → Closing cs
  | unclosed {cs body : List Char} : Filler cs → (∀ c ∈ body, isLineEnd c = false) →
      Closing (cs ++ '#' :: body)

/-- What stands in front of a word. -/
structure Gap where
  chars : List Char
  filler : Filler chars
  ne_nil : chars ≠ []

/-- What stands in front of each word and behind the last. -/
structure Layout where
  gap : Nat → Gap
  finish : List Char
  closing : Closing finish

namespace Layout

/-- The words from the one with number `n` on, laid out. -/
def chars (l : Layout) (n : Nat) : List Token → List Char
  | [] => l.finish
  | t :: ts => (l.gap n).chars ++ t.value.toList ++ l.chars (n + 1) ts

/-- The source in which the words are laid out. -/
def source (l : Layout) (words : List Token) : String := String.ofList (l.chars 0 words)

end Layout

/-- A comment runs to the end of the source when no line end closes it. -/
theorem lexeme_unclosed {body : List Char} (hbody : ∀ c ∈ body, isLineEnd c = false) :
    lexeme '#' body = ⟨.comment, '#' :: body, []⟩ := by
  have hopen : ∀ c ∈ body, (!isLineEnd c) = true := by
    intro c hc
    rw [hbody c hc]
    rfl
  have hcomment := @Lexed.comment body
  rw [List.takeWhile_eq_self_iff.mpr hopen, List.dropWhile_eq_nil_iff.mpr hopen] at hcomment
  exact hcomment.eq

theorem lexeme_closed {body : List Char} (hbody : ∀ c ∈ body, isLineEnd c = false) {b : Char}
    (hb : isLineEnd b = true) (cs : List Char) :
    lexeme '#' (body ++ b :: cs) = ⟨.comment, '#' :: body, b :: cs⟩ := by
  rw [lexeme_append (ends_of_isLineEnd _ hb), lexeme_unclosed hbody]
  rfl

namespace Cursor

variable {c d : Cursor} {cs rest : List Char}

/-- Where no blank is ahead, a token is. -/
theorem next_of_start {ch : Char} (hch : isBlank ch = false) (hrest : d.rest = ch :: cs) :
    d.next =
      let l := lexeme ch cs
      (⟨l.kind, d.offset, d.offset + Text.utf8Length l.chars, l.value⟩, d.past l.chars l.rest) := by
  have hnone : ∀ b ∈ ([] : List Char), isBlank b = true := List.forall_mem_nil _
  exact next_of_ahead hnone hch hrest

theorem words_of_blank {b : Char} (hb : isBlank b = true) (hrest : d.rest = b :: rest) :
    d.words = (d.past [b] rest).words := by
  have hblank : ∀ c ∈ [b], isBlank c = true := List.forall_mem_singleton.mpr hb
  exact words_of_next (next_of_blanks hblank hrest)

theorem words_of_remark {chars more : List Char} (hrest : d.rest = '#' :: cs)
    (hlexeme : lexeme '#' cs = ⟨.comment, chars, more⟩) : d.words = (d.past chars more).words := by
  have hnext := next_of_start rfl hrest
  rw [hlexeme] at hnext
  have hcomment : d.next.1.kind = .comment := by rw [hnext]
  rw [words_of_comment hcomment, hnext]

/-- There is no word in what stands between words. -/
theorem words_of_filler (h : Filler cs) :
    ∀ d : Cursor, d.rest = cs ++ rest → d.words = (d.past cs rest).words := by
  induction h with
  | nil =>
      intro d hrest
      obtain rfl : d.rest = rest := hrest
      rw [past_self]
  | @blank b cs hb _ ih =>
      intro d hrest
      rw [words_of_blank hb hrest, ih _ rfl, past_past]
      rfl
  | @comment body cs b hbody hb _ ih =>
      intro d hrest
      rw [List.cons_append, List.cons_append, List.append_assoc, List.cons_append] at hrest
      rw [words_of_remark hrest (lexeme_closed hbody hb _),
        words_of_blank (isBlank_of_isLineEnd hb) rfl, ih _ rfl, past_past, past_past]
      simp

theorem words_of_nothing (h : d.rest = []) : d.words = [] := by
  have hskip : d.skipBlanks.rest = [] := by
    show d.rest.dropWhile isBlank = []
    rw [h, List.dropWhile_nil]
  exact words_of_end (by rw [next_of_nothing hskip])

theorem words_of_closing (h : Closing d.rest) : d.words = [] := by
  generalize hrest : d.rest = cs at h
  cases h with
  | closed hfiller =>
      rw [words_of_filler hfiller d (by rw [hrest, List.append_nil])]
      exact words_of_nothing rfl
  | unclosed hfiller hbody =>
      rw [words_of_filler hfiller d hrest,
        words_of_remark rfl (lexeme_unclosed hbody)]
      exact words_of_nothing rfl

/-- Words are found one behind the other, and the end of the source behind all of them. -/
theorem Fits.row_starts (h : c.Fits) :
    (∀ t ∈ c.row, c.offset ≤ t.start) ∧ c.row.Pairwise (·.start < ·.start) := by
  induction c using tokens.induct with
  | case1 c hend =>
      have hle : c.offset ≤ c.size := Nat.le.intro h
      unfold row
      rw [words_of_end hend, List.nil_append]
      exact ⟨List.forall_mem_singleton.mpr hle, List.pairwise_singleton _ _⟩
  | case2 c hend ih =>
      obtain ⟨hbehind, hordered⟩ := ih (h.of_reaches c.reaches_next)
      obtain ⟨hstart, hstop⟩ := start_of_next hend
      by_cases hcomment : c.next.1.kind = .comment
      · have hrow : c.row = c.next.2.row := by
          unfold row
          rw [words_of_comment hcomment, ending_of_reaches c.reaches_next]
        rw [hrow]
        refine ⟨fun t ht => ?_, hordered⟩
        have hle := hbehind t ht
        omega
      · have hrow : c.row = c.next.1 :: c.next.2.row := by
          unfold row
          rw [words_of_word hcomment hend, ending_of_reaches c.reaches_next, List.cons_append]
        rw [hrow, List.forall_mem_cons, List.pairwise_cons]
        refine ⟨⟨hstart, fun t ht => ?_⟩, fun t ht => ?_, hordered⟩
        · have hle := hbehind t ht
          omega
        · exact Nat.lt_of_lt_of_le hstop (hbehind t ht)

end Cursor

/-! ## Words that stand alone -/

/-- No comment, and cut off whole where nothing stands behind it. -/
structure Token.Whole (t : Token) : Prop where
  kind : t.kind ≠ .comment
  cut : ∃ ch more, t.value.toList = ch :: more ∧ isBlank ch = false ∧
    lexeme ch more = ⟨t.kind, ch :: more, []⟩

theorem Token.Whole.kind_ne_eof {t : Token} (h : t.Whole) : t.kind ≠ .eof := by
  obtain ⟨ch, more, -, -, hcut⟩ := h.cut
  have hne := lexeme_kind_ne_eof ch more
  rwa [hcut] at hne

theorem Cursor.whole_of_next {c : Cursor} (hcomment : c.next.1.kind ≠ .comment)
    (hend : c.next.1.kind ≠ .eof) : c.next.1.Whole := by
  refine ⟨hcomment, ?_⟩
  rcases c.ahead with ⟨-, hend'⟩ | ⟨bs, ch, cs, hbs, hch, hrest⟩
  · exact absurd hend' hend
  · obtain ⟨more, hmore⟩ := exists_lexeme_chars ch cs
    rw [next_of_ahead hbs hch hrest] at hcomment ⊢
    refine ⟨ch, more, ?_, hch, lexeme_alone hmore⟩
    dsimp only at hcomment ⊢
    unfold Lexeme.value
    rw [if_neg hcomment, hmore, String.toList_ofList]

theorem Cursor.whole_of_mem_words (c : Cursor) : ∀ t ∈ c.words, t.Whole := by
  induction c using tokens.induct with
  | case1 c hend =>
      rw [words_of_end hend]
      exact fun t ht => absurd ht List.not_mem_nil
  | case2 c hend ih =>
      by_cases hcomment : c.next.1.kind = .comment
      · rw [words_of_comment hcomment]
        exact ih
      · rw [words_of_word hcomment hend, List.forall_mem_cons]
        exact ⟨whole_of_next hcomment hend, ih⟩

/-- The characters do not go on with a word that stands in front of them. -/
def Breaks (cs : List Char) : Prop := ∀ b ∈ cs.head?, ∀ kind, kind ≠ .comment → Ends kind b

theorem lexeme_of_breaks {kind : Token.Kind} {ch : Char} {more rest : List Char}
    (hkind : kind ≠ .comment) (hcut : lexeme ch more = ⟨kind, ch :: more, []⟩)
    (hrest : Breaks rest) : lexeme ch (more ++ rest) = ⟨kind, ch :: more, rest⟩ := by
  cases rest with
  | nil => rw [List.append_nil, hcut]
  | cons b rest =>
      have hends : Ends (lexeme ch more).kind b := by
        rw [hcut]
        exact hrest b rfl kind hkind
      rw [lexeme_append hends, hcut]
      rfl

theorem Filler.breaks {cs : List Char} (h : Filler cs) : Breaks cs := by
  intro b hb kind hkind
  cases h with
  | nil => cases hb
  | blank hblank _ =>
      cases hb
      exact ends_of_isBlank hblank hkind
  | comment _ _ _ =>
      cases hb
      exact ⟨by decide, rfl, fun h => absurd h hkind⟩

theorem Closing.breaks {cs : List Char} (h : Closing cs) : Breaks cs := by
  cases h with
  | closed hfiller => exact hfiller.breaks
  | @unclosed cs body hfiller hbody =>
      cases cs with
      | nil =>
          intro b hb kind hkind
          cases hb
          exact ⟨by decide, rfl, fun h => absurd h hkind⟩
      | cons c cs => exact hfiller.breaks

namespace Layout

variable (l : Layout)

theorem breaks_chars (n : Nat) (ts : List Token) : Breaks (l.chars n ts) := by
  cases ts with
  | nil => exact l.closing.breaks
  | cons t ts =>
      have hgap := (l.gap n).filler.breaks
      obtain ⟨b, cs, hcs⟩ := List.exists_cons_of_ne_nil (l.gap n).ne_nil
      unfold chars
      rw [hcs] at hgap ⊢
      exact hgap

/-- Words that are laid out are found again, each of them and no other. -/
theorem words_of_chars {ts : List Token} (hwhole : ∀ t ∈ ts, t.Whole) :
    ∀ (n : Nat) (d : Cursor), d.rest = l.chars n ts →
      d.words.map Token.face = ts.map Token.face := by
  induction ts with
  | nil =>
      intro n d hrest
      have hclosing := l.closing
      rw [Cursor.words_of_closing (hrest ▸ hclosing)]
  | cons t ts ih =>
      intro n d hrest
      obtain ⟨ht, hts⟩ := List.forall_mem_cons.mp hwhole
      obtain ⟨ch, more, hvalue, hch, hcut⟩ := ht.cut
      unfold chars at hrest
      rw [hvalue, List.append_assoc] at hrest
      -- in front of the word there is none, and what follows does not go on with it
      rw [Cursor.words_of_filler (l.gap n).filler d hrest]
      have hlexeme : lexeme ch (more ++ l.chars (n + 1) ts) =
          ⟨t.kind, ch :: more, l.chars (n + 1) ts⟩ :=
        lexeme_of_breaks ht.kind hcut (l.breaks_chars (n + 1) ts)
      generalize hd' : d.past (l.gap n).chars (ch :: more ++ l.chars (n + 1) ts) = d'
      have hrest' : d'.rest = ch :: (more ++ l.chars (n + 1) ts) := by
        rw [← hd']
        rfl
      have hnext := Cursor.next_of_start hch hrest'
      rw [hlexeme] at hnext
      have hkind : d'.next.1.kind = t.kind := by rw [hnext]
      have hsame : d'.next.1.value = t.value := by
        rw [hnext]
        unfold Lexeme.value
        dsimp only
        rw [if_neg ht.kind, ← hvalue, String.ofList_toList]
      have hcomment := ht.kind
      have hend := ht.kind_ne_eof
      rw [← hkind] at hcomment hend
      have hbehind : d'.next.2.words.map Token.face = ts.map Token.face := by
        refine ih hts (n + 1) d'.next.2 ?_
        rw [hnext]
        rfl
      rw [Cursor.words_of_word hcomment hend, List.map_cons, List.map_cons, hbehind]
      unfold Token.face
      rw [hkind, hsame]

end Layout

/-! ## Layout does not matter -/

/-- Where no two words stand at one place, a change of places is a function of the place. -/
theorem Token.exists_move {ts : List Token} (hordered : ts.Pairwise (·.start < ·.start)) :
    ∀ {us : List Token}, us.map Token.face = ts.map Token.face →
      ∃ move, List.Forall₂ (Token.Moved move) ts us := by
  induction ts with
  | nil =>
      intro us h
      obtain rfl := List.map_eq_nil_iff.mp h
      exact ⟨id, .nil⟩
  | cons t ts ih =>
      intro us h
      obtain ⟨u, us, rfl, hface, hfaces⟩ := List.map_eq_cons_iff.mp h
      obtain ⟨hfirst, hrest⟩ := List.pairwise_cons.mp hordered
      obtain ⟨move, hmove⟩ := ih hrest hfaces
      have hstart : u.start = Function.update move t.start u.start t.start :=
        (Function.update_self t.start u.start move).symm
      refine ⟨Function.update move t.start u.start, .cons ⟨hface, hstart⟩ ?_⟩
      refine ((List.forall₂_and_left ts us).mpr ⟨hfirst, hmove⟩).imp ?_
      rintro v w ⟨hlater, hvw⟩
      refine ⟨hvw.face, ?_⟩
      rw [Function.update_of_ne (Nat.ne_of_gt hlater)]
      exact hvw.start

namespace RuleTable

/-- Every place that a complaint names is the start of a word or the end of the source. -/
theorem offsets_of_ofText {source : String} {e : RuleError} (h : ofText source = .error e) :
    ∀ o ∈ e.offsets, ∃ t ∈ (Cursor.ofText source).row, t.start = o := by
  classical
  -- the complaint stays what it is when all places but these are moved
  let row := (Cursor.ofText source).row
  let move : Nat → Nat := fun o => if ∃ t ∈ row, t.start = o then o else o + 1
  have hfits := Cursor.fits_ofText source
  have hrow : List.Forall₂ (Token.Moved move) row row := by
    refine List.forall₂_same.mpr fun t ht => ⟨rfl, ?_⟩
    exact (if_pos ⟨t, ht, rfl⟩).symm
  have hsame := ofText_of_moved ⟨hfits, hfits, hrow⟩
  rw [h] at hsame
  have hfixed : e = e.relocate move := Except.error.inj hsame
  have hoffsets : e.offsets.map move = e.offsets.map id := by
    rw [← RuleError.offsets_relocate, ← hfixed, List.map_id]
  intro o ho
  by_contra hne
  have hmoved : move o = o := List.map_inj_left.mp hoffsets o ho
  have hmoved' : move o = o + 1 := if_neg hne
  omega

/--
A source whose words are laid out anew has the same words at other places. It holds the
same table, or it is refused with the same complaint, which names for each place the
other one.
-/
theorem ofText_layout (source : String) (l : Layout) :
    let row := (Cursor.ofText source).row
    let text := l.source (Cursor.ofText source).words
    ∃ move : Nat → Nat, List.Forall₂ (Token.Moved move) row (Cursor.ofText text).row ∧
      ofText text = (ofText source).mapError (·.relocate move) ∧
      ∀ e, ofText source = .error e → ∀ o ∈ e.offsets, ∃ t ∈ row, t.start = o := by
  intro row text
  have hwhole := (Cursor.ofText source).whole_of_mem_words
  have hrest : (Cursor.ofText text).rest = l.chars 0 (Cursor.ofText source).words :=
    String.toList_ofList
  have hwords := l.words_of_chars hwhole 0 (Cursor.ofText text) hrest
  have hrow : (Cursor.ofText text).row.map Token.face = row.map Token.face := by
    unfold row Cursor.row
    rw [List.map_append, List.map_append, hwords]
    rfl
  have hfits := Cursor.fits_ofText source
  obtain ⟨move, hmove⟩ := Token.exists_move hfits.row_starts.2 hrow
  refine ⟨move, hmove, ?_, fun e he => offsets_of_ofText he⟩
  exact ofText_of_moved ⟨hfits, Cursor.fits_ofText text, hmove⟩

/-- Each word behind an empty comment, and a comment left open behind the last. -/
def remarks : Layout where
  gap _ := ⟨['#', '\r'], .comment (List.forall_mem_nil _) rfl .nil, List.cons_ne_nil _ _⟩
  finish := ['#', '-']
  closing := .unclosed .nil (List.forall_mem_singleton.mpr rfl)

theorem ofText_layout_remarks :
    (remarks.source (Cursor.ofText "A pi.IN IN -> -").words = "#\rA#\rpi.IN#\rIN#\r->#\r-#-" ∧
      ∃ table, ofText "A pi.IN IN -> -" = .ok table ∧ table.rules.map Rule.response = [.refusal] ∧
        ofText "#\rA#\rpi.IN#\rIN#\r->#\r-#-" = .ok table) ∧
    remarks.source (Cursor.ofText "A pi.IN ").words = "#\rA#\rpi.IN#-" ∧
      ∃ (move : Nat → Nat) (e : RuleError), move 8 = 12 ∧ ofText "A pi.IN " = .error e ∧
        e.offsets = [8] ∧ ofText "#\rA#\rpi.IN#-" = .error (e.relocate move) := by
  constructor
  · have hsource : remarks.source (Cursor.ofText "A pi.IN IN -> -").words =
        "#\rA#\rpi.IN#\rIN#\r->#\r-#-" := by decide +kernel
    have hresponses : (ofText "A pi.IN IN -> -").toOption.map (·.rules.map Rule.response) =
        some [.refusal] := by decide +kernel
    obtain ⟨_, -, hsame, -⟩ := ofText_layout "A pi.IN IN -> -" remarks
    cases hcut : ofText "A pi.IN IN -> -" with
    | error e => rw [hcut] at hresponses; cases hresponses
    | ok table =>
        rw [hcut] at hresponses
        rw [hsource, hcut] at hsame
        exact ⟨hsource, table, rfl, Option.some.inj hresponses, hsame⟩
  · have hsource : remarks.source (Cursor.ofText "A pi.IN ").words = "#\rA#\rpi.IN#-" := by
      decide +kernel
    have hplaces : namedPlaces "A pi.IN " = [8] := by decide +kernel
    obtain ⟨e, hcut, he⟩ := exists_error_of_namedPlaces (hplaces ▸ List.cons_ne_nil 8 [])
    obtain ⟨move, hrow, hsame, -⟩ := ofText_layout "A pi.IN " remarks
    rw [hsource] at hrow hsame
    have hold : (Cursor.ofText "A pi.IN ").row =
        [⟨.text, 0, 1, "A"⟩, ⟨.text, 2, 7, "pi.IN"⟩, ⟨.eof, 8, 8, ""⟩] := by decide +kernel
    have hnew : (Cursor.ofText "#\rA#\rpi.IN#-").row =
        [⟨.text, 2, 3, "A"⟩, ⟨.text, 5, 10, "pi.IN"⟩, ⟨.eof, 12, 12, ""⟩] := by decide +kernel
    rw [hold, hnew] at hrow
    refine ⟨hsource, move, e, ?_, hcut, he.trans hplaces, ?_⟩
    · obtain ⟨-, hrow⟩ := List.forall₂_cons.mp hrow
      obtain ⟨-, hrow⟩ := List.forall₂_cons.mp hrow
      exact (List.forall₂_cons.mp hrow).1.start.symm
    · rw [hsame, hcut]
      rfl

end RuleTable

end DnsResponder
