import DnsResponder.Proofs.Rule.Words
import DnsResponder.Rule.Parser

/-!
# What a parser recognises

A parser *reads* a relation between rows of words and values when it succeeds on a
source exactly if the words ahead begin with a row of the relation, and then answers
with the row's value and stops behind the row. Soundness and completeness are one notion
here, because a combinator needs both of its parts to keep either.

Choice is where completeness could be lost. The first alternative that succeeds wins, so
a later one is only read in full if no row of it can be taken for a row of an earlier
one. Repetition could lose soundness, since it goes by the token ahead and not by
whether its body succeeds, and completeness, since it insists on progress.
-/

namespace DnsResponder

namespace Parser

variable {α β : Type}

/-! ## When a combinator succeeds -/

section Successes

variable {p : Parser α} {q : Parser β} {c c' : Cursor}

theorem expect_eq_ok_iff {kind : Token.Kind} {t : Token} :
    expect kind c = (.ok t, c') ↔ c.skipComments.next = (t, c') ∧ t.kind = kind := by
  unfold expect
  rcases c.skipComments.next with ⟨u, d⟩
  dsimp only
  split
  · rename_i hkind
    refine ⟨fun h => ?_, fun h => ?_⟩
    · cases h
      exact ⟨rfl, hkind⟩
    · cases h.1
      rfl
  · rename_i hkind
    refine ⟨fun h => ?_, fun h => ?_⟩
    · cases h
    · cases h.1
      exact absurd h.2 hkind

theorem expect_of_ne {kind : Token.Kind} (h : c.skipComments.next.1.kind ≠ kind) :
    expect kind c =
      let t := c.skipComments.next.1
      (.error (.mismatch kind t.kind t.value t.start), c.skipComments.next.2) := by
  unfold expect
  rcases hnext : c.skipComments.next with ⟨t, d⟩
  rw [hnext] at h
  exact if_neg h

theorem tryMap_eq_ok_iff {f : α → Except RuleError β} {b : β} :
    tryMap f p c = (.ok b, c') ↔ ∃ a, p c = (.ok a, c') ∧ f a = .ok b := by
  unfold tryMap
  rcases p c with ⟨e | a, d⟩
  · simp [Except.bind]
  · simp [Except.bind, and_assoc, and_comm]

theorem andThen_eq_ok_iff {f : α → Parser β} {b : β} :
    andThen f p c = (.ok b, c') ↔ ∃ a d, p c = (.ok a, d) ∧ f a d = (.ok b, c') := by
  unfold andThen
  rcases p c with ⟨e | a, d⟩
  · simp
  · simp [and_assoc]

/-- The second of two alternatives counts only where the first fails. -/
theorem oneOf_eq_ok_iff {q : Parser α} {a : α} :
    oneOf [p, q] c = (.ok a, c') ↔
      p c = (.ok a, c') ∨ (∃ e d, p c = (.error e, d)) ∧ q c = (.ok a, c') := by
  unfold oneOf firstOf
  rcases p c with ⟨e | b, d⟩
  · dsimp only
    unfold firstOf
    rcases q c with ⟨e' | b', d'⟩
    · simp [firstOf]
    · simp
  · simp

end Successes

/-! ## Reading -/

/-- `p` succeeds exactly on the rows of words that `R` relates to a value, with that value. -/
structure Reads (p : Parser α) (R : List Token → α → Prop) : Prop where
  /-- A success never goes back. -/
  reaches : ∀ {c c' : Cursor} {a : α}, p c = (.ok a, c') → c.Reaches c'
  /-- What a success uses up is a row of its value. -/
  sound : ∀ {c c' : Cursor} {a : α}, p c = (.ok a, c') →
    ∃ used, c.words = used ++ c'.words ∧ R used a
  /-- A row at the front of the words is read, whatever comes behind it. -/
  complete : ∀ {c : Cursor} {used rest : List Token} {a : α}, c.words = used ++ rest →
    R used a → ∃ c', p c = (.ok a, c') ∧ c'.words = rest

namespace Reads

variable {p : Parser α} {q : Parser β} {R : List Token → α → Prop} {S : List Token → β → Prop}

theorem of_iff {R' : List Token → α → Prop} (hp : Reads p R) (h : ∀ ts a, R ts a ↔ R' ts a) :
    Reads p R' where
  reaches := hp.reaches
  sound hc := by
    obtain ⟨used, hused, hR⟩ := hp.sound hc
    exact ⟨used, hused, (h used _).mp hR⟩
  complete hc hR := hp.complete hc ((h _ _).mpr hR)

/-- Expecting a kind of token reads one word of that kind. -/
theorem expect {kind : Token.Kind} (hkind : kind ≠ .eof) :
    Reads (Parser.expect kind) fun ts t => ts = [t] ∧ t.kind = kind where
  reaches := by
    intro c c' t h
    have hnext := c.reaches_skipComments.trans c.skipComments.reaches_next
    rwa [(expect_eq_ok_iff.mp h).1] at hnext
  sound := by
    intro c c' t h
    obtain ⟨hnext, ht⟩ := expect_eq_ok_iff.mp h
    have hwords : c.skipComments.next.1.kind ≠ .eof := by
      rw [hnext, ht]
      exact hkind
    refine ⟨[t], ?_, rfl, ht⟩
    rw [Cursor.words_eq_cons hwords, hnext, List.singleton_append]
  complete := by
    rintro c used rest t hc ⟨rfl, ht⟩
    have hend : c.skipComments.next.1.kind ≠ .eof := by
      intro hend
      rw [Cursor.words_eq_nil hend] at hc
      cases hc
    rw [Cursor.words_eq_cons hend] at hc
    obtain ⟨hfirst, hrest⟩ := List.cons.inj hc
    exact ⟨c.skipComments.next.2, expect_eq_ok_iff.mpr ⟨Prod.ext hfirst rfl, ht⟩, hrest⟩

/-- A parser that only complains reads nothing. -/
theorem fail (e : RuleError) : Reads (Parser.fail e : Parser α) fun _ _ => False where
  reaches h := by cases h
  sound h := by cases h
  complete _ h := h.elim

theorem tryMap {f : α → Except RuleError β} (hp : Reads p R) :
    Reads (Parser.tryMap f p) fun ts b => ∃ a, R ts a ∧ f a = .ok b where
  reaches := by
    intro c c' b h
    obtain ⟨a, hc, -⟩ := tryMap_eq_ok_iff.mp h
    exact hp.reaches hc
  sound := by
    intro c c' b h
    obtain ⟨a, hc, hf⟩ := tryMap_eq_ok_iff.mp h
    obtain ⟨used, hused, hR⟩ := hp.sound hc
    exact ⟨used, hused, a, hR, hf⟩
  complete := by
    rintro c used rest b hc ⟨a, hR, hf⟩
    obtain ⟨c', hc', hrest⟩ := hp.complete hc hR
    exact ⟨c', tryMap_eq_ok_iff.mpr ⟨a, hc', hf⟩, hrest⟩

theorem map {f : α → β} (hp : Reads p R) :
    Reads (Parser.map f p) fun ts b => ∃ a, R ts a ∧ f a = b := by
  refine (tryMap hp).of_iff fun ts b => ?_
  simp only [Except.ok.injEq]

/-- Going on with a parser that the first value picks reads a row and then a row of that parser. -/
theorem andThen {f : α → Parser β} {S : α → List Token → β → Prop} (hp : Reads p R)
    (hf : ∀ a, Reads (f a) (S a)) :
    Reads (Parser.andThen f p) fun ts b => ∃ us vs a, ts = us ++ vs ∧ R us a ∧ S a vs b where
  reaches := by
    intro c c' b h
    obtain ⟨a, d, hc, hd⟩ := andThen_eq_ok_iff.mp h
    exact (hp.reaches hc).trans ((hf a).reaches hd)
  sound := by
    intro c c' b h
    obtain ⟨a, d, hc, hd⟩ := andThen_eq_ok_iff.mp h
    obtain ⟨us, hus, hR⟩ := hp.sound hc
    obtain ⟨vs, hvs, hS⟩ := (hf a).sound hd
    refine ⟨us ++ vs, ?_, us, vs, a, rfl, hR, hS⟩
    rw [hus, hvs, List.append_assoc]
  complete := by
    rintro c used rest b hc ⟨us, vs, a, rfl, hR, hS⟩
    rw [List.append_assoc] at hc
    obtain ⟨d, hd, hrest⟩ := hp.complete hc hR
    obtain ⟨c', hc', hrest'⟩ := (hf a).complete hrest hS
    exact ⟨c', andThen_eq_ok_iff.mpr ⟨a, d, hd, hc'⟩, hrest'⟩

theorem pair (hp : Reads p R) (hq : Reads q S) :
    Reads (Parser.pair p q) fun ts ab => ∃ us vs, ts = us ++ vs ∧ R us ab.1 ∧ S vs ab.2 := by
  refine (andThen hp fun a => map hq).of_iff fun ts ab => ?_
  refine ⟨fun h => ?_, fun h => ?_⟩
  · obtain ⟨us, vs, a, rfl, hR, b, hS, rfl⟩ := h
    exact ⟨us, vs, rfl, hR, hS⟩
  · obtain ⟨us, vs, rfl, hR, hS⟩ := h
    exact ⟨us, vs, ab.1, rfl, hR, ab.2, hS, rfl⟩

/-- Two alternatives of which no row of one can be taken for a row of the other are both read. -/
theorem oneOf {q : Parser α} {S : List Token → α → Prop} (hp : Reads p R) (hq : Reads q S)
    (hapart : ∀ {us us' vs vs' : List Token} {a b : α}, R us a → S us' b →
      us ++ vs ≠ us' ++ vs') :
    Reads (Parser.oneOf [p, q]) fun ts a => R ts a ∨ S ts a where
  reaches := by
    intro c c' a h
    rcases oneOf_eq_ok_iff.mp h with hc | ⟨-, hc⟩
    · exact hp.reaches hc
    · exact hq.reaches hc
  sound := by
    intro c c' a h
    rcases oneOf_eq_ok_iff.mp h with hc | ⟨-, hc⟩
    · obtain ⟨used, hused, hR⟩ := hp.sound hc
      exact ⟨used, hused, .inl hR⟩
    · obtain ⟨used, hused, hS⟩ := hq.sound hc
      exact ⟨used, hused, .inr hS⟩
  complete := by
    intro c used rest a hc h
    rcases h with hR | hS
    · obtain ⟨c', hc', hrest⟩ := hp.complete hc hR
      exact ⟨c', oneOf_eq_ok_iff.mpr (.inl hc'), hrest⟩
    · obtain ⟨c', hc', hrest⟩ := hq.complete hc hS
      refine ⟨c', oneOf_eq_ok_iff.mpr (.inr ⟨?_, hc'⟩), hrest⟩
      rcases hfirst : p c with ⟨e | b, d⟩
      · exact ⟨e, d, rfl⟩
      · -- had the first alternative succeeded, a row of it would stand here as well
        obtain ⟨us, hus, hR⟩ := hp.sound hfirst
        exact absurd (hus.symm.trans hc) (hapart hR hS)

end Reads

/-! ## Repetition -/

/-- The tokens fall apart into rows, one for each of the values, in the same order. -/
inductive Rows (R : List Token → α → Prop) : List Token → List α → Prop where
  | nil : Rows R [] []
  | cons {us vs : List Token} {a : α} {as : List α} :
      R us a → Rows R vs as → Rows R (us ++ vs) (a :: as)

variable {p : Parser α} {R : List Token → α → Prop}

/-- The end of the source is ahead exactly when there are no more words. -/
theorem peek_skipComments_eq_eof_iff {c : Cursor} :
    c.skipComments.peek.kind = .eof ↔ c.words = [] := by
  refine ⟨fun h => ?_, fun h => ?_⟩
  · exact Cursor.words_eq_nil h
  · by_cases hend : c.skipComments.next.1.kind = .eof
    · exact hend
    · rw [Cursor.words_eq_cons hend] at h
      cases h

/-- A repetition up to the end of the source has cut all the words into rows. -/
theorem rows_of_repeatFrom (hp : Reads p R) {acc : Array α} {c c' : Cursor} {out : List α}
    (h : repeatFrom p .eof acc c = (.ok out, c')) :
    ∃ as, out = acc.toList ++ as ∧ Rows R c.words as := by
  fun_induction repeatFrom p .eof acc c with
  | case1 acc c here hend =>
      have hout : acc.toList = out := Except.ok.inj (Prod.mk.inj h).1
      refine ⟨[], by rw [hout, List.append_nil], ?_⟩
      rw [peek_skipComments_eq_eof_iff.mp hend]
      exact .nil
  | case2 acc c here hend e d hbody => cases h
  | case3 acc c here hend a d hbody hless ih =>
      -- the body has read one row, and the repetition goes on behind it
      obtain ⟨as, rfl, hrows⟩ := ih h
      obtain ⟨used, hused, hR⟩ := hp.sound hbody
      refine ⟨a :: as, by simp, ?_⟩
      rw [← Cursor.words_skipComments, hused]
      exact .cons hR hrows
  | case4 acc c here hend a d hbody hless => cases h

/-- A repetition up to the end of the source leaves no word. -/
theorem words_of_repeatFrom {acc : Array α} {c c' : Cursor} {out : List α}
    (h : repeatFrom p .eof acc c = (.ok out, c')) : c'.words = [] := by
  fun_induction repeatFrom p .eof acc c with
  | case1 acc c here hend =>
      rw [← (Prod.mk.inj h).2, Cursor.words_skipComments]
      exact peek_skipComments_eq_eof_iff.mp hend
  | case2 acc c here hend e d hbody => cases h
  | case3 acc c here hend a d hbody hless ih => exact ih h
  | case4 acc c here hend a d hbody hless => cases h

/-- Reading a row moves on, as there is a word in every row. -/
theorem Reads.remaining_lt (hp : Reads p R) (hne : ∀ {ts : List Token} {a : α}, R ts a → ts ≠ [])
    {c c' : Cursor} {a : α} (hfits : c.Fits) (h : p c = (.ok a, c')) :
    c'.remaining < c.remaining := by
  refine Cursor.remaining_lt_of_reaches hfits (hp.reaches h) ?_
  rintro rfl
  obtain ⟨used, hused, hR⟩ := hp.sound h
  exact hne hR (List.append_left_eq_self.mp hused.symm)

/-- A repetition reads all the rows at the front of the words, and goes on behind them. -/
theorem repeatFrom_append_of_rows (hp : Reads p R)
    (hne : ∀ {ts : List Token} {a : α}, R ts a → ts ≠ []) {ts : List Token} {as : List α}
    (h : Rows R ts as) :
    ∀ (acc : Array α) (c : Cursor) (rest : List Token), c.Fits → c.words = ts ++ rest →
      ∃ c', c.Reaches c' ∧ c'.words = rest ∧
        repeatFrom p .eof acc c = repeatFrom p .eof (acc ++ as.toArray) c' := by
  induction h with
  | nil =>
      intro acc c rest _ hwords
      exact ⟨c, .refl c, hwords, by rw [Array.append_empty]⟩
  | @cons us vs a as hR _ ih =>
      intro acc c rest hfits hwords
      rw [List.append_assoc] at hwords
      have hsome : c.words ≠ [] := by
        rw [hwords]
        exact List.append_ne_nil_of_left_ne_nil (hne hR) (vs ++ rest)
      have hhere : c.skipComments.words = us ++ (vs ++ rest) := by
        rw [Cursor.words_skipComments, hwords]
      have hreach := c.reaches_skipComments
      obtain ⟨d, hbody, hrest⟩ := hp.complete hhere hR
      -- the row has moved on, so the check for progress passes
      have hless := hp.remaining_lt hne (hfits.of_reaches hreach) hbody
      have hreach' := hreach.trans (hp.reaches hbody)
      obtain ⟨c', hc', hwords', hgo⟩ := ih (acc.push a) d rest (hfits.of_reaches hreach') hrest
      refine ⟨c', hreach'.trans hc', hwords', ?_⟩
      rw [repeatFrom, if_neg fun hend => hsome (peek_skipComments_eq_eof_iff.mp hend), hbody]
      dsimp only
      rw [if_pos hless, hgo]
      congr 1
      apply Array.ext'
      simp

/-- Words that fall apart into rows are all read, as each row uses up some of the source. -/
theorem repeatFrom_of_rows (hp : Reads p R) (hne : ∀ {ts : List Token} {a : α}, R ts a → ts ≠ [])
    {ts : List Token} {as : List α} (h : Rows R ts as) (acc : Array α) (c : Cursor) (hfits : c.Fits)
    (hwords : c.words = ts) :
    ∃ c', repeatFrom p .eof acc c = (.ok (acc.toList ++ as), c') ∧ c'.words = [] := by
  obtain ⟨d, -, hnone, hgo⟩ :=
    repeatFrom_append_of_rows hp hne h acc c [] hfits (hwords.trans (List.append_nil ts).symm)
  refine ⟨d.skipComments, ?_, by rw [Cursor.words_skipComments, hnone]⟩
  rw [hgo, repeatFrom, if_pos (peek_skipComments_eq_eof_iff.mpr hnone), Array.toList_append]

/-- Where no word is left, the end of the source is what is expected. -/
theorem expect_eof {c : Cursor} (h : c.words = []) : ∃ t c', expect .eof c = (.ok t, c') :=
  ⟨_, _, expect_eq_ok_iff.mpr ⟨rfl, peek_skipComments_eq_eof_iff.mpr h⟩⟩

end Parser

end DnsResponder
