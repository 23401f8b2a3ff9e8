import DnsResponder.Proofs.Rule.Blame
import Mathlib.Data.List.Chain

/-!
# The first offending word

When a source is refused, the last place that the complaint names is that of the first
word that cannot stand where it stands. No source that holds a table begins with the words
up to that one, and some source does begin with the words in front of it. So whoever looks
there looks neither too early nor too late.

One kind of rule is refused later than it might be. The type `AAAA` is let pass behind an
arrow, and only what follows is blamed, whatever it is. No source that holds a table has
that type behind an arrow.

Sources are compared by what their words show and not by where they stand.
-/

namespace DnsResponder

/-! ## Faces -/

theorem Token.Says.of_face {t u : Token} {s : String} (h : t.Says s) (hface : u.face = t.face) :
    u.Says s :=
  ⟨(kind_of_face hface).trans h.1, (value_of_face hface).trans h.2⟩

theorem Verdict.Spelt.of_faces {ts us : List Token} {v : Verdict} (h : v.Spelt ts)
    (hfaces : us.map Token.face = ts.map Token.face) : v.Spelt us := by
  cases h with
  | dash hd =>
      obtain ⟨d, rest, rfl, hface, hrest⟩ := List.map_eq_cons_iff.mp hfaces
      obtain rfl := List.map_eq_nil_iff.mp hrest
      exact .dash ((Token.kind_of_face hface).trans hd)
  | record ht hv hc =>
      obtain ⟨t, rest, rfl, htface, hrest⟩ := List.map_eq_cons_iff.mp hfaces
      obtain ⟨v, rest, rfl, hvface, hrest⟩ := List.map_eq_cons_iff.mp hrest
      obtain ⟨c, rest, rfl, hcface, hrest⟩ := List.map_eq_cons_iff.mp hrest
      obtain rfl := List.map_eq_nil_iff.mp hrest
      exact .record (ht.of_face htface) (hv.of_face hvface) (hc.of_face hcface)

theorem Sentence.Spelt.of_faces {ts us : List Token} {x : Sentence} (h : x.Spelt ts)
    (hfaces : us.map Token.face = ts.map Token.face) : x.Spelt us := by
  obtain ⟨ht, hn, hc, ha, hv⟩ := h
  obtain ⟨t, rest, rfl, htface, hrest⟩ := List.map_eq_cons_iff.mp hfaces
  obtain ⟨n, rest, rfl, hnface, hrest⟩ := List.map_eq_cons_iff.mp hrest
  obtain ⟨c, rest, rfl, hcface, hrest⟩ := List.map_eq_cons_iff.mp hrest
  obtain ⟨a, rest, rfl, haface, hrest⟩ := List.map_eq_cons_iff.mp hrest
  exact .intro (ht.of_face htface) (hn.of_face hnface) (hc.of_face hcface)
    ((Token.kind_of_face haface).trans ha) (hv.of_faces hrest)

theorem Spells.of_faces {ts us : List Token} {r : Rule} (h : Spells ts r)
    (hfaces : us.map Token.face = ts.map Token.face) : Spells us r := by
  obtain ⟨x, hspelt, hmeans⟩ := h
  exact ⟨x, hspelt.of_faces hfaces, hmeans⟩

theorem rows_of_faces {ts us : List Token} {rules : List Rule} (h : Parser.Rows Spells ts rules)
    (hfaces : us.map Token.face = ts.map Token.face) : Parser.Rows Spells us rules := by
  induction h generalizing us with
  | nil =>
      obtain rfl := List.map_eq_nil_iff.mp hfaces
      exact .nil
  | cons hrow _ ih =>
      rw [List.map_append] at hfaces
      obtain ⟨vs, ws, rfl, hvs, hws⟩ := List.map_eq_append_iff.mp hfaces
      exact .cons (hrow.of_faces hvs) (ih hws)

theorem rows_concat {ts us : List Token} {rules : List Rule} {r : Rule}
    (h : Parser.Rows Spells ts rules) (hrow : Spells us r) :
    Parser.Rows Spells (ts ++ us) (rules ++ [r]) := by
  induction h with
  | nil =>
      have hlast : Parser.Rows Spells (us ++ []) [r] := .cons hrow .nil
      rwa [List.append_nil] at hlast
  | cons hfirst _ ih =>
      rw [List.append_assoc]
      exact .cons hfirst ih

/-! ## Where reading stops -/

/-- A repetition fails behind rows that it has read, at a word, and with its body's complaint. -/
theorem Parser.exists_failure_of_repeatFrom {α : Type} {p : Parser α} {R : List Token → α → Prop}
    (hreads : Parser.Reads p R) (hne : ∀ {ts : List Token} {a : α}, R ts a → ts ≠ [])
    {acc : Array α} {c : Cursor} {e : RuleError} (hfits : c.Fits)
    (h : (Parser.repeatFrom p .eof acc c).1 = .error e) :
    ∃ ts as d, Parser.Rows R ts as ∧ c.Reaches d ∧ c.words = ts ++ d.words ∧ d.words ≠ [] ∧
      (p d).1 = .error e := by
  fun_induction Parser.repeatFrom p .eof acc c with
  | case1 acc c here hend => cases h
  | case2 acc c here hend e' d hbody =>
      have hwords : here.words = c.words := c.words_skipComments
      refine ⟨[], [], here, .nil, c.reaches_skipComments, hwords.symm, fun hnone => ?_, ?_⟩
      · exact hend (Parser.peek_skipComments_eq_eof_iff.mpr (hwords.symm.trans hnone))
      · rw [hbody]
        cases h
        rfl
  | case3 acc c here hend a d hbody hless ih =>
      have hreach := c.reaches_skipComments.trans (hreads.reaches hbody)
      obtain ⟨ts, as, d', hrows, hreach', hwords, hsome, hfail⟩ := ih (hfits.of_reaches hreach) h
      obtain ⟨used, hused, hR⟩ := hreads.sound hbody
      refine ⟨used ++ ts, a :: as, d', .cons hR hrows, hreach.trans hreach', ?_, hsome, hfail⟩
      rw [← c.words_skipComments, hused, hwords, List.append_assoc]
  | case4 acc c here hend a d hbody hless =>
      exact absurd (hreads.remaining_lt hne (hfits.of_reaches c.reaches_skipComments) hbody) hless

theorem Cursor.words_of_row {c : Cursor} {us rest : List Token} {t : Token}
    (h : c.row = us ++ t :: rest) : ∃ more, c.words = us ++ more ∧ more ++ [c.ending] = t :: rest := by
  have hwords : c.words = us ++ (t :: rest).dropLast := by
    have hdrop := congrArg List.dropLast h
    unfold row at hdrop
    rwa [List.dropLast_concat, List.dropLast_append_of_ne_nil (List.cons_ne_nil t rest)] at hdrop
  refine ⟨_, hwords, ?_⟩
  unfold row at h
  rw [hwords, List.append_assoc] at h
  exact List.append_cancel_left h

/-- A source that is refused holds some rules, and behind them at `d` words that begin no rule. -/
structure Stops (source : String) (e : RuleError) (done : List Token) (rules : List Rule)
    (d : Cursor) : Prop where
  rows : Parser.Rows Spells done rules
  reaches : (Cursor.ofText source).Reaches d
  words : (Cursor.ofText source).words = done ++ d.words
  more : d.words ≠ []
  fails : (Grammar.rule d).1 = .error e

theorem RuleTable.exists_stops {source : String} {e : RuleError} (h : ofText source = .error e) :
    ∃ done rules d, Stops source e done rules d := by
  have hfails : (Parser.repeatFrom Grammar.rule .eof #[] (Cursor.ofText source)).1 = .error e := by
    rw [ofText_eq] at h
    rcases hrules : Parser.repeatFrom Grammar.rule .eof #[] (Cursor.ofText source) with
      ⟨e' | rules, c⟩
    · rw [hrules] at h
      cases h
      rfl
    · rw [hrules] at h
      cases h
  obtain ⟨done, rules, d, hrows, hreach, hwords, hmore, hfail⟩ :=
    Parser.exists_failure_of_repeatFrom Grammar.reads_rule ne_nil_of_spelt
      (Cursor.fits_ofText source) hfails
  exact ⟨done, rules, d, hrows, hreach, hwords, hmore, hfail⟩

/-- Behind rows of a source that holds a table stand more rows, and nothing else. -/
theorem RuleTable.exists_rows_behind {other : String} {table : RuleTable} {ts rest : List Token}
    {rules : List Rule} (h : ofText other = .ok table) (hrows : Parser.Rows Spells ts rules)
    (hwords : (Cursor.ofText other).words = ts ++ rest) :
    ∃ more, Parser.Rows Spells rest more := by
  obtain ⟨c, -, hrest, hgo⟩ := Parser.repeatFrom_append_of_rows Grammar.reads_rule ne_nil_of_spelt
    hrows #[] (Cursor.ofText other) rest (Cursor.fits_ofText other) hwords
  rw [ofText_eq, hgo] at h
  rcases hout : Parser.repeatFrom Grammar.rule .eof (#[] ++ rules.toArray) c with ⟨e | out, c'⟩
  · rw [hout] at h
    cases h
  · obtain ⟨more, -, hmore⟩ := Parser.rows_of_repeatFrom Grammar.reads_rule hout
    rw [hrest] at hmore
    exact ⟨more, hmore⟩

/-- Words that are written out with a space in front of each. -/
def Layout.spaced : Layout where
  gap _ := ⟨[' '], .blank rfl .nil, List.cons_ne_nil _ _⟩
  finish := []
  closing := .closed .nil

/-- Words that fall apart into rules can be written down as a source. -/
theorem RuleTable.exists_source {ts : List Token} {rules : List Rule}
    (hrows : Parser.Rows Spells ts rules) (hwhole : ∀ t ∈ ts, t.Whole) :
    ∃ other, ofText other = .ok ⟨rules⟩ ∧
      (Cursor.ofText other).words.map Token.face = ts.map Token.face := by
  have hrest : (Cursor.ofText (Layout.spaced.source ts)).rest = Layout.spaced.chars 0 ts :=
    String.toList_ofList
  have hfaces := Layout.spaced.words_of_chars hwhole 0 _ hrest
  exact ⟨_, ofText_eq_ok_iff_rows.mpr (rows_of_faces hrows hfaces), hfaces⟩

/-! ## The blamed word -/

namespace Stops

variable {source other : String} {e : RuleError} {done us : List Token} {t : Token}
  {rules : List Rule} {table : RuleTable} {d : Cursor}

theorem row (h : Stops source e done rules d) :
    (Cursor.ofText source).row = done ++ d.row := by
  unfold Cursor.row
  rw [h.words, Cursor.ending_of_reaches h.reaches, List.append_assoc]

/-- No rule is read where reading stops, so the words there do not begin with one. -/
theorem not_spells (h : Stops source e done rules d) {rs more : List Token} {r : Rule}
    (hwords : d.words = rs ++ more) : ¬Spells rs r := by
  intro hspells
  obtain ⟨d', hd, -⟩ := Grammar.reads_rule.complete hwords hspells
  have hfails := h.fails
  rw [hd] at hfails
  cases hfails

/-- A source that holds a table does not go on with the blamed word. -/
theorem not_accepted (h : Stops source e done rules d)
    (hculprit : Culprit IsRule AsksAaaa d.row e us t) (hother : RuleTable.ofText other = .ok table) :
    ¬(done ++ us ++ [t]).map Token.face <+: (Cursor.ofText other).row.map Token.face := by
  rintro ⟨ext, hext⟩
  obtain ⟨rest, hstands⟩ := hculprit.stands
  obtain ⟨behind, hbehind, hending⟩ := Cursor.words_of_row hstands
  -- cut the other source where this one is cut
  rw [List.map_append, List.map_append, List.append_assoc, List.append_assoc] at hext
  obtain ⟨done', rest₁, hrow, hdone, hrest₁⟩ := List.map_eq_append_iff.mp hext.symm
  obtain ⟨us', rest₂, rfl, hus, hrest₂⟩ := List.map_eq_append_iff.mp hrest₁
  obtain ⟨t', rest₃, rfl, ht, -⟩ := List.map_eq_cons_iff.mp hrest₂
  rw [← List.append_assoc] at hrow
  obtain ⟨more, hwords, hmore⟩ := Cursor.words_of_row hrow
  rw [List.append_assoc] at hwords
  obtain ⟨rules', hrows⟩ := 
    RuleTable.exists_rows_behind hother (rows_of_faces h.rows hdone) hwords
  generalize hfront : us' ++ more = front at hrows
  cases hrows with
  | nil =>
      -- it ends where reading stops here, but here a word follows
      obtain ⟨rfl, rfl⟩ := List.append_eq_nil_iff.mp hfront
      obtain rfl := List.map_eq_nil_iff.mp hus.symm
      cases behind with
      | nil => exact h.more hbehind
      | cons b behind =>
          obtain rfl := (List.cons.inj hending).1
          have hmem : b ∈ d.words := by rw [hbehind]; exact List.mem_cons_self
          have hlast : t'.kind = .eof := by rw [← (List.cons.inj hmore).1]; rfl
          have hend := (d.whole_of_mem_words b hmem).kind_ne_eof
          exact hend ((Token.kind_of_face ht).symm.trans hlast)
  | @cons r xs rule rules' hr hxs =>
      have hcut : r ++ (xs ++ [(Cursor.ofText other).ending]) = us' ++ t' :: rest₃ := by
        rw [← hmore, ← List.append_assoc us', hfront, List.append_assoc]
      rcases append_eq_append_cons hcut with ⟨ds, hds, -⟩ | ⟨ds, hds, -⟩
      · -- its next rule goes on with the blamed word
        have hfaces : (us ++ t :: ds).map Token.face = r.map Token.face := by
          rw [hds, List.map_append, List.map_append, List.map_cons, List.map_cons, hus, ht]
        exact hculprit.unfit ds ⟨rule, hr.of_faces hfaces⟩
      · -- its next rule ends before the blamed word, so there is such a rule here
        rw [hds, List.map_append] at hus
        obtain ⟨rs, ds', rfl, hrs, -⟩ := List.map_eq_append_iff.mp hus.symm
        rw [List.append_assoc] at hbehind
        exact h.not_spells hbehind (hr.of_faces hrs)

/-- Unless they ask for an IPv6 address, the words in front of the blamed one begin some source. -/
theorem viable (h : Stops source e done rules d)
    (hculprit : Culprit IsRule AsksAaaa d.row e us t) :
    AsksAaaa us ∨ ∃ other table, RuleTable.ofText other = .ok table ∧
      (done ++ us).map Token.face <+: (Cursor.ofText other).words.map Token.face := by
  rcases hculprit.viable with hasks | ⟨more, ⟨r, hr⟩, hwhole⟩
  · exact .inl hasks
  · obtain ⟨rest, hstands⟩ := hculprit.stands
    obtain ⟨behind, hbehind, -⟩ := Cursor.words_of_row hstands
    have hwords := h.words
    rw [hbehind, ← List.append_assoc] at hwords
    have hold : ∀ u ∈ done ++ us, u.Whole := by
      intro u hu
      refine (Cursor.ofText source).whole_of_mem_words u ?_
      rw [hwords]
      exact List.mem_append_left behind hu
    have hrows := rows_concat h.rows hr
    rw [← List.append_assoc] at hrows
    obtain ⟨other, hother, hfaces⟩ :=
      RuleTable.exists_source hrows (List.forall_mem_append.mpr ⟨hold, hwhole⟩)
    refine .inr ⟨other, _, hother, more.map Token.face, ?_⟩
    rw [hfaces]
    exact List.map_append.symm

end Stops

/-! ## The type of IPv6 addresses -/

/-- Behind an arrow stands another word than the type of IPv6 addresses. -/
def KeepsOff (a t : Token) : Prop := a.kind = .arrow → ¬t.Says "AAAA"

theorem not_says_of_isResponse {t : Token} {ts : List Token} (h : IsResponse (t :: ts)) :
    ¬t.Says "AAAA" := by
  intro haaaa
  rcases Grammar.isResponse_iff.mp h with ⟨d, hts, hd⟩ | ⟨t', v, c, type, data, hts, ht, -, hmeans, -⟩
  · obtain ⟨rfl, -⟩ := List.cons.inj hts
    rw [haaaa.1] at hd
    cases hd
  · obtain ⟨rfl, -⟩ := List.cons.inj hts
    have htype : type = .aaaa := RecordType.mnemonic_injective (ht.unique haaaa)
    rw [htype] at hmeans
    cases hmeans

theorem keepsOff_of_text {t u : Token} (h : t.kind = .text) : KeepsOff t u := by
  intro harrow
  rw [h] at harrow
  cases harrow

/-- No rule has that type behind its arrow, and no rule ends with the arrow. -/
theorem isChain_of_isRule {ts : List Token} (h : IsRule ts) :
    ts.IsChain KeepsOff ∧ ∀ t ∈ ts.getLast?, t.kind ≠ .arrow := by
  obtain ⟨t, n, c, a, rest, rfl, ht, hn, hc, -, hrest⟩ := Grammar.isRule_iff.mp h
  have hbegin : ∀ {u us}, rest = u :: us → (u :: us).IsChain KeepsOff →
      (t :: n :: c :: a :: u :: us).IsChain KeepsOff := by
    rintro u us rfl hchain
    have hfirst : KeepsOff a u := fun _ => not_says_of_isResponse hrest
    have hsecond : KeepsOff c a := keepsOff_of_text hc.1
    exact .cons_cons (keepsOff_of_text ht.1) (.cons_cons (keepsOff_of_text hn.1)
      (.cons_cons hsecond (.cons_cons hfirst hchain)))
  rcases Grammar.isResponse_iff.mp hrest with
    ⟨d, rfl, hd⟩ | ⟨t', v, c', type, data, rfl, ht', hv, -, hc'⟩
  · refine ⟨hbegin rfl (.singleton d), fun u hu => ?_⟩
    obtain rfl : d = u := Option.some.inj hu
    rw [hd]
    decide
  · have hrecord : [t', v, c'].IsChain KeepsOff :=
      .cons_cons (keepsOff_of_text ht'.1) (.cons_cons (keepsOff_of_text hv) (.singleton c'))
    refine ⟨hbegin rfl hrecord, fun u hu => ?_⟩
    obtain rfl : c' = u := Option.some.inj hu
    rw [hc'.1]
    decide

theorem isChain_of_rows {ts : List Token} {rules : List Rule} (h : Parser.Rows Spells ts rules) :
    ts.IsChain KeepsOff := by
  induction h with
  | nil => exact .nil
  | cons hrow _ ih =>
      obtain ⟨hchain, hlast⟩ := isChain_of_isRule ⟨_, hrow⟩
      exact List.isChain_append.mpr ⟨hchain, ih, fun x hx y _ harrow => absurd harrow (hlast x hx)⟩

namespace RuleTable

/-- No source that holds a table has the type of IPv6 addresses behind an arrow. -/
theorem not_asksAaaa {source : String} {table : RuleTable} (h : ofText source = .ok table)
    {ts : List Token} (hts : ts <+: (Cursor.ofText source).words) : ¬AsksAaaa ts := by
  rintro ⟨front, a, t, rfl, harrow, haaaa⟩
  obtain ⟨behind, hwords⟩ := hts
  have hchain := isChain_of_rows (ofText_eq_ok_iff_rows.mp h)
  rw [← hwords, List.append_assoc] at hchain
  have hkeeps : KeepsOff a t := List.isChain_iff_forall_rel_of_append_cons_cons.mp hchain rfl
  exact hkeeps harrow haaaa

/--
When a source is refused, the last place that is named is that of a word, or of the end.
No source that holds a table begins with the words up to and including it, and some such
source begins with the words in front of it. The one exception is that these end with an
arrow and `AAAA`, which are in no source that holds a table.
-/
theorem blames_first_offender {source : String} {e : RuleError} (h : ofText source = .error e) :
    (∃ t ∈ (Cursor.ofText source).row, e.offsets.max? = some t.start) ∧
    (∀ before t after, (Cursor.ofText source).row = before ++ t :: after →
      e.offsets.max? = some t.start →
      (¬∃ other table, ofText other = .ok table ∧
        (before ++ [t]).map Token.face <+: (Cursor.ofText other).row.map Token.face) ∧
      (AsksAaaa before ∨ ∃ other table, ofText other = .ok table ∧
        before.map Token.face <+: (Cursor.ofText other).words.map Token.face)) ∧
    ∀ other table, ofText other = .ok table →
      ∀ ts, ts <+: (Cursor.ofText other).words → ¬AsksAaaa ts := by
  obtain ⟨done, rules, d, hstops⟩ := exists_stops h
  have hfits := Cursor.fits_ofText source
  obtain ⟨us, t, hculprit⟩ :=
    Grammar.blames_rule d e (hfits.of_reaches hstops.reaches) hstops.fails
  obtain ⟨rest, hstands⟩ := hculprit.stands
  have hrow : (Cursor.ofText source).row = (done ++ us) ++ t :: rest := by
    rw [hstops.row, hstands, List.append_assoc]
  refine ⟨⟨t, ?_, hculprit.latest⟩, ?_, fun other table hother ts hts => not_asksAaaa hother hts⟩
  · rw [hrow]
    exact List.mem_append_right _ List.mem_cons_self
  · intro before t' after hrow' hlatest
    -- no two words stand at one place, so this is the word that was found to blame
    have hstart : t.start = t'.start :=
      Option.some.inj (hculprit.latest.symm.trans hlatest)
    obtain ⟨rfl, rfl⟩ : done ++ us = before ∧ t = t' := by
      rcases place_cases hfits.row_starts.2 hrow hrow' with hsame | ⟨hlt, -⟩ | ⟨hlt, -⟩
      · exact hsame
      · omega
      · omega
    refine ⟨?_, ?_⟩
    · rintro ⟨other, table, hother, hprefix⟩
      exact hstops.not_accepted hculprit hother hprefix
    · rcases hstops.viable hculprit with ⟨front, a, b, rfl, ha, hb⟩ | hviable
      · exact .inl ⟨done ++ front, a, b, (List.append_assoc _ _ _).symm, ha, hb⟩
      · exact .inr hviable

/-- A value that is no address. A dash in front of it would do, but the type there is right too. -/
def badAddress : String := "A pi. IN -> A pi"

/-- The words of `badAddress` in front of the value. -/
def frontOfBadAddress : List Token :=
  [⟨.text, 0, 1, "A"⟩, ⟨.text, 2, 5, "pi."⟩, ⟨.text, 6, 8, "IN"⟩, ⟨.arrow, 9, 11, "->"⟩,
    ⟨.text, 12, 13, "A"⟩]

theorem blames_badAddress :
    ∃ e, ofText badAddress = .error e ∧ e.offsets = [12, 14] ∧
      (¬∃ other table, ofText other = .ok table ∧
        (frontOfBadAddress ++ [Token.mk .text 14 16 "pi"]).map Token.face <+:
          (Cursor.ofText other).row.map Token.face) ∧
      ∃ other table, ofText other = .ok table ∧
        frontOfBadAddress.map Token.face <+: (Cursor.ofText other).words.map Token.face := by
  have hplaces : namedPlaces badAddress = [12, 14] := by decide +kernel
  obtain ⟨e, h, he⟩ := exists_error_of_namedPlaces (hplaces ▸ List.cons_ne_nil 12 [14])
  rw [hplaces] at he
  have hrow : (Cursor.ofText badAddress).row =
      frontOfBadAddress ++ ⟨.text, 14, 16, "pi"⟩ :: [⟨.eof, 16, 16, ""⟩] := by decide +kernel
  have hlatest : e.offsets.max? = some 14 := by
    rw [he]
    rfl
  obtain ⟨-, hblame, -⟩ := blames_first_offender h
  obtain ⟨hunfit, hviable⟩ := hblame _ _ _ hrow hlatest
  refine ⟨e, h, he, hunfit, hviable.resolve_left ?_⟩
  rintro ⟨front, a, t, hfront, -, haaaa⟩
  have hlast := congrArg List.getLast? hfront
  rw [List.getLast?_append_of_ne_nil front (List.cons_ne_nil a [t])] at hlast
  obtain rfl : ⟨.text, 12, 13, "A"⟩ = t := Option.some.inj hlast
  exact absurd haaaa.2 (by decide)

end RuleTable

end DnsResponder
