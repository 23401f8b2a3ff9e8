import DnsResponder.Proofs.Rule.Offender
import DnsResponder.Proofs.Rule.Tiling

/-!
# Complaints that are true

What a complaint quotes stands in the source, at the byte that it names and nowhere in a
comment. Of a rule, either one of the four words in front of the response is refused, and
the complaint is about that one alone, or the response is, and there are two complaints:
that its first word is no dash, and what is wrong with the record that it is then.

Where a row of words fails is found as blame is, word by word. The words of the row are
tokens, and tokens hold what stands in the source.
-/

namespace DnsResponder

open DnsResponder.Parser (Takes Refuses Fails)

/-! ## Faults -/

/-- The words that a rule has in front of its response. -/
structure Heads (t n c a : Token) : Prop where
  type : Takes .text Grammar.typeOf t
  name : Takes .text Grammar.nameOf n
  class_ : Takes .text Grammar.classOf c
  arrow : a.kind = .arrow

/-- One of the words in front of a response is refused, behind others that are taken. -/
inductive HeadFault : List Token → RuleError → Prop where
  | type {t : Token} {ts : List Token} {e : RuleError} :
      Refuses .text Grammar.typeOf t e → HeadFault (t :: ts) e
  | name {t n : Token} {ts : List Token} {e : RuleError} :
      Takes .text Grammar.typeOf t → Refuses .text Grammar.nameOf n e → HeadFault (t :: n :: ts) e
  | class_ {t n c : Token} {ts : List Token} {e : RuleError} :
      Takes .text Grammar.typeOf t → Takes .text Grammar.nameOf n →
      Refuses .text Grammar.classOf c e → HeadFault (t :: n :: c :: ts) e
  | arrow {t n c a : Token} {ts : List Token} :
      Takes .text Grammar.typeOf t → Takes .text Grammar.nameOf n →
      Takes .text Grammar.classOf c → a.kind ≠ .arrow →
      HeadFault (t :: n :: c :: a :: ts) (.mismatch .arrow a.kind a.value a.start)

/-- One of the words of a record is refused, behind others that are taken. -/
inductive RecordFault : List Token → RuleError → Prop where
  | type {t : Token} {ts : List Token} {e : RuleError} :
      Refuses .text Grammar.valueTypeOf t e → RecordFault (t :: ts) e
  | value {t v : Token} {ts : List Token} {type : RecordType} {e : RuleError} :
      t.kind = .text → Grammar.valueTypeOf t = .ok type →
      Refuses .text (Grammar.valueOf type) v e → RecordFault (t :: v :: ts) e
  | class_ {t v c : Token} {ts : List Token} {type : RecordType} {e : RuleError} :
      t.kind = .text → Grammar.valueTypeOf t = .ok type →
      Takes .text (Grammar.valueOf type) v → Refuses .text Grammar.classOf c e →
      RecordFault (t :: v :: c :: ts) e

/-- The words begin no rule, and the complaint says why. -/
inductive RuleFault : List Token → RuleError → Prop where
  | head {ts : List Token} {e : RuleError} : HeadFault ts e → RuleFault ts e
  | response {t n c a r : Token} {ts : List Token} {e : RuleError} : Heads t n c a →
      r.kind ≠ .dash → RecordFault (r :: ts) e →
      RuleFault (t :: n :: c :: a :: r :: ts)
        (.noAlternative [.mismatch .dash r.kind r.value r.start, e])

section Quoting

variable {ts : List Token} {e : RuleError}

theorem HeadFault.quotes (h : HeadFault ts e) : ∃ t ∈ ts.take 4, e.Quotes t := by
  cases h with
  | type h => exact ⟨_, List.mem_cons_self, h.quotes Grammar.quotes_of_typeOf⟩
  | name _ h =>
      exact ⟨_, List.mem_cons_of_mem _ List.mem_cons_self, h.quotes Grammar.quotes_of_nameOf⟩
  | @class_ t n c _ _ _ _ h => exact ⟨c, by simp, h.quotes Grammar.quotes_of_classOf⟩
  | @arrow t n c a => exact ⟨a, by simp, rfl⟩

theorem RecordFault.quotes (h : RecordFault ts e) : ∃ t ∈ ts, e.Quotes t := by
  cases h with
  | type h => exact ⟨_, List.mem_cons_self, h.quotes Grammar.quotes_of_valueTypeOf⟩
  | value _ _ h =>
      exact ⟨_, List.mem_cons_of_mem _ List.mem_cons_self, h.quotes Grammar.quotes_of_valueOf⟩
  | @class_ t v c _ _ _ _ _ _ h => exact ⟨c, by simp, h.quotes Grammar.quotes_of_classOf⟩

/-- Every complaint quotes one of the words. -/
theorem RuleFault.quotes (h : RuleFault ts e) : ∀ l ∈ e.leaves, ∃ t ∈ ts, l.Quotes t := by
  cases h with
  | head h =>
      obtain ⟨t, ht, hquotes⟩ := h.quotes
      rw [hquotes.leaves]
      exact List.forall_mem_singleton.mpr ⟨t, List.mem_of_mem_take ht, hquotes⟩
  | @response t n c a r ts e _ _ h =>
      obtain ⟨u, hu, hquotes⟩ := h.quotes
      have hleaves : (RuleError.noAlternative [.mismatch .dash r.kind r.value r.start, e]).leaves =
          [.mismatch .dash r.kind r.value r.start, e] := by
        show [_] ++ (e.leaves ++ []) = _
        rw [hquotes.leaves]
        rfl
      rw [hleaves, List.forall_mem_cons, List.forall_mem_singleton]
      exact ⟨⟨r, by simp, rfl⟩, u, by simp [List.mem_cons.mp hu], hquotes⟩

end Quoting

namespace Grammar

open DnsResponder.Parser

theorem fails_found : Fails found RecordFault := by
  unfold found pair
  rw [typedValue_eq, andThen_andThen]
  simp only [andThen_map]
  refine .map (.behind (by decide) (.word fun t ts e h => .type h) fun t type hkind ht => ?_)
  rw [value_of_mem (says_of_valueTypeOf hkind ht).2]
  refine .behind (by decide) (.word fun v ts e h => .value hkind ht h) fun v data hv hdata => ?_
  exact .map (.word fun c ts e h => .class_ hkind ht ⟨hv, data, hdata⟩ h)

theorem fails_response :
    Fails response fun row e => ∃ r ts e', row = r :: ts ∧ r.kind ≠ .dash ∧
      e = .noAlternative [.mismatch .dash r.kind r.value r.start, e'] ∧ RecordFault row e' := by
  have hrefusal : Fails refusal fun row e => ∃ r ts, row = r :: ts ∧ r.kind ≠ .dash ∧
      e = .mismatch .dash r.kind r.value r.start :=
    .map (.expect fun r ts hkind => ⟨r, ts, rfl, hkind, rfl⟩)
  intro c e hfits h
  obtain ⟨e₁, e₂, h₁, h₂, rfl⟩ := oneOf_eq_error h
  obtain ⟨r, ts, hrow, hkind, rfl⟩ := hrefusal c e₁ hfits h₁
  exact ⟨r, ts, e₂, hrow, hkind, rfl, fails_found c e₂ hfits h₂⟩

theorem fails_rule : Fails rule RuleFault := by
  unfold rule subject pair
  rw [← tryMap_ok (expect .arrow)]
  simp only [andThen_andThen, andThen_map]
  refine .map (.behind (by decide) (.word fun t ts e h => .head (.type h)) fun t type htk ht => ?_)
  have ht : Takes .text typeOf t := ⟨htk, type, ht⟩
  refine .behind (by decide) (.word fun n ts e h => .head (.name ht h)) fun n name hnk hn => ?_
  have hn : Takes .text nameOf n := ⟨hnk, name, hn⟩
  refine .behind (by decide) (.word fun c ts e h => .head (.class_ ht hn h))
    fun c class_ hck hc => .map ?_
  have hc : Takes .text classOf c := ⟨hck, class_, hc⟩
  refine .behind (by decide) ?_ fun a _ ha _ => .map fun d e hfits h => ?_
  · rw [tryMap_ok]
    exact .expect fun a ts ha => .head (.arrow ht hn hc ha)
  · obtain ⟨r, ts, e', hrow, hr, rfl, hfault⟩ := fails_response d e hfits h
    rw [hrow] at hfault ⊢
    exact .response ⟨ht, hn, hc, ha⟩ hr hfault

end Grammar

/-! ## Where the words stand -/

/-- What a token other than a comment holds is its text. -/
theorem Token.Stands.part_eq {t : Token} {before part after : List Char}
    (h : t.Stands before part after) (hkind : t.kind ≠ .comment) : part = t.value.toList := by
  have hvalue := h.value
  rw [if_neg hkind] at hvalue
  rw [hvalue, String.toList_ofList]

/-- What the row of a source shows stands in the source, and at the end there is nothing more. -/
theorem Cursor.stands_of_mem_row {source : String} {t : Token}
    (h : t ∈ (ofText source).row) :
    ∃ before after, source.toList = before ++ t.value.toList ++ after ∧
      t.start = Text.utf8Length before ∧
      ((t ∈ (ofText source).tokens ∧ t.kind ≠ .comment ∧ t.Stands before t.value.toList after) ∨
        t.kind = .eof ∧ t.value = "" ∧ t.start = Text.utf8Length source.toList) := by
  rcases List.mem_append.mp h with hword | hend
  · obtain ⟨ht, hkind⟩ := List.mem_filter.mp hword
    have hkind : t.kind ≠ .comment := by simpa using hkind
    have htiled := (ofText source).tiled_tokens [] rfl (.start source.toList)
    obtain ⟨before, part, after, hsource, hstands⟩ := htiled.exists_stands t ht
    obtain rfl := hstands.part_eq hkind
    exact ⟨before, after, hsource, hstands.start, .inl ⟨ht, hkind, hstands⟩⟩
  · obtain rfl := List.mem_singleton.mp hend
    exact ⟨source.toList, [], (List.append_nil _).symm.trans (List.append_nil _).symm, rfl,
      .inr ⟨rfl, rfl, rfl⟩⟩

namespace RuleTable

/--
A source is refused because of the words behind some rules. Either one of the four words in
front of a response is refused, and the complaint quotes it; or the response is, and there
are two complaints, of which the first quotes its first word and the second quotes that
word or a later one. Whatever a complaint quotes stands at its place in the source and is
all of a token there, and none that is a comment; or it is the empty text at the end.
-/
theorem complaints_quote_source {source : String} {e : RuleError} (h : ofText source = .error e) :
    (∃ done rules rest, (Cursor.ofText source).row = done ++ rest ∧
      Parser.Rows Spells done rules ∧
      ((HeadFault rest e ∧ ∃ t ∈ rest.take 4, e.Quotes t) ∨
        ∃ t n c a r more e', rest = t :: n :: c :: a :: r :: more ∧ Heads t n c a ∧
          e = .noAlternative [.mismatch .dash r.kind r.value r.start, e'] ∧ r.kind ≠ .dash ∧
          RecordFault (r :: more) e' ∧ ∃ u ∈ r :: more, e'.Quotes u ∧ r.start ≤ u.start)) ∧
    (∀ l ∈ e.leaves, ∃ text before after,
      l.quote? = some (text, Text.utf8Length before) ∧
      source.toList = before ++ text.toList ++ after ∧
      Text.utf8Length before ≤ Text.utf8Length source.toList ∧
      ((∃ t ∈ (Cursor.ofText source).tokens, t.kind ≠ .comment ∧ t.value = text ∧
          t.Stands before text.toList after) ∨
        text = "" ∧ Text.utf8Length before = Text.utf8Length source.toList)) ∧
    (∀ offset, .noProgress offset ∉ e.leaves) ∧ ∀ text, .custom text ∉ e.leaves := by
  obtain ⟨done, rules, d, hstops⟩ := exists_stops h
  have hfits := Cursor.fits_ofText source
  have hfault := Grammar.fails_rule d e (hfits.of_reaches hstops.reaches) hstops.fails
  have hrow := hstops.row
  generalize d.row = rest at hfault hrow
  have hquotes (l : RuleError) (hl : l ∈ e.leaves) :
      ∃ t ∈ (Cursor.ofText source).row, l.Quotes t := by
    obtain ⟨t, ht, hquotes⟩ := hfault.quotes l hl
    rw [hrow]
    exact ⟨t, List.mem_append_right done ht, hquotes⟩
  refine ⟨⟨done, rules, rest, hrow, hstops.rows, ?_⟩, fun l hl => ?_, fun offset hl => ?_,
    fun text hl => ?_⟩
  · cases hfault with
    | head hhead => exact .inl ⟨hhead, hhead.quotes⟩
    | @response t n c a r more e' hheads hdash hrecord =>
        obtain ⟨u, hu, hu'⟩ := hrecord.quotes
        have hsplit : (Cursor.ofText source).row = (done ++ [t, n, c, a]) ++ r :: more := by
          rw [hrow, List.append_assoc]
          rfl
        have hle : r.start ≤ u.start := by
          rcases List.mem_cons.mp hu with rfl | hlater
          · exact Nat.le_refl _
          · exact Nat.le_of_lt (start_lt_of_row hfits.row_starts.2 hsplit hlater)
        exact .inr ⟨t, n, c, a, r, more, e', rfl, hheads, rfl, hdash, hrecord, u, hu, hu', hle⟩
  · obtain ⟨t, ht, hl'⟩ := hquotes l hl
    obtain ⟨before, after, hsource, hstart, hstands⟩ := Cursor.stands_of_mem_row ht
    unfold RuleError.Quotes at hl'
    rw [hstart] at hl'
    refine ⟨t.value, before, after, hl', hsource, ?_, ?_⟩
    · rw [hsource, Text.utf8Length_append, Text.utf8Length_append, Nat.add_assoc]
      exact Nat.le_add_right _ _
    · rcases hstands with ⟨hmem, hkind, hstands⟩ | ⟨-, hvalue, hend⟩
      · exact .inl ⟨t, hmem, hkind, rfl, hstands⟩
      · exact .inr ⟨hvalue, hstart.symm.trans hend⟩
  · obtain ⟨t, -, hl'⟩ := hquotes _ hl
    cases hl'
  · obtain ⟨t, -, hl'⟩ := hquotes _ hl
    cases hl'

/-- A source with a character of two bytes in front of the words that its complaints quote. -/
def behindRemark : String := "A pi. IN -> #é\nA pi"

theorem complaints_quote_source_behindRemark :
    ∃ e e₁ e₂, ofText behindRemark = .error e ∧ e = .noAlternative [e₁, e₂] ∧
      e.offsets = [16, 18] ∧ ∀ l ∈ e.leaves, ∃ text before after,
        l.quote? = some (text, Text.utf8Length before) ∧
        behindRemark.toList = before ++ text.toList ++ after := by
  have hplaces : namedPlaces behindRemark = [16, 18] := by decide +kernel
  obtain ⟨e, h, he⟩ := exists_error_of_namedPlaces (hplaces ▸ List.cons_ne_nil 16 [18])
  rw [hplaces] at he
  obtain ⟨⟨done, rules, rest, -, -, hfault⟩, hleaves, -⟩ := complaints_quote_source h
  have hquoted (l : RuleError) (hl : l ∈ e.leaves) : ∃ text before after,
      l.quote? = some (text, Text.utf8Length before) ∧
      behindRemark.toList = before ++ text.toList ++ after := by
    obtain ⟨text, before, after, hquote, hsource, -⟩ := hleaves l hl
    exact ⟨text, before, after, hquote, hsource⟩
  rcases hfault with ⟨-, t, -, hquotes⟩ | ⟨t, n, c, a, r, more, e', -, -, hboth, -⟩
  · -- a single complaint names a single place
    rw [hquotes.offsets] at he
    simp at he
  · exact ⟨e, _, e', h, hboth, he, hquoted⟩

end RuleTable

end DnsResponder
