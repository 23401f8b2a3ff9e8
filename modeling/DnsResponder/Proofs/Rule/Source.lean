import DnsResponder.Proofs.Rule.Sentence
import Mathlib.Data.List.Forall2

/-!
# What a source holds

A source holds a table of rules exactly when its words, comments left out, are
sentences from the first to the last, each with a meaning. The table then has one rule
for each sentence, in the order of the source. Every other source is refused as a whole.

Which sentences the words spell is never in question: the first word of what follows
tells the one shape from the other, so the words can be cut up in one way only.
-/

namespace DnsResponder

/-! ## From words to sentences to rules -/

/-- Rows related to values in two steps can be related step by step. -/
theorem Parser.rows_exists_iff {α β : Type} {R : List Token → α → Prop} {S : α → β → Prop}
    {ts : List Token} {bs : List β} :
    Parser.Rows (fun ts b => ∃ a, R ts a ∧ S a b) ts bs ↔
      ∃ as, Parser.Rows R ts as ∧ List.Forall₂ S as bs := by
  refine ⟨fun h => ?_, fun h => ?_⟩
  · induction h with
    | nil => exact ⟨[], .nil, .nil⟩
    | cons hrow _ ih =>
        obtain ⟨a, hR, hS⟩ := hrow
        obtain ⟨as, hrows, hall⟩ := ih
        exact ⟨a :: as, .cons hR hrows, .cons hS hall⟩
  · obtain ⟨as, hrows, hall⟩ := h
    induction hrows generalizing bs with
    | nil =>
        cases hall
        exact .nil
    | cons hR _ ih =>
        cases hall with
        | cons hS hall => exact .cons ⟨_, hR, hS⟩ (ih hall)

namespace RuleTable

open DnsResponder.Parser

/-- There is nothing to complain of behind the rules: they end where the source does. -/
theorem ofText_eq (source : String) :
    ofText source = (repeatFrom Grammar.rule .eof #[] (Cursor.ofText source)).1.map mk := by
  unfold ofText run Grammar.rules Parser.map tryMap pair andThen repeatUntil
  rcases hrules : repeatFrom Grammar.rule .eof #[] (Cursor.ofText source) with ⟨e | rules, c⟩
  · rfl
  · obtain ⟨t, c', hend⟩ := expect_eof (words_of_repeatFrom hrules)
    unfold Parser.map tryMap
    dsimp only
    rw [hend]
    rfl

theorem ne_nil_of_spelt {ts : List Token} {r : Rule} (h : ∃ x : Sentence, x.Spelt ts ∧ x.Means r) :
    ts ≠ [] := by
  obtain ⟨x, ⟨-, -, -, -, -⟩, -⟩ := h
  exact List.cons_ne_nil _ _

/-- The grammar takes the words of a source for the rules of a table exactly when they spell them. -/
theorem ofText_eq_ok_iff_rows {source : String} {table : RuleTable} :
    ofText source = .ok table ↔
      Rows (fun ts r => ∃ x : Sentence, x.Spelt ts ∧ x.Means r) (Cursor.ofText source).words
        table.rules := by
  rw [ofText_eq]
  constructor
  · intro h
    rcases hrules : repeatFrom Grammar.rule .eof #[] (Cursor.ofText source) with ⟨e | rules, c⟩
    · rw [hrules] at h
      cases h
    · rw [hrules] at h
      cases h
      obtain ⟨as, hout, hrows⟩ := rows_of_repeatFrom Grammar.reads_rule hrules
      rw [hout]
      exact hrows
  · intro h
    obtain ⟨c, hrules, -⟩ := repeatFrom_of_rows Grammar.reads_rule ne_nil_of_spelt h #[]
      (Cursor.ofText source) (Cursor.fits_ofText source) rfl
    rw [hrules]
    rfl

/--
A source holds exactly the table that its sentences mean, one rule for each sentence and
in the same order. It is refused exactly when its words are no sentences, or when one of
them means nothing.
-/
theorem ofText_eq_ok_iff (source : String) :
    (∀ table : RuleTable, ofText source = .ok table ↔
      ∃ xs, Rows Sentence.Spelt (Cursor.ofText source).words xs ∧
        List.Forall₂ Sentence.Means xs table.rules) ∧
    ((∃ e, ofText source = .error e) ↔
      ¬∃ xs rules, Rows Sentence.Spelt (Cursor.ofText source).words xs ∧
        List.Forall₂ Sentence.Means xs rules) := by
  have hiff : ∀ table : RuleTable, ofText source = .ok table ↔
      ∃ xs, Rows Sentence.Spelt (Cursor.ofText source).words xs ∧
        List.Forall₂ Sentence.Means xs table.rules :=
    fun table => ofText_eq_ok_iff_rows.trans rows_exists_iff
  refine ⟨hiff, ?_⟩
  refine ⟨fun h => ?_, fun h => ?_⟩
  · obtain ⟨e, he⟩ := h
    rintro ⟨xs, rules, h⟩
    rw [(hiff ⟨rules⟩).mpr ⟨xs, h⟩] at he
    cases he
  · cases hs : ofText source with
    | error e => exact ⟨e, rfl⟩
    | ok table =>
        obtain ⟨xs, hrows, hall⟩ := (hiff table).mp hs
        exact absurd ⟨xs, table.rules, hrows, hall⟩ h

end RuleTable

/-! ## One way to cut -/

theorem RecordType.mnemonic_injective : Function.Injective mnemonic := by
  intro t u h
  have ht := ofMnemonic?_mnemonic t
  rw [h, ofMnemonic?_mnemonic] at ht
  exact (Option.some.inj ht).symm

theorem RecordClass.mnemonic_injective : Function.Injective mnemonic := by
  intro c d h
  have hc := ofMnemonic?_mnemonic c
  rw [h, ofMnemonic?_mnemonic] at hc
  exact (Option.some.inj hc).symm

/-- A piece of text says one thing. -/
theorem Token.Says.unique {t : Token} {s s' : String} (h : t.Says s) (h' : t.Says s') : s = s' :=
  h.2.symm.trans h'.2

/-- The first word tells a dash from a record, and so where the sentence ends. -/
theorem Verdict.Spelt.unique {us us' vs vs' : List Token} {v v' : Verdict} (h : v.Spelt us)
    (h' : v'.Spelt us') (heq : us ++ vs = us' ++ vs') : v = v' ∧ vs = vs' := by
  cases h with
  | dash hd =>
      cases h' with
      | dash _ => exact ⟨rfl, (List.cons.inj heq).2⟩
      | record ht _ _ =>
          have hkind := ht.1
          rw [← (List.cons.inj heq).1, hd] at hkind
          cases hkind
  | record ht hv hc =>
      cases h' with
      | dash hd =>
          have hkind := ht.1
          rw [(List.cons.inj heq).1, hd] at hkind
          cases hkind
      | record ht' hv' hc' =>
          simp only [List.cons_append, List.nil_append, List.cons.injEq] at heq
          obtain ⟨rfl, rfl, rfl, hrest⟩ := heq
          refine ⟨?_, hrest⟩
          rw [RecordType.mnemonic_injective (ht.unique ht'), hv.unique hv',
            RecordClass.mnemonic_injective (hc.unique hc')]

theorem Sentence.Spelt.unique {us us' vs vs' : List Token} {x x' : Sentence} (h : x.Spelt us)
    (h' : x'.Spelt us') (heq : us ++ vs = us' ++ vs') : x = x' ∧ vs = vs' := by
  obtain ⟨ht, hn, hc, -, hverdict⟩ := h
  obtain ⟨ht', hn', hc', -, hverdict'⟩ := h'
  simp only [List.cons_append, List.cons.injEq] at heq
  obtain ⟨rfl, rfl, rfl, rfl, htail⟩ := heq
  obtain ⟨hv, hrest⟩ := hverdict.unique hverdict' htail
  refine ⟨?_, hrest⟩
  obtain ⟨type, name, class_, verdict⟩ := x
  obtain ⟨type', name', class_', verdict'⟩ := x'
  simp only [Sentence.mk.injEq]
  exact ⟨RecordType.mnemonic_injective (ht.unique ht'), hn.unique hn',
    RecordClass.mnemonic_injective (hc.unique hc'), hv⟩

/-- Words spell at most one row of sentences. -/
theorem Sentence.rows_unique {ts : List Token} {xs : List Sentence}
    (h : Parser.Rows Sentence.Spelt ts xs) :
    ∀ {ys : List Sentence}, Parser.Rows Sentence.Spelt ts ys → xs = ys := by
  induction h with
  | nil =>
      intro ys h'
      generalize hts : ([] : List Token) = ts at h'
      cases h' with
      | nil => rfl
      | cons hy _ => cases hy; cases hts
  | @cons us vs x xs hx _ ih =>
      -- the other cutting begins with a sentence too, and it is the same one
      intro ys h'
      generalize hts : us ++ vs = ts at h'
      cases h' with
      | nil => cases hx; cases hts
      | cons hy hys =>
          obtain ⟨rfl, rfl⟩ := hx.unique hy hts
          rw [ih hys]

end DnsResponder
