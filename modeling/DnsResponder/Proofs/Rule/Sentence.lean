import DnsResponder.Proofs.Net.DottedQuad
import DnsResponder.Proofs.Rule.Recognition
import DnsResponder.Rule.Grammar

/-!
# Sentences

A rule as it is written is a *sentence*: a type, a name, a class, an arrow, and then a
dash or a record. Two questions about it are kept apart. A row of words *spells* a
sentence when it has the shape and the mnemonics of one. A sentence *means* a rule when
its name is a domain name and its value a value for its type, and then the rule is
determined.

The grammar reads exactly the sentences that mean something, and a source holds a table
exactly when its words are such sentences from the first to the last. There is no third
way: no word is passed over between two rules, and no rule is dropped or merged.
-/

namespace DnsResponder

/-- The token is a piece of text that reads `s`. -/
def Token.Says (t : Token) (s : String) : Prop := t.kind = .text ∧ t.value = s

/-- How a rule ends. -/
inductive Verdict where
  | dash
  | record (type : RecordType) (value : String) (class_ : RecordClass)
deriving DecidableEq

/-- A rule as it is written. -/
structure Sentence where
  type : RecordType
  name : String
  class_ : RecordClass
  verdict : Verdict
deriving DecidableEq

/-- The words spell the end of a rule. -/
inductive Verdict.Spelt : List Token → Verdict → Prop where
  | dash {d : Token} : d.kind = .dash → Spelt [d] .dash
  | record {t v c : Token} {type : RecordType} {value : String} {class_ : RecordClass} :
      t.Says type.mnemonic → v.Says value → c.Says class_.mnemonic →
      Spelt [t, v, c] (.record type value class_)

/-- The words spell a sentence. -/
inductive Sentence.Spelt : List Token → Sentence → Prop where
  | intro {t n c a : Token} {ts : List Token} {x : Sentence} :
      t.Says x.type.mnemonic → n.Says x.name → c.Says x.class_.mnemonic → a.kind = .arrow →
      x.verdict.Spelt ts → Spelt (t :: n :: c :: a :: ts) x

/-- What a value stands for, by the type in front of it. For all other types it stands for nothing. -/
inductive ValueMeans : RecordType → String → Bytes → Prop where
  /-- An address is written as a dotted quad, and stands for its four octets. -/
  | address (x : Ipv4) : ValueMeans .a x.text #[x.a, x.b, x.c, x.d]
  | alias (text : String) : ValueMeans .cname text text.toUTF8.data
  | text (text : String) : ValueMeans .txt text text.toUTF8.data

/-- What the end of a rule answers. -/
inductive Verdict.Means : Verdict → Response → Prop where
  | dash : Means .dash (.notFound 4)
  | record {type : RecordType} {value : String} {class_ : RecordClass} {data : Bytes} :
      ValueMeans type value data →
      Means (.record type value class_) (.found type.code class_.code data)

/-- The rule that a sentence means. -/
structure Sentence.Means (x : Sentence) (r : Rule) : Prop where
  type : r.type = x.type.code
  name : Name.ofText x.name = .ok r.name
  class_ : r.class_ = x.class_.code
  response : x.verdict.Means r.response

/-! ## Single words -/

theorem RecordType.ofMnemonic?_eq_some_iff {text : String} {t : RecordType} :
    ofMnemonic? text = some t ↔ text = t.mnemonic := by
  refine ⟨fun h => ?_, fun h => ?_⟩
  · have hfound := List.find?_some h
    exact (of_decide_eq_true hfound).symm
  · subst h
    exact ofMnemonic?_mnemonic t

theorem RecordClass.ofMnemonic?_eq_some_iff {text : String} {c : RecordClass} :
    ofMnemonic? text = some c ↔ text = c.mnemonic := by
  refine ⟨fun h => ?_, fun h => ?_⟩
  · have hfound := List.find?_some h
    exact (of_decide_eq_true hfound).symm
  · subst h
    exact ofMnemonic?_mnemonic c

namespace Grammar

open DnsResponder.Parser

theorem typeOf_eq_ok_iff {token : Token} {t : RecordType} :
    typeOf token = .ok t ↔ token.value = t.mnemonic := by
  rw [← RecordType.ofMnemonic?_eq_some_iff]
  unfold typeOf
  cases RecordType.ofMnemonic? token.value with
  | none => simp
  | some u => simp

theorem classOf_eq_ok_iff {token : Token} {c : RecordClass} :
    classOf token = .ok c ↔ token.value = c.mnemonic := by
  rw [← RecordClass.ofMnemonic?_eq_some_iff]
  unfold classOf
  cases RecordClass.ofMnemonic? token.value with
  | none => simp
  | some u => simp

theorem nameOf_eq_ok_iff {token : Token} {n : Name} :
    nameOf token = .ok n ↔ Name.ofText token.value = .ok n := by
  unfold nameOf
  cases Name.ofText token.value with
  | error e => simp
  | ok m => simp

theorem ipv4Of_eq_ok_iff {token : Token} {data : Bytes} :
    ipv4Of token = .ok data ↔ ∃ x : Ipv4, token.value = x.text ∧ x.octets = data := by
  have hiff : ∀ x : Ipv4, Ipv4.ofChars? token.value.toList = some x ↔ token.value = x.text :=
    fun x => Ipv4.ofChars?_eq_some_iff.trans String.toList_inj
  unfold ipv4Of
  cases hx : Ipv4.ofChars? token.value.toList with
  | none =>
      refine ⟨fun h => ?_, fun h => ?_⟩
      · cases h
      · obtain ⟨x, h, -⟩ := h
        rw [(hiff x).mpr h] at hx
        cases hx
  | some x =>
      have htext := (hiff x).mp hx
      refine ⟨fun h => ?_, fun h => ?_⟩
      · exact ⟨x, htext, Except.ok.inj h⟩
      · obtain ⟨y, h, rfl⟩ := h
        rw [(hiff y).mpr h] at hx
        cases hx
        rfl

/-- A word of text that a change accepts. -/
theorem reads_text {β : Type} (f : Token → Except RuleError β) :
    Reads (tryMap f (expect .text)) fun ts b => ∃ t, ts = [t] ∧ t.kind = .text ∧ f t = .ok b := by
  refine (Reads.tryMap (Reads.expect (by decide))).of_iff fun ts b => ?_
  simp only [and_assoc]

theorem reads_recordType : Reads recordType fun ts type => ∃ t, ts = [t] ∧ t.Says type.mnemonic := by
  refine (reads_text typeOf).of_iff fun ts type => ?_
  simp only [typeOf_eq_ok_iff, Token.Says]

theorem reads_recordClass :
    Reads recordClass fun ts class_ => ∃ t, ts = [t] ∧ t.Says class_.mnemonic := by
  refine (reads_text classOf).of_iff fun ts class_ => ?_
  simp only [classOf_eq_ok_iff, Token.Says]

theorem reads_domainName :
    Reads domainName fun ts n => ∃ t, ts = [t] ∧ t.kind = .text ∧ Name.ofText t.value = .ok n := by
  refine (reads_text nameOf).of_iff fun ts n => ?_
  simp only [nameOf_eq_ok_iff]

/-! ## Responses -/

/-- The types for which a value is looked at. -/
def valueTypes : List RecordType := [.a, .aaaa, .cname, .txt]

/-- The value that a token spells, where there are values of the type. -/
def valueOf (type : RecordType) (token : Token) : Except RuleError Bytes :=
  match type with
  | .a => ipv4Of token
  | .aaaa => .error (.ipv6 token.value token.start)
  | _ => .ok token.value.toUTF8.data

/-- A value is one word. -/
theorem value_of_mem {type : RecordType} (h : type ∈ valueTypes) (offset : Nat) :
    value type offset = tryMap (valueOf type) (expect .text) := by
  cases type
  case a | aaaa | cname | txt => rfl
  all_goals exact absurd h (by decide)

/-- The word is read by what it means for the type. -/
theorem valueOf_eq_ok_iff {type : RecordType} (h : type ∈ valueTypes) {v : Token} {data : Bytes} :
    valueOf type v = .ok data ↔ ValueMeans type v.value data := by
  cases type
  case a =>
    unfold valueOf
    rw [ipv4Of_eq_ok_iff]
    constructor
    · rintro ⟨x, hx, rfl⟩
      rw [hx]
      exact .address x
    · generalize v.value = text
      rintro ⟨x⟩
      exact ⟨x, rfl, rfl⟩
  case aaaa =>
    constructor
    · intro h
      cases h
    · intro h
      cases h
  case cname =>
    refine ⟨fun h => ?_, fun h => ?_⟩
    · rw [← Except.ok.inj h]
      exact .alias v.value
    · cases h
      rfl
  case txt =>
    refine ⟨fun h => ?_, fun h => ?_⟩
    · rw [← Except.ok.inj h]
      exact .text v.value
    · cases h
      rfl
  all_goals exact absurd h (by decide)

/-- For any other type no value is looked at. -/
theorem value_of_not_mem {type : RecordType} (h : type ∉ valueTypes) (offset : Nat) :
    value type offset = fail (.unusableType type.mnemonic offset) := by
  cases type
  case a | aaaa | cname | txt => exact absurd (by decide) h
  all_goals rfl

theorem mem_of_valueMeans {type : RecordType} {text : String} {data : Bytes}
    (h : ValueMeans type text data) : type ∈ valueTypes := by
  cases h
  all_goals decide

/-- A value is read by what it means for its type, and is refused where it means nothing. -/
theorem reads_value (type : RecordType) (offset : Nat) :
    Reads (value type offset) fun ts data =>
      ∃ v, ts = [v] ∧ v.kind = .text ∧ ValueMeans type v.value data := by
  by_cases hmem : type ∈ valueTypes
  · rw [value_of_mem hmem]
    refine (reads_text (valueOf type)).of_iff fun ts data => ?_
    simp only [valueOf_eq_ok_iff hmem]
  · rw [value_of_not_mem hmem]
    refine (Reads.fail _).of_iff fun ts data => ⟨fun h => ?_, fun h => ?_⟩
    · exact False.elim h
    · obtain ⟨v, -, -, hv⟩ := h
      exact hmem (mem_of_valueMeans hv)

theorem reads_typedValue :
    Reads typedValue fun ts tv => ∃ t v, ts = [t, v] ∧ t.Says tv.1.mnemonic ∧ v.kind = .text ∧
      ValueMeans tv.1 v.value tv.2 := by
  have hread : Reads typedValue fun ts tv => ∃ us vs t, ts = us ++ vs ∧ (us = [t] ∧ t.kind = .text) ∧
      t.value = tv.1.mnemonic ∧ ∃ v, vs = [v] ∧ v.kind = .text ∧ ValueMeans tv.1 v.value tv.2 := by
    -- once the word for the type is read, what it says picks the parser for the value
    refine Reads.andThen (Reads.expect (by decide)) fun t => ?_
    cases ht : typeOf t with
    | error e =>
        refine (Reads.fail e).of_iff fun ts tv => ?_
        refine ⟨fun h => ?_, fun h => ?_⟩
        · exact False.elim h
        · obtain ⟨htype, -⟩ := h
          rw [typeOf_eq_ok_iff.mpr htype] at ht
          cases ht
    | ok type =>
        refine (Reads.map (reads_value type t.start)).of_iff fun ts tv => ?_
        refine ⟨fun h => ?_, fun h => ?_⟩
        · obtain ⟨data, hv, rfl⟩ := h
          exact ⟨typeOf_eq_ok_iff.mp ht, hv⟩
        · obtain ⟨htype, hv⟩ := h
          rw [typeOf_eq_ok_iff.mpr htype] at ht
          cases ht
          exact ⟨tv.2, hv, rfl⟩
  refine hread.of_iff fun ts tv => ?_
  refine ⟨fun h => ?_, fun h => ?_⟩
  · obtain ⟨_, _, t, rfl, ⟨rfl, htext⟩, htype, v, rfl, hv, hmeans⟩ := h
    exact ⟨t, v, rfl, ⟨htext, htype⟩, hv, hmeans⟩
  · obtain ⟨t, v, rfl, ⟨htext, htype⟩, hv, hmeans⟩ := h
    exact ⟨[t], [v], t, rfl, ⟨rfl, htext⟩, htype, v, rfl, hv, hmeans⟩

theorem reads_refusal :
    Reads refusal fun ts r => ∃ d, ts = [d] ∧ d.kind = .dash ∧ Response.refusal = r := by
  refine (Reads.map (Reads.expect (by decide))).of_iff fun ts r => ?_
  simp only [and_assoc]

theorem reads_found :
    Reads found fun ts r => ∃ t v c type class_ data, ts = [t, v, c] ∧
      t.Says (RecordType.mnemonic type) ∧ v.kind = .text ∧ ValueMeans type v.value data ∧
      c.Says (RecordClass.mnemonic class_) ∧
      Response.found type.code class_.code data = r := by
  refine (Reads.map (Reads.pair reads_typedValue reads_recordClass)).of_iff fun ts r => ?_
  refine ⟨fun h => ?_, fun h => ?_⟩
  · obtain ⟨⟨⟨type, data⟩, class_⟩, ⟨_, _, rfl, ⟨t, v, rfl, ht, hv, hmeans⟩, c, rfl, hc⟩, rfl⟩ := h
    exact ⟨t, v, c, type, class_, data, rfl, ht, hv, hmeans, hc, rfl⟩
  · obtain ⟨t, v, c, type, class_, data, rfl, ht, hv, hmeans, hc, rfl⟩ := h
    exact ⟨((type, data), class_), ⟨[t, v], [c], rfl, ⟨t, v, rfl, ht, hv, hmeans⟩, c, rfl, hc⟩, rfl⟩

theorem verdict_iff {ts : List Token} {r : Response} :
    ((∃ d, ts = [d] ∧ d.kind = .dash ∧ Response.refusal = r) ∨
      ∃ t v c type class_ data, ts = [t, v, c] ∧ t.Says (RecordType.mnemonic type) ∧
        v.kind = .text ∧ ValueMeans type v.value data ∧ c.Says (RecordClass.mnemonic class_) ∧
        Response.found type.code class_.code data = r) ↔
      ∃ v : Verdict, v.Spelt ts ∧ v.Means r := by
  refine ⟨fun h => ?_, fun h => ?_⟩
  · rcases h with ⟨d, rfl, hd, rfl⟩ | ⟨t, v, c, type, class_, data, rfl, ht, hv, hmeans, hc, rfl⟩
    · exact ⟨.dash, .dash hd, .dash⟩
    · exact ⟨.record type v.value class_, .record ht ⟨hv, rfl⟩ hc, .record hmeans⟩
  · obtain ⟨verdict, hspelt, hmeans⟩ := h
    cases hmeans with
    | dash =>
        cases hspelt with
        | dash hd => exact .inl ⟨_, rfl, hd, rfl⟩
    | record hvalue =>
        cases hspelt with
        | record ht hv hc =>
            obtain ⟨hkind, rfl⟩ := hv
            exact .inr ⟨_, _, _, _, _, _, rfl, ht, hkind, hvalue, hc, rfl⟩

/-- The end of a rule is read by what it means. Its first word alone tells the alternatives apart. -/
theorem reads_response :
    Reads response fun ts r => ∃ v : Verdict, v.Spelt ts ∧ v.Means r := by
  refine (Reads.oneOf reads_refusal reads_found ?_).of_iff fun ts r => verdict_iff
  -- a dash is no text, so no row of words begins both ways
  rintro _ _ vs vs' r r' ⟨d, rfl, hd, -⟩ ⟨t, v, c, _, _, _, rfl, ht, -⟩ heq
  have hfirst : d = t := (List.cons.inj heq).1
  have hkind := ht.1
  rw [← hfirst, hd] at hkind
  cases hkind

/-! ## Rules -/

theorem reads_subject :
    Reads subject fun ts s => ∃ t n c, ts = [t, n, c] ∧ t.Says s.1.1.mnemonic ∧ n.kind = .text ∧
      Name.ofText n.value = .ok s.1.2 ∧ c.Says s.2.mnemonic := by
  refine (Reads.pair (Reads.pair reads_recordType reads_domainName) reads_recordClass).of_iff
    fun ts s => ?_
  refine ⟨fun h => ?_, fun h => ?_⟩
  · obtain ⟨_, _, rfl, ⟨_, _, rfl, ⟨t, rfl, ht⟩, n, rfl, hkind, hn⟩, c, rfl, hc⟩ := h
    exact ⟨t, n, c, rfl, ht, hkind, hn, hc⟩
  · obtain ⟨t, n, c, rfl, ht, hkind, hn, hc⟩ := h
    exact ⟨[t, n], [c], rfl, ⟨[t], [n], rfl, ⟨t, rfl, ht⟩, n, rfl, hkind, hn⟩, c, rfl, hc⟩

/-- A rule is read from exactly the words that spell a sentence which means it. -/
theorem reads_rule : Reads rule fun ts r => ∃ x : Sentence, x.Spelt ts ∧ x.Means r := by
  refine (Reads.map (Reads.pair reads_subject
    (Reads.pair (Reads.expect (by decide)) reads_response))).of_iff fun ts r => ?_
  constructor
  · rintro ⟨⟨⟨⟨type, name⟩, class_⟩, _, response⟩, ⟨_, _, rfl, ⟨t, n, c, rfl, ht, hkind, hn, hc⟩,
      _, us, rfl, ⟨rfl, ha⟩, verdict, hspelt, hmeans⟩, rfl⟩
    exact ⟨⟨type, n.value, class_, verdict⟩, .intro ht ⟨hkind, rfl⟩ hc ha hspelt,
      rfl, hn, rfl, hmeans⟩
  · rintro ⟨⟨type, text, class_, verdict⟩, ⟨ht, hn, hc, ha, hspelt⟩, htype, hname, hclass, hmeans⟩
    obtain ⟨hkind, rfl⟩ := hn
    refine ⟨(((type, r.name), class_), (_, r.response)), ⟨[_, _, _], _ :: _, rfl,
      ⟨_, _, _, rfl, ht, hkind, hname, hc⟩, [_], _, rfl, ⟨rfl, ha⟩, verdict, hspelt, hmeans⟩, ?_⟩
    obtain ⟨name, rtype, rclass, response⟩ := r
    simp only at htype hclass
    rw [htype, hclass]

end Grammar

end DnsResponder
