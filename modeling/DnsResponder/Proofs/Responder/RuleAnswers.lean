import DnsResponder.Proofs.Name.Labels
import DnsResponder.Proofs.Responder.Handling
import DnsResponder.Proofs.Rule.Source

/-!
# From the text of a rule to the octets of a reply

What a client is sent can be told from the source of the rules, without the table
between them. A question is answered here exactly when some sentence of the source
concerns it, and the first of these sentences settles the reply. Table and wire are
only the way there: sentences and rules stand in the same order, a sentence concerns
the questions its rule matches, and the reply that a rule makes can be written, with
one exception. A value with more octets than a record can declare is never sent.

A sentence concerns a question when the pieces of its name are the labels of the
question, octet by octet. The dots between the pieces are no part of the comparison, so
a label that holds a dot is never taken for two labels.
-/

namespace DnsResponder

/-- The sentence is about the question: the same codes, and for each label a piece with its octets. -/
def Sentence.Concerns (x : Sentence) (q : Question) : Prop :=
  x.type.code = q.type ∧ x.class_.code = q.class_ ∧
    (Dotted.parts x.name).map Text.utf8 = q.name.labels.map Label.octets

instance (x : Sentence) (q : Question) : Decidable (x.Concerns q) :=
  inferInstanceAs (Decidable (_ ∧ _ ∧ _))

/-- What is sent back for a question, by the end of the sentence that it is answered from. -/
inductive Verdict.Sends (q : Question) (ttl : UInt32) : Verdict → Option Bytes → Prop where
  | dash {d : Bytes} {reply : Message} :
      decode d = .ok reply → reply.header.rcode = 4 → reply.answers = [] → Sends q ttl .dash (some d)
  | record {type : RecordType} {value : String} {class_ : RecordClass} {data d : Bytes}
      {reply : Message} :
      ValueMeans type value data → data.size ≤ maxWord → decode d = .ok reply →
      reply.header.rcode = 0 →
      reply.answers = [⟨q.name, type.code, class_.code, ttl, UInt16.ofNat data.size, data⟩] →
      Sends q ttl (.record type value class_) (some d)
  /-- No record can declare so much data, and nothing is sent. -/
  | tooLong {type : RecordType} {value : String} {class_ : RecordClass} {data : Bytes} :
      ValueMeans type value data → maxWord < data.size → Sends q ttl (.record type value class_) none

/-! ## Sentences and rules -/

namespace Sentence

variable {x : Sentence} {r : Rule} {q : Question}

/-- A sentence concerns the questions that its rule matches. -/
theorem Means.concerns_iff (h : x.Means r) : x.Concerns q ↔ r.Matches q.name q.type q.class_ := by
  unfold Concerns Rule.Matches
  rw [h.type, h.class_, Name.eq_iff_map_octets, Name.map_octets_of_ofText h.name]

/-- The first sentence about a question means the first rule for it. -/
theorem rel_find? {xs : List Sentence} {table : RuleTable}
    (h : List.Forall₂ Means xs table.rules) (q : Question) :
    Option.Rel Means (xs.find? (·.Concerns q)) (table.find? q.name q.type q.class_) := by
  unfold RuleTable.find?
  obtain ⟨rules⟩ := table
  dsimp only at h ⊢
  induction h with
  | nil => exact .none
  | @cons x r xs rules hx _ ih =>
      by_cases hc : x.Concerns q
      · have hr := hx.concerns_iff.mp hc
        rw [List.find?_cons_of_pos (by simp [hc]), List.find?_cons_of_pos (by simp [hr])]
        exact .some hx
      · have hr := mt hx.concerns_iff.mpr hc
        rw [List.find?_cons_of_neg (by simp [hc]), List.find?_cons_of_neg (by simp [hr])]
        exact ih

variable {xs : List Sentence} {table : RuleTable}

theorem exists_rule_of_find? (h : List.Forall₂ Means xs table.rules)
    (hx : xs.find? (·.Concerns q) = some x) :
    ∃ r, table.find? q.name q.type q.class_ = some r ∧ x.Means r ∧ r.name = q.name := by
  have hrel := rel_find? h q
  rw [hx] at hrel
  cases hr : table.find? q.name q.type q.class_ with
  | none => rw [hr] at hrel; cases hrel
  | some r =>
      rw [hr] at hrel
      cases hrel with
      | some hmeans =>
          have hmatch : r.Matches q.name q.type q.class_ := by simpa using List.find?_some hr
          exact ⟨r, rfl, hmeans, hmatch.2.2⟩

/-- A rule is found exactly when some sentence concerns the question. -/
theorem exists_concerns_iff (h : List.Forall₂ Means xs table.rules) :
    (∃ x ∈ xs, x.Concerns q) ↔ (table.find? q.name q.type q.class_).isSome := by
  -- the two searches end alike, so it is enough to say when the first one finds something
  have hsome : (xs.find? (·.Concerns q)).isSome ↔ ∃ x ∈ xs, x.Concerns q := by simp
  have hrel := rel_find? h q
  rw [← hsome]
  generalize xs.find? (·.Concerns q) = sentence at hrel ⊢
  generalize table.find? q.name q.type q.class_ = rule at hrel ⊢
  cases hrel with
  | some _ => rfl
  | none => rfl

/-- A label that holds a dot is in no name that was read from text. -/
theorem not_concerns_of_dot (h : List.Forall₂ Means xs table.rules) {l : Label}
    (hl : l ∈ q.name.labels) (hdot : Text.octet '.' ∈ l.octets) : ∀ x ∈ xs, ¬x.Concerns q := by
  intro x hx hc
  -- if any sentence concerned the question, the first that does would have its name
  have hsome : (xs.find? (·.Concerns q)).isSome := by
    rw [List.find?_isSome]
    exact ⟨x, hx, decide_eq_true hc⟩
  obtain ⟨first, hfirst⟩ := Option.isSome_iff_exists.mp hsome
  obtain ⟨r, -, hmeans, hname⟩ := exists_rule_of_find? h hfirst
  exact Name.dot_not_mem_of_ofText hmeans.name l (hname ▸ hl) hdot

end Sentence

/-! ## Rules and replies -/

namespace Responder

variable {σ : Type} {datagram : Bytes} {m : Message} {q : Question}

/-- A rule for a question sends what the sentence that means it says. -/
theorem sends_of_means {rule : Rule} {v : Verdict} (hd : decode datagram = .ok m)
    (hname : rule.name = q.name) (h : v.Means rule.response) (r : Responder) (s : σ)
    (events : List Event) : v.Sends q r.ttl (write (r.answer m rule) s events).answer := by
  obtain ⟨name, type, class_, response⟩ := rule
  dsimp only at hname h
  subst hname
  cases h with
  | dash =>
      show Verdict.Sends q r.ttl .dash (write (m.reply 4 []) s events).answer
      obtain ⟨d, henc, hdec⟩ := decode_reply hd (by decide : (4 : UInt8) < 16) (Nat.zero_le _)
        (List.forall_mem_nil _)
      rw [write_answer_of_encode henc]
      exact .dash hdec rfl rfl
  | @record vtype value vclass data hv =>
      let record := Record.of q.name vtype.code vclass.code r.ttl data
      have hone : [record].length ≤ maxWord := Nat.succ_le_of_lt (Nat.zero_lt_succ _)
      show Verdict.Sends q r.ttl (.record vtype value vclass)
        (write (m.reply 0 [record]) s events).answer
      by_cases hlen : data.size ≤ maxWord
      · have hrecord : ∀ x ∈ [record], x.Honest :=
          List.forall_mem_singleton.mpr (Record.honest_of_iff.mpr hlen)
        obtain ⟨d, henc, hdec⟩ := decode_reply hd (by decide : (0 : UInt8) < 16) hone hrecord
        rw [write_answer_of_encode henc]
        refine .record hv hlen hdec rfl ?_
        have hdeclared : declaredLength data.size = UInt16.ofNat data.size :=
          congrArg UInt16.ofNat (Nat.min_eq_left hlen)
        show [record] = _
        rw [← hdeclared]
        rfl
      · -- the reply is made all the same, and it is the writer that refuses it
        have hreply : ¬(m.reply 0 [record]).Honest := by
          intro h
          have hrecord := (Message.honest_reply_iff (honest_of_decode hd).1 hone).mp h record
            (List.mem_singleton_self record)
          exact hlen (Record.honest_of_iff.mp hrecord)
        rw [write_answer_of_not_honest hreply]
        exact .tooLong hv (Nat.lt_of_not_le hlen)

/--
A query is answered here exactly when some sentence of the source concerns its first
question, which no sentence does if one of its labels holds a dot. The first sentence
that does settles what is sent, and the forwarder is not even asked.
-/
theorem handle_of_source {source : String} {table : RuleTable}
    (hsource : RuleTable.ofText source = .ok table) (hd : decode datagram = .ok m)
    (hq : m.header.qr = false) (hfirst : m.questions.head? = some q) (ttl : UInt32)
    (forward : Forwarder σ) (client : Endpoint) (s : σ) (log : List Request) :
    ∃ xs, (∀ ys, Parser.Rows Sentence.Spelt (Cursor.ofText source).words ys ↔ ys = xs) ∧
      let turn := handle ⟨table, ttl⟩ forward.noting datagram client (s, log)
      (turn.state.2 = log ↔ ∃ x ∈ xs, x.Concerns q) ∧
      ((∃ l ∈ q.name.labels, Text.octet '.' ∈ l.octets) → ∀ x ∈ xs, ¬x.Concerns q) ∧
      ∀ x, xs.find? (·.Concerns q) = some x →
        turn.state.1 = s ∧ x.verdict.Sends q ttl turn.answer := by
  obtain ⟨xs, hrows, hall⟩ :=
    Parser.rows_exists_iff.mp (RuleTable.ofText_eq_ok_iff_rows.mp hsource)
  -- there are no other sentences than those the table was read from
  refine ⟨xs, fun ys => ⟨fun h => (Sentence.rows_unique hrows h).symm, fun h => h ▸ hrows⟩, ?_⟩
  rw [handle_noting]
  refine ⟨?_, ?_, ?_⟩
  · -- something is noted when the datagram is handed on, and that is when no rule is found
    have hnone : handedOn? ⟨table, ttl⟩ datagram client = none ↔
        (table.find? q.name q.type q.class_).isSome := handedOn?_eq_none_iff hd hq hfirst client
    dsimp only
    rw [Sentence.exists_concerns_iff hall, ← hnone, List.append_right_eq_self,
      Option.toList_eq_nil_iff]
  · rintro ⟨l, hl, hdot⟩
    exact Sentence.not_concerns_of_dot hall hl hdot
  · intro x hx
    obtain ⟨rule, hrule, hmeans, hname⟩ := Sentence.exists_rule_of_find? hall hx
    rw [handle_of_matched hd hq hfirst hrule]
    exact ⟨write_state _ _ _, sends_of_means hd hname hmeans.response ⟨table, ttl⟩ s _⟩

/-- Two rules for one question, which the second writes without the closing dot. -/
def twice : String := "A pi.org. IN -> TXT hi IN\nA pi.org IN -> -\n"

/-- The name in `twice`. -/
def twiceName : Name :=
  let pi : Label := ⟨[112, 105], by decide, by decide, by simp⟩
  let org : Label := ⟨[111, 114, 103], by decide, by decide, by simp⟩
  ⟨[pi, org], by decide⟩

/-- The rules in `twice`. -/
def twiceTable : RuleTable :=
  ⟨[⟨twiceName, 1, 1, .found 16 1 #[104, 105]⟩, ⟨twiceName, 1, 1, .notFound 4⟩]⟩

/-- The question that the rules in `twice` are for. -/
def twiceQuery : Bytes :=
  #[0, 7, 1, 0, 0, 1, 0, 0, 0, 0, 0, 0, 2, 112, 105, 3, 111, 114, 103, 0, 0, 1, 0, 1]

/-- The message in `twiceQuery`. -/
def twiceMessage : Message :=
  { header := { id := 7, rd := true, questionCount := 1 }, questions := [⟨twiceName, 1, 1⟩] }

theorem handle_of_source_twice :
    RuleTable.ofText twice = .ok twiceTable ∧ decode twiceQuery = .ok twiceMessage ∧
      ∃ xs, (∀ ys, Parser.Rows Sentence.Spelt (Cursor.ofText twice).words ys ↔ ys = xs) ∧
        let turn := handle ⟨twiceTable, 60⟩ (Forwarder.noting fun _ s => ⟨.ok (), s, []⟩) twiceQuery
          (.v4 ⟨127, 0, 0, 1⟩ 5353) ((), [])
        (turn.state.2 = [] ↔ ∃ x ∈ xs, x.Concerns ⟨twiceName, 1, 1⟩) ∧
        ((∃ l ∈ twiceName.labels, Text.octet '.' ∈ l.octets) →
          ∀ x ∈ xs, ¬x.Concerns ⟨twiceName, 1, 1⟩) ∧
        ∀ x, xs.find? (·.Concerns ⟨twiceName, 1, 1⟩) = some x →
          turn.state.1 = () ∧ x.verdict.Sends ⟨twiceName, 1, 1⟩ 60 turn.answer := by
  have hsource : RuleTable.ofText twice = .ok twiceTable := eq_ok_of_toOption (by decide +kernel)
  have hd : decode twiceQuery = .ok twiceMessage := eq_ok_of_toOption (by decide +kernel)
  exact ⟨hsource, hd, handle_of_source hsource hd rfl rfl 60 _ _ () []⟩

end Responder

end DnsResponder
