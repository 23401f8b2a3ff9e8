import DnsResponder.Proofs.Responder.Handling

/-!
# What becomes of a datagram

Each datagram meets one of four fates, and which one is settled by what the datagram
holds and by the rules. The forwarder has no say in that, and in three of the four it is
never asked.

Whatever the fate, a reply is made from little: the rules, the time an answer may be
kept, and four things that the query says, its id, its opcode, its recursion bit and its
questions. They settle the message that is `due`, so two queries that agree on them get
the same octets. And since a reply has its response bit set, it meets the first fate
wherever it is sent, so no two responders can keep each other busy.
-/

namespace DnsResponder

variable {σ : Type}

/-- What can become of a datagram that a client sent. -/
inductive Fate where
  /-- It is no message or no query, and nothing is done about it. -/
  | dropped
  /-- It is a query that asks nothing. -/
  | unasked (query : Message)
  /-- A rule is for its first question. -/
  | ruled (query : Message) (rule : Rule)
  /-- It is left to the resolver. -/
  | handedOn (request : Request)

/-! ## Replies -/

/-- The reply says of the query what a reply repeats, and sets nothing else. -/
structure Message.Echoes (reply query : Message) : Prop where
  qr : reply.header.qr = true
  id : reply.header.id = query.header.id
  opcode : reply.header.opcode = query.header.opcode
  rd : reply.header.rd = query.header.rd
  questions : reply.questions = query.questions
  aa : reply.header.aa = false
  tc : reply.header.tc = false
  ra : reply.header.ra = false
  z : reply.header.z = 0
  authorities : reply.authorities = []
  additionals : reply.additionals = []

/-- Both queries say the same in all that a reply repeats. -/
structure Message.Alike (query other : Message) : Prop where
  id : query.header.id = other.header.id
  opcode : query.header.opcode = other.header.opcode
  rd : query.header.rd = other.header.rd
  questions : query.questions = other.questions

/-- The answer is a datagram that holds a reply to `query` with the given code and records. -/
def Replies (query : Message) (code : UInt8) (records : List Record) (answer : Option Bytes) : Prop :=
  ∃ d reply, answer = some d ∧ decode d = .ok reply ∧ reply.Echoes query ∧
    reply.header.rcode = code ∧ reply.answers = records

/-- No record can declare the data of the response. -/
def Response.TooLong : Response → Prop
  | .found _ _ data => maxWord < data.size
  | .notFound _ => False

namespace Message

variable {query other : Message} {code : UInt8} {records : List Record}

/-- A reply that was sent repeats the query that was read. -/
theorem echoes_narrow_reply (h : query.narrow = query) :
    (query.reply code records).narrow.Echoes query where
  qr := rfl
  id := rfl
  opcode := congrArg (·.header.opcode) h
  rd := rfl
  questions := rfl
  aa := rfl
  tc := rfl
  ra := rfl
  z := rfl
  authorities := rfl
  additionals := rfl

/-- Nothing else of the query goes into a reply. -/
theorem reply_of_alike (h : query.Alike other) :
    query.reply code records = other.reply code records := by
  unfold reply
  rw [h.id, h.opcode, h.rd, h.questions]

end Message

/-- A reply to a message that was read goes out whenever its records are true. -/
theorem replies_of_honest {d : Bytes} {query : Message} (hd : decode d = .ok query)
    {records : List Record} (hlen : records.length ≤ maxWord) (h : ∀ r ∈ records, r.Honest)
    (code : UInt8) :
    Replies query (code % 16) records (encode true (query.reply code records)).toOption := by
  obtain ⟨hm, hnarrow⟩ := honest_of_decode hd
  have hreply : (query.reply code records).Honest := (Message.honest_reply_iff hm hlen).mpr h
  have henc : encode true (query.reply code records) = .ok _ := encode_eq_ok_iff.mpr ⟨hreply, rfl⟩
  refine ⟨_, _, congrArg Except.toOption henc, decode_message true hreply, ?_, rfl, rfl⟩
  exact Message.echoes_narrow_reply hnarrow

namespace Responder

variable {r : Responder} {datagram : Bytes} {client : Endpoint} {query other : Message} {q : Question}

/-- A rule makes at most one record, and it is true unless the data is too long to be declared. -/
theorem honest_records_iff {rule : Rule} :
    (∀ x ∈ r.records rule, x.Honest) ↔ ¬rule.response.TooLong := by
  unfold records Response.TooLong
  cases rule.response with
  | notFound status => simp
  | found type class_ data =>
      dsimp only
      rw [List.forall_mem_singleton, Record.honest_of_iff, Nat.not_lt]

theorem length_records_le {rule : Rule} : (r.records rule).length ≤ maxWord := by
  unfold records
  cases rule.response with
  | notFound status => exact Nat.zero_le _
  | found type class_ data => exact Nat.succ_le_of_lt (Nat.zero_lt_succ _)

/-- The reply that a query gets if it gets any. -/
def due (r : Responder) (query : Message) : Message :=
  match query.questions.head? with
  | none => query.errorReply .formErr
  | some q =>
      match r.rules.find? q.name q.type q.class_ with
      | some rule => r.answer query rule
      | none => query.errorReply .servFail

theorem due_of_unasked (h : query.questions.head? = none) : r.due query = query.errorReply .formErr := by
  unfold due
  rw [h]

theorem due_of_matched {rule : Rule} (h : query.questions.head? = some q)
    (hrule : r.rules.find? q.name q.type q.class_ = some rule) : r.due query = r.answer query rule := by
  unfold due
  rw [h]
  dsimp only
  rw [hrule]

theorem due_of_unmatched (h : query.questions.head? = some q)
    (hrule : r.rules.find? q.name q.type q.class_ = none) :
    r.due query = query.errorReply .servFail := by
  unfold due
  rw [h]
  dsimp only
  rw [hrule]

/-- Queries that say the same are due the same reply. -/
theorem due_of_alike (h : query.Alike other) : r.due query = r.due other := by
  cases hfirst : query.questions.head? with
  | none =>
      rw [due_of_unasked hfirst, due_of_unasked (h.questions ▸ hfirst)]
      exact Message.reply_of_alike h
  | some q =>
      have hfirst' : other.questions.head? = some q := h.questions ▸ hfirst
      cases hrule : r.rules.find? q.name q.type q.class_ with
      | none =>
          rw [due_of_unmatched hfirst hrule, due_of_unmatched hfirst' hrule]
          exact Message.reply_of_alike h
      | some rule =>
          rw [due_of_matched hfirst hrule, due_of_matched hfirst' hrule]
          exact Message.reply_of_alike h

/-- The reply that is due is a reply, whatever is put into it. -/
theorem due_eq_reply (r : Responder) (query : Message) :
    ∃ code records, r.due query = query.reply code records := by
  unfold due
  split
  · exact ⟨_, _, rfl⟩
  · split
    · exact ⟨_, _, rfl⟩
    · exact ⟨_, _, rfl⟩

/-- What was sent is the reply that was due to the query, as the writer wrote it. -/
theorem encode_due_of_answer {forward : Forwarder σ} {s : σ} {d : Bytes}
    (h : (r.handle forward datagram client s).answer = some d) :
    ∃ query, decode datagram = .ok query ∧ encode true (r.due query) = .ok d := by
  cases hd : decode datagram with
  | error e => rw [handle_of_malformed hd] at h; cases h
  | ok query =>
      refine ⟨query, rfl, eq_ok_of_toOption ?_⟩
      cases hq : query.header.qr with
      | true => rw [handle_of_response hd hq] at h; cases h
      | false =>
          cases hfirst : query.questions.head? with
          | none =>
              rw [handle_of_unasked hd hq hfirst, write_answer] at h
              rw [due_of_unasked hfirst, h]
          | some q =>
              cases hrule : r.rules.find? q.name q.type q.class_ with
              | some rule =>
                  rw [handle_of_matched hd hq hfirst hrule, write_answer] at h
                  rw [due_of_matched hfirst hrule, h]
              | none =>
                  have hon : r.handedOn? datagram client = some ⟨query, datagram, client⟩ :=
                    handedOn?_eq_some_iff.mpr ⟨query, q, hd, hq, hfirst, hrule, rfl⟩
                  rw [handle_answer_of_handedOn hon] at h
                  rw [due_of_unmatched hfirst hrule]
                  split at h
                  · cases h
                  · exact h

/-- What was sent is read as the reply that was due, and that repeats the query. -/
theorem decode_of_encode_due {d : Bytes} (hd : decode datagram = .ok query)
    (h : encode true (r.due query) = .ok d) :
    decode d = .ok (r.due query).narrow ∧ (r.due query).narrow.Echoes query := by
  obtain ⟨hreply, rfl⟩ := encode_eq_ok_iff.mp h
  refine ⟨decode_message true hreply, ?_⟩
  obtain ⟨code, records, hdue⟩ := due_eq_reply r query
  rw [hdue]
  exact Message.echoes_narrow_reply (honest_of_decode hd).2

/-! ## Fates -/

/-- The fate is the one that the datagram meets, given the rules. -/
inductive Meets (r : Responder) (datagram : Bytes) (client : Endpoint) : Fate → Prop where
  | malformed {e : DecodeError} :
      decode datagram = .error e → Meets r datagram client .dropped
  | response {m : Message} :
      decode datagram = .ok m → m.header.qr = true → Meets r datagram client .dropped
  | unasked {m : Message} :
      decode datagram = .ok m → m.header.qr = false → m.questions.head? = none →
      Meets r datagram client (.unasked m)
  | ruled {m : Message} {q : Question} {rule : Rule} :
      decode datagram = .ok m → m.header.qr = false → m.questions.head? = some q →
      r.rules.find? q.name q.type q.class_ = some rule → Meets r datagram client (.ruled m rule)
  | handedOn {m : Message} {q : Question} :
      decode datagram = .ok m → m.header.qr = false → m.questions.head? = some q →
      r.rules.find? q.name q.type q.class_ = none →
      Meets r datagram client (.handedOn ⟨m, datagram, client⟩)

/-- Some fate is met. -/
theorem exists_meets (r : Responder) (datagram : Bytes) (client : Endpoint) :
    ∃ fate, r.Meets datagram client fate := by
  cases hd : decode datagram with
  | error e => exact ⟨_, .malformed hd⟩
  | ok m =>
      cases hq : m.header.qr with
      | true => exact ⟨_, .response hd hq⟩
      | false =>
          cases hfirst : m.questions.head? with
          | none => exact ⟨_, .unasked hd hq hfirst⟩
          | some q =>
              cases hrule : r.rules.find? q.name q.type q.class_ with
              | some rule => exact ⟨_, .ruled hd hq hfirst hrule⟩
              | none => exact ⟨_, .handedOn hd hq hfirst hrule⟩

/-- A query meets a fate of queries, which its first question and the rules tell. -/
theorem Meets.eq_of_query {m : Message} {fate : Fate} (h : r.Meets datagram client fate)
    (hd : decode datagram = .ok m) (hq : m.header.qr = false) :
    fate = match m.questions.head? with
      | none => .unasked m
      | some q =>
          match r.rules.find? q.name q.type q.class_ with
          | some rule => .ruled m rule
          | none => .handedOn ⟨m, datagram, client⟩ := by
  cases h with
  | malformed hd' => rw [hd] at hd'; cases hd'
  | response hd' hq' => rw [hd] at hd'; cases hd'; rw [hq] at hq'; cases hq'
  | unasked hd' _ hfirst => rw [hd] at hd'; cases hd'; rw [hfirst]
  | ruled hd' _ hfirst hrule =>
      rw [hd] at hd'; cases hd'
      rw [hfirst]
      dsimp only
      rw [hrule]
  | handedOn hd' _ hfirst hrule =>
      rw [hd] at hd'; cases hd'
      rw [hfirst]
      dsimp only
      rw [hrule]

/-- What is no query is dropped. -/
theorem Meets.eq_dropped {fate : Fate} (h : r.Meets datagram client fate)
    (hno : ∀ m, decode datagram = .ok m → m.header.qr = true) : fate = .dropped := by
  cases h with
  | malformed _ => rfl
  | response _ _ => rfl
  | unasked hd hq _ => rw [hno _ hd] at hq; cases hq
  | ruled hd hq _ _ => rw [hno _ hd] at hq; cases hq
  | handedOn hd hq _ _ => rw [hno _ hd] at hq; cases hq

/-- No datagram meets two fates. -/
theorem Meets.unique {fate fate' : Fate} (h : r.Meets datagram client fate)
    (h' : r.Meets datagram client fate') : fate = fate' := by
  by_cases hquery : ∃ m, decode datagram = .ok m ∧ m.header.qr = false
  · obtain ⟨m, hd, hq⟩ := hquery
    rw [h.eq_of_query hd hq, h'.eq_of_query hd hq]
  · have hno : ∀ m, decode datagram = .ok m → m.header.qr = true := fun m hd =>
      eq_true_of_ne_false fun hq => hquery ⟨m, hd, hq⟩
    rw [h.eq_dropped hno, h'.eq_dropped hno]

end Responder

/--
What a turn has done about a datagram of the given fate. The forwarder notes what it is
asked, so its state is followed by a list of requests.
-/
def Fate.Holds (r : Responder) (forward : Forwarder σ) (before : σ × List Request)
    (turn : Turn (σ × List Request) (Option Bytes)) : Fate → Prop
  | .dropped => turn.state = before ∧ turn.answer = none
  | .unasked query => turn.state = before ∧ Replies query ResponseCode.formErr.code [] turn.answer
  | .ruled query rule =>
      turn.state = before ∧
        (¬rule.response.TooLong →
          Replies query (rule.response.rcode % 16) (r.records rule) turn.answer) ∧
        (rule.response.TooLong → turn.answer = none)
  | .handedOn request =>
      turn.state = ((forward request before.1).state, before.2 ++ [request]) ∧
        ((forward request before.1).answer = .ok () → turn.answer = none) ∧
        ∀ e, (forward request before.1).answer = .error e →
          Replies request.message ResponseCode.servFail.code [] turn.answer

namespace Responder

variable {r : Responder} {datagram : Bytes} {client : Endpoint}

/-- The fate that a datagram meets is what is done about it. -/
theorem Meets.holds {fate : Fate} (h : r.Meets datagram client fate) (forward : Forwarder σ) (s : σ)
    (log : List Request) :
    fate.Holds r forward (s, log) (r.handle forward.noting datagram client (s, log)) := by
  cases h with
  | malformed hd =>
      rw [handle_of_malformed hd]
      exact ⟨rfl, rfl⟩
  | response hd hq =>
      rw [handle_of_response hd hq]
      exact ⟨rfl, rfl⟩
  | unasked hd hq hfirst =>
      rw [handle_of_unasked hd hq hfirst]
      refine ⟨write_state _ _ _, ?_⟩
      rw [write_answer]
      exact replies_of_honest hd (Nat.zero_le _) (List.forall_mem_nil _) ResponseCode.formErr.code
  | @ruled m q rule hd hq hfirst hrule =>
      rw [handle_of_matched hd hq hfirst hrule]
      refine ⟨write_state _ _ _, ?_, ?_⟩
      · intro hlen
        rw [write_answer]
        exact replies_of_honest hd length_records_le (honest_records_iff.mpr hlen) _
      · intro hlen
        refine write_answer_of_not_honest ?_ _ _
        intro hreply
        have hrecords := (Message.honest_reply_iff (honest_of_decode hd).1 length_records_le).mp hreply
        exact honest_records_iff.mp hrecords hlen
  | @handedOn m q hd hq hfirst hrule =>
      have hon : r.handedOn? datagram client = some ⟨m, datagram, client⟩ :=
        handedOn?_eq_some_iff.mpr ⟨m, q, hd, hq, hfirst, hrule, rfl⟩
      refine ⟨handle_state_of_handedOn hon _ _, ?_, ?_⟩
      · intro hok
        exact handle_answer_of_forwarded hon forward.noting (s, log) hok
      · intro e he
        rw [handle_answer_of_not_forwarded hon forward.noting (s, log) he]
        exact replies_of_honest hd (Nat.zero_le _) (List.forall_mem_nil _) ResponseCode.servFail.code

/-- A datagram that holds a response is answered by nobody and handed on by nobody. -/
theorem handle_noting_of_response {m : Message} (hd : decode datagram = .ok m)
    (hq : m.header.qr = true) (r : Responder) (forward : Forwarder σ) (client : Endpoint) (s : σ)
    (log : List Request) :
    (r.handle forward.noting datagram client (s, log)).answer = none ∧
      (r.handle forward.noting datagram client (s, log)).state = (s, log) := by
  rw [handle_of_response hd hq]
  exact ⟨rfl, rfl⟩

/--
A datagram meets one fate, and what is done about it is what that fate says. If a reply
is sent, it repeats the query and depends on nothing else in it, and any responder that
gets the reply drops it.
-/
theorem handle_one_fate (r : Responder) (forward : Forwarder σ) (datagram : Bytes)
    (client : Endpoint) (s : σ) (log : List Request) :
    let turn := r.handle forward.noting datagram client (s, log)
    (∃ fate : Fate, (∀ fate', r.Meets datagram client fate' ↔ fate' = fate) ∧
      fate.Holds r forward (s, log) turn) ∧
    ∀ d, turn.answer = some d →
      ∃ query reply, decode datagram = .ok query ∧ decode d = .ok reply ∧ reply.Echoes query ∧
        (∀ (τ : Type) (forward' : Forwarder τ) (datagram' : Bytes) (client' : Endpoint) (s' : τ)
          (query' : Message) (d' : Bytes), decode datagram' = .ok query' → query'.Alike query →
          (r.handle forward' datagram' client' s').answer = some d' → d' = d) ∧
        ∀ (τ : Type) (r' : Responder) (forward' : Forwarder τ) (client' : Endpoint) (s' : τ)
          (log' : List Request),
          (r'.handle forward'.noting d client' (s', log')).answer = none ∧
            (r'.handle forward'.noting d client' (s', log')).state = (s', log') := by
  dsimp only
  constructor
  · obtain ⟨fate, hfate⟩ := exists_meets r datagram client
    refine ⟨fate, fun fate' => ⟨fun h => h.unique hfate, fun h => h ▸ hfate⟩, ?_⟩
    exact hfate.holds forward s log
  · intro d hanswer
    obtain ⟨query, hd, henc⟩ := encode_due_of_answer hanswer
    obtain ⟨hreply, hechoes⟩ := decode_of_encode_due hd henc
    refine ⟨query, _, hd, hreply, hechoes, ?_, ?_⟩
    · intro τ forward' datagram' client' s' query' d' hd' halike hanswer'
      obtain ⟨query'', hd'', henc'⟩ := encode_due_of_answer hanswer'
      rw [hd'] at hd''
      cases hd''
      -- both are the octets of one message
      rw [due_of_alike halike, henc] at henc'
      cases henc'
      rfl
    · intro τ r' forward' client' s' log'
      exact handle_noting_of_response hreply hechoes.qr r' forward' client' s' log'

end Responder

end DnsResponder
