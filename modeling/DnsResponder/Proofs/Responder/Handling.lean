import DnsResponder.Proofs.Wire.RoundTrip
import DnsResponder.Responder

/-!
# Handing on and replying

Whether a datagram is handed on is settled by the datagram and the rules alone. To see
what a forwarder is asked, it is run with a list beside its own state in which each
request is noted. Handling a datagram adds at most one request to that list, and the
noting changes nothing else.

A reply repeats the questions of a message that was read, and their number is one that
was read too. So a reply declares the truth as soon as the records put into it do, and
then it can be written and is read as it was meant.
-/

namespace DnsResponder

variable {σ : Type}

/-! ## What is handed on -/

/-- The forwarder with a list beside its state, at whose end it notes every request. -/
def Forwarder.noting (forward : Forwarder σ) : Forwarder (σ × List Request) := fun request s =>
  let turn := forward request s.1
  ⟨turn.answer, (turn.state, s.2 ++ [request]), turn.events⟩

namespace Responder

/-- The request that is made of a datagram, unless it is dropped or answered here. -/
def handedOn? (r : Responder) (datagram : Bytes) (client : Endpoint) : Option Request :=
  match decode datagram with
  | .error _ => none
  | .ok message =>
      if message.header.qr then none
      else
        match message.firstQuestion? with
        | none => none
        | some q =>
            match r.rules.find? q.name q.type q.class_ with
            | some _ => none
            | none => some ⟨message, datagram, client⟩

theorem write_noting (reply : Message) (s : σ) (log : List Request) (events : List Event) :
    write reply (s, log) events =
      let turn := write reply s events
      ⟨turn.answer, (turn.state, log), turn.events⟩ := by
  unfold write
  split
  · rfl
  · rfl

/--
What is noted when a datagram is handled is the request made of it, once, or nothing.
All else is as without the noting.
-/
theorem handle_noting (r : Responder) (forward : Forwarder σ) (datagram : Bytes)
    (client : Endpoint) (s : σ) (log : List Request) :
    r.handle forward.noting datagram client (s, log) =
      let turn := r.handle forward datagram client s
      ⟨turn.answer, (turn.state, log ++ (r.handedOn? datagram client).toList), turn.events⟩ := by
  unfold handle handedOn?
  cases decode datagram with
  | error e => simp
  | ok message =>
      dsimp only
      split
      · simp
      · unfold execute
        dsimp only
        cases message.firstQuestion? with
        | none => simp [write_noting]
        | some q =>
            dsimp only
            cases r.rules.find? q.name q.type q.class_ with
            | some rule => simp [write_noting]
            | none =>
                -- the forwarder sees its own state only, so it answers as it would have
                unfold Forwarder.noting
                dsimp only
                cases (forward ⟨message, datagram, client⟩ s).answer with
                | ok _ => rfl
                | error e => exact write_noting _ _ _ _

variable {r : Responder} {datagram : Bytes} {m : Message} {q : Question}

theorem handle_of_matched {rule : Rule} (hd : decode datagram = .ok m) (hq : m.header.qr = false)
    (hfirst : m.questions.head? = some q) (hrule : r.rules.find? q.name q.type q.class_ = some rule)
    (forward : Forwarder σ) (client : Endpoint) (s : σ) :
    r.handle forward datagram client s = write (r.answer m rule) s [.matched q client] := by
  have hfirst' : m.firstQuestion? = some q := hfirst
  unfold handle
  rw [hd]
  dsimp only
  rw [if_neg (by rw [hq]; exact Bool.false_ne_true)]
  unfold execute
  dsimp only
  rw [hfirst']
  dsimp only
  rw [hrule]

theorem handle_of_malformed {e : DecodeError} (hd : decode datagram = .error e)
    (forward : Forwarder σ) (client : Endpoint) (s : σ) :
    r.handle forward datagram client s = ⟨none, s, [.malformed e client datagram.size]⟩ := by
  unfold handle
  rw [hd]

theorem handle_of_response (hd : decode datagram = .ok m) (hq : m.header.qr = true)
    (forward : Forwarder σ) (client : Endpoint) (s : σ) :
    r.handle forward datagram client s = ⟨none, s, [.strayResponse m.header.id client]⟩ := by
  unfold handle
  rw [hd]
  dsimp only
  rw [if_pos hq]

theorem handle_of_unasked (hd : decode datagram = .ok m) (hq : m.header.qr = false)
    (hfirst : m.questions.head? = none) (forward : Forwarder σ) (client : Endpoint) (s : σ) :
    r.handle forward datagram client s =
      write (m.errorReply .formErr) s [.noQuestion m.header.id client] := by
  have hfirst' : m.firstQuestion? = none := hfirst
  unfold handle
  rw [hd]
  dsimp only
  rw [if_neg (by rw [hq]; exact Bool.false_ne_true)]
  unfold execute
  dsimp only
  rw [hfirst']
  rfl

theorem handedOn?_eq_some_iff {client : Endpoint} {request : Request} :
    r.handedOn? datagram client = some request ↔
      ∃ m q, decode datagram = .ok m ∧ m.header.qr = false ∧ m.questions.head? = some q ∧
        r.rules.find? q.name q.type q.class_ = none ∧ request = ⟨m, datagram, client⟩ := by
  constructor
  · intro h
    unfold handedOn? at h
    cases hd : decode datagram with
    | error e => rw [hd] at h; cases h
    | ok m =>
        rw [hd] at h
        dsimp only at h
        split at h
        · cases h
        · rename_i hq
          cases hfirst : m.firstQuestion? with
          | none => rw [hfirst] at h; cases h
          | some q =>
              rw [hfirst] at h
              dsimp only at h
              cases hrule : r.rules.find? q.name q.type q.class_ with
              | some rule => rw [hrule] at h; cases h
              | none =>
                  rw [hrule] at h
                  cases h
                  exact ⟨m, q, rfl, Bool.eq_false_iff.mpr hq, hfirst, hrule, rfl⟩
  · rintro ⟨m, q, hd, hq, hfirst, hrule, rfl⟩
    have hfirst' : m.firstQuestion? = some q := hfirst
    unfold handedOn?
    rw [hd]
    dsimp only
    rw [if_neg (by rw [hq]; exact Bool.false_ne_true), hfirst']
    dsimp only
    rw [hrule]

/-- A request that is made of a datagram holds the datagram, octet by octet. -/
theorem of_handedOn {client : Endpoint} {request : Request}
    (h : r.handedOn? datagram client = some request) :
    request.datagram = datagram ∧ request.client = client ∧ decode datagram = .ok request.message := by
  obtain ⟨m, q, hd, -, -, -, rfl⟩ := handedOn?_eq_some_iff.mp h
  exact ⟨rfl, rfl, hd⟩

/-- A query with a question is handed on exactly when no rule is for its first question. -/
theorem handedOn?_eq_none_iff (hd : decode datagram = .ok m) (hq : m.header.qr = false)
    (hfirst : m.questions.head? = some q) (client : Endpoint) :
    r.handedOn? datagram client = none ↔ (r.rules.find? q.name q.type q.class_).isSome := by
  have hfirst' : m.firstQuestion? = some q := hfirst
  unfold handedOn?
  rw [hd]
  dsimp only
  rw [if_neg (by rw [hq]; exact Bool.false_ne_true), hfirst']
  dsimp only
  cases r.rules.find? q.name q.type q.class_ with
  | none => simp
  | some rule => simp

end Responder

/-! ## Replies -/

theorem declaredLength_toNat (n : Nat) : (declaredLength n).toNat = min n maxWord := by
  unfold declaredLength
  rw [UInt16.toNat_ofNat']
  unfold maxWord
  omega

/-- A record made here declares the truth exactly when its data is not too long to be declared. -/
theorem Record.honest_of_iff {name : Name} {type class_ : UInt16} {ttl : UInt32} {data : Bytes} :
    (Record.of name type class_ ttl data).Honest ↔ data.size ≤ maxWord := by
  unfold Honest Record.of
  dsimp only
  rw [declaredLength_toNat]
  omega

namespace Message

variable {m : Message} {code : UInt8} {answers : List Record}

/-- A reply declares the truth when its records do. Its questions are known to be countable. -/
theorem honest_reply_iff (hm : m.Honest) (hlen : answers.length ≤ maxWord) :
    (m.reply code answers).Honest ↔ ∀ r ∈ answers, r.Honest := by
  -- the number of questions is one that a header has declared before
  have hquestions : m.questions.length ≤ maxWord := by
    rw [← hm.questions]
    exact Nat.le_of_lt_succ m.header.questionCount.toNat_lt
  constructor
  · intro h r hr
    exact h.records r (List.mem_append_left _ (List.mem_append_left _ hr))
  · intro h
    refine ⟨?_, ?_, rfl, rfl, ?_⟩
    · exact (declaredLength_toNat _).trans (Nat.min_eq_left hquestions)
    · exact (declaredLength_toNat _).trans (Nat.min_eq_left hlen)
    · intro r hr
      rw [List.append_assoc] at hr
      exact h r ((List.append_nil answers).subst hr)

/-- A reply fits into its header when the query came with an opcode that did. -/
theorem narrow_reply (hm : m.narrow = m) (hcode : code < 16) :
    (m.reply code answers).narrow = m.reply code answers := by
  have hopcode : m.header.opcode % 16 = m.header.opcode := congrArg (·.header.opcode) hm
  have hrcode : code % 16 = code := UInt8.mod_eq_of_lt hcode
  unfold narrow reply withCounts Header.narrow
  simp only [hopcode, hrcode]
  rfl

end Message

/-- A reply to a message that was read is written, and is read again as it is, if its records are true. -/
theorem decode_reply {d : Bytes} {m : Message} (hd : decode d = .ok m) {code : UInt8}
    (hcode : code < 16) {answers : List Record} (hlen : answers.length ≤ maxWord)
    (h : ∀ r ∈ answers, r.Honest) :
    ∃ d', encode true (m.reply code answers) = .ok d' ∧ decode d' = .ok (m.reply code answers) := by
  obtain ⟨hm, hnarrow⟩ := honest_of_decode hd
  have hreply : (m.reply code answers).Honest := (Message.honest_reply_iff hm hlen).mpr h
  refine ⟨_, encode_eq_ok_iff.mpr ⟨hreply, rfl⟩, ?_⟩
  rw [decode_message true hreply, Message.narrow_reply hnarrow hcode]

namespace Responder

theorem write_state (reply : Message) (s : σ) (events : List Event) :
    (write reply s events).state = s := by
  unfold write
  split
  · rfl
  · rfl

/-- What is sent is what the writer makes of the reply. -/
theorem write_answer (reply : Message) (s : σ) (events : List Event) :
    (write reply s events).answer = (encode true reply).toOption := by
  unfold write
  cases encode true reply with
  | ok d => rfl
  | error e => rfl

/-- A reply that can be written is sent as it was written. -/
theorem write_answer_of_encode {reply : Message} {d : Bytes} (h : encode true reply = .ok d) (s : σ)
    (events : List Event) : (write reply s events).answer = some d := by
  unfold write
  rw [h]

theorem write_answer_of_not_honest {reply : Message} (h : ¬reply.Honest) (s : σ)
    (events : List Event) : (write reply s events).answer = none := by
  unfold write
  cases hd : encode true reply with
  | ok d => exact absurd (encode_eq_ok_iff.mp hd).1 h
  | error e => rfl

/-! ## After a datagram was handled -/

variable {r : Responder} {datagram : Bytes} {client : Endpoint}

/-- A forwarder that is asked for nothing keeps its state. -/
theorem handle_state_of_kept (h : r.handedOn? datagram client = none) (forward : Forwarder σ)
    (s : σ) : (r.handle forward datagram client s).state = s := by
  cases hd : decode datagram with
  | error e => rw [handle_of_malformed hd]
  | ok m =>
      cases hq : m.header.qr with
      | true => rw [handle_of_response hd hq]
      | false =>
          cases hfirst : m.questions.head? with
          | none => rw [handle_of_unasked hd hq hfirst, write_state]
          | some q =>
              have hrule := (handedOn?_eq_none_iff hd hq hfirst client).mp h
              obtain ⟨rule, hrule⟩ := Option.isSome_iff_exists.mp hrule
              rw [handle_of_matched hd hq hfirst hrule, write_state]

/-- What is answered here does not depend on the forwarder, nor on its state. -/
theorem handle_answer_of_kept {τ : Type} (h : r.handedOn? datagram client = none)
    (forward : Forwarder σ) (s : σ) (other : Forwarder τ) (t : τ) :
    (r.handle forward datagram client s).answer = (r.handle other datagram client t).answer := by
  cases hd : decode datagram with
  | error e => rw [handle_of_malformed hd, handle_of_malformed hd]
  | ok m =>
      cases hq : m.header.qr with
      | true => rw [handle_of_response hd hq, handle_of_response hd hq]
      | false =>
          cases hfirst : m.questions.head? with
          | none =>
              rw [handle_of_unasked hd hq hfirst, handle_of_unasked hd hq hfirst, write_answer,
                write_answer]
          | some q =>
              have hrule := (handedOn?_eq_none_iff hd hq hfirst client).mp h
              obtain ⟨rule, hrule⟩ := Option.isSome_iff_exists.mp hrule
              rw [handle_of_matched hd hq hfirst hrule, handle_of_matched hd hq hfirst hrule,
                write_answer, write_answer]

/-- What is handed on is the forwarder's, and the client hears at once only if the forwarder failed. -/
theorem handle_of_handedOn {request : Request} (h : r.handedOn? datagram client = some request)
    (forward : Forwarder σ) (s : σ) :
    ∃ q, r.handle forward datagram client s =
      let turn := forward request s
      match turn.answer with
      | .ok _ => ⟨none, turn.state, .unmatched q client :: turn.events⟩
      | .error e =>
          write (request.message.errorReply .servFail) turn.state
            (.unmatched q client :: turn.events ++ [.failed e request.id client]) := by
  obtain ⟨m, q, hd, hq, hfirst, hrule, rfl⟩ := handedOn?_eq_some_iff.mp h
  have hfirst' : m.firstQuestion? = some q := hfirst
  refine ⟨q, ?_⟩
  unfold handle
  rw [hd]
  dsimp only
  rw [if_neg (by rw [hq]; exact Bool.false_ne_true)]
  unfold execute
  dsimp only
  rw [hfirst']
  dsimp only
  rw [hrule]
  dsimp only
  cases (forward ⟨m, datagram, client⟩ s).answer with
  | ok _ => rfl
  | error e => rfl

theorem handle_state_of_handedOn {request : Request} (h : r.handedOn? datagram client = some request)
    (forward : Forwarder σ) (s : σ) :
    (r.handle forward datagram client s).state = (forward request s).state := by
  obtain ⟨q, hturn⟩ := handle_of_handedOn h forward s
  rw [hturn]
  dsimp only
  cases (forward request s).answer with
  | ok _ => rfl
  | error e => exact write_state _ _ _

theorem handle_answer_of_handedOn {request : Request} (h : r.handedOn? datagram client = some request)
    (forward : Forwarder σ) (s : σ) :
    (r.handle forward datagram client s).answer =
      match (forward request s).answer with
      | .ok _ => none
      | .error _ => (encode true (request.message.errorReply .servFail)).toOption := by
  obtain ⟨q, hturn⟩ := handle_of_handedOn h forward s
  rw [hturn]
  dsimp only
  cases (forward request s).answer with
  | ok _ => rfl
  | error e => exact write_answer _ _ _

theorem handle_answer_of_forwarded {request : Request}
    (h : r.handedOn? datagram client = some request) (forward : Forwarder σ) (s : σ)
    (hok : (forward request s).answer = .ok ()) :
    (r.handle forward datagram client s).answer = none := by
  rw [handle_answer_of_handedOn h, hok]

theorem handle_answer_of_not_forwarded {request : Request}
    (h : r.handedOn? datagram client = some request) (forward : Forwarder σ) (s : σ)
    {e : ForwardError} (he : (forward request s).answer = .error e) :
    (r.handle forward datagram client s).answer =
      (encode true (request.message.errorReply .servFail)).toOption := by
  rw [handle_answer_of_handedOn h, he]

end Responder

end DnsResponder
