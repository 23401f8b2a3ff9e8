import DnsResponder.Proofs.Service.Relaying

/-!
# Whose query a reply answers

An honest resolver sends nothing but replies: each answers one query that it got before
and carries that query's id, and none is answered twice. `Attributed` says so of a run,
by giving for each reply the step in which the query was sent that it answers.

The service does not see which query a reply answers, only the id. So a reply may reach
a client that did not ask for it, and two queries and one reply are enough for that. But
there is no other way: the client that gets the reply asked under the same id later,
while the query that is answered was still open at the resolver.
-/

namespace DnsResponder

/-- A datagram that is cut when it is received still starts as it did. -/
theorem leadingId_received (datagram : Bytes) : leadingId (received datagram) = leadingId datagram := by
  have hsame : ∀ i < maxDatagram, (received datagram).getD i 0 = datagram.getD i 0 := by
    intro i hi
    unfold received
    rw [Array.getD_eq_getD_getElem?, Array.getD_eq_getD_getElem?, Array.getElem?_extract,
      Nat.sub_zero, Nat.zero_add]
    by_cases hlen : i < datagram.size
    · rw [if_pos (Nat.lt_min.mpr ⟨hi, hlen⟩)]
    · rw [if_neg fun h => hlen (Nat.lt_min.mp h).2, Array.getElem?_eq_none (Nat.not_lt.mp hlen)]
  unfold leadingId
  rw [hsame 0 (by decide), hsame 1 (by decide)]

/-- The last of the elements that were kept stands somewhere in the list, and none behind it was kept. -/
theorem exists_split_of_getLast?_filter {α : Type} {p : α → Bool} {as : List α} {a : α}
    (h : (as.filter p).getLast? = some a) :
    ∃ front back, as = front ++ a :: back ∧ ∀ b ∈ back, ¬p b := by
  obtain ⟨kept, hkept⟩ := List.getLast?_eq_some_iff.mp h
  obtain ⟨front, more, rfl, -, hmore⟩ := List.filter_eq_append_iff.mp hkept
  obtain ⟨skipped, back, rfl, -, -, hback⟩ := List.filter_eq_cons_iff.mp hmore
  exact ⟨front ++ skipped, back, (List.append_assoc _ _ _).symm, List.filter_eq_nil_iff.mp hback⟩

namespace Service

/-- The request was sent to the resolver in step `i`. -/
def SentAt (history : List Step) (i : Nat) (request : Request) : Prop :=
  history[i]?.bind Step.forwarded? = some request

/-- The resolver's datagram came in step `j`. -/
def RepliedAt (resolver : Endpoint) (history : List Step) (j : Nat) (datagram : Bytes) : Prop :=
  history[j]?.map (·.arrival) = some (.reply resolver datagram)

/--
All that the resolver sends are replies, and each answers one query that it got before.
The query that is answered in step `j` was sent in step `origin j`.
-/
structure Attributed (resolver : Endpoint) (history : List Step) (origin : Nat → Nat) : Prop where
  /-- What is answered has been sent before, and the reply carries its id. -/
  answers : ∀ j datagram, RepliedAt resolver history j datagram →
    origin j < j ∧ ∃ request, SentAt history (origin j) request ∧ request.id = leadingId datagram
  /-- No query is answered twice. -/
  once : ∀ i j d e, RepliedAt resolver history i d → RepliedAt resolver history j e →
    origin i = origin j → i = j

/-- The query sent in step `i` is unanswered when step `k` is taken. -/
def Open (resolver : Endpoint) (history : List Step) (origin : Nat → Nat) (i k : Nat) : Prop :=
  ∀ j datagram, j < k → RepliedAt resolver history j datagram → origin j ≠ i

/-- Whoever is owed a reply asked for it, and nobody has asked under that id since. -/
theorem exists_last_query {past : List Step} {id : UInt16} {client : Endpoint}
    (h : owed? past id = some client) :
    ∃ k own, SentAt past k own ∧ own.client = client ∧ own.id = id ∧
      ∀ i request, SentAt past i request → request.id = id → i ≤ k := by
  obtain ⟨own, hown, hclient⟩ := Option.map_eq_some_iff.mp h
  obtain ⟨z, hz, hforwarded⟩ := Option.bind_eq_some_iff.mp hown
  have hsubject : z.subject? = some id := by
    simpa using (List.mem_filter.mp (List.mem_of_getLast? hz)).2
  obtain ⟨front, back, rfl, hback⟩ := exists_split_of_getLast?_filter hz
  refine ⟨front.length, own, ?_, hclient, ?_, ?_⟩
  · unfold SentAt
    rw [List.getElem?_append_right (Nat.le_refl _), Nat.sub_self]
    exact hforwarded
  · exact Option.some.inj ((Step.subject?_of_forwarded? hforwarded).symm.trans hsubject)
  · intro i request hsent hid
    refine Nat.le_of_not_lt fun hlt => ?_
    obtain ⟨y, hy, hrequest⟩ := Option.bind_eq_some_iff.mp hsent
    -- a later query would stand behind `z`, where nothing is about the id
    have hmem : y ∈ back := by
      obtain ⟨n, rfl⟩ := Nat.exists_eq_add_of_lt hlt
      rw [List.getElem?_append_right (Nat.le_of_lt hlt),
        show front.length + n + 1 - front.length = n + 1 by omega, List.getElem?_cons_succ] at hy
      exact List.mem_of_getElem? hy
    refine hback y hmem ?_
    rw [Step.subject?_of_forwarded? hrequest, hid]
    exact decide_eq_true rfl

theorem SentAt.of_append {past rest : List Step} {i : Nat} {request : Request}
    (h : SentAt (past ++ rest) i request) (hi : i < past.length) : SentAt past i request := by
  unfold SentAt at h
  rwa [List.getElem?_append_left hi] at h

theorem SentAt.lt_length {past : List Step} {i : Nat} {request : Request}
    (h : SentAt past i request) : i < past.length := by
  obtain ⟨y, hy, -⟩ := Option.bind_eq_some_iff.mp h
  exact (List.getElem?_eq_some_iff.mp hy).1

/--
A reply that reaches a client answers a query of that client, or it answers a query of
another client under the same id, and then the client itself asked under that id while
the other query was still open.
-/
theorem relayed_to_asker_or_successor (responder : Responder) (resolver : Endpoint)
    (timeout capacity : Nat) (run : List Moment) (origin : Nat → Nat)
    (hattributed : Attributed resolver
      ((fresh responder resolver timeout capacity).steps run) origin) :
    let history := (fresh responder resolver timeout capacity).steps run
    ∀ past x rest source datagram client d, history = past ++ x :: rest →
      x.arrival = .reply source datagram → .toClient client d ∈ x.sent →
      ∃ request, SentAt past (origin past.length) request ∧ request.id = leadingId datagram ∧
        (request.client = client ∨
          ∃ k own, origin past.length < k ∧ SentAt past k own ∧ own.client = client ∧
            own.id = request.id ∧ Open resolver history origin (origin past.length) k) := by
  intro history past x rest source datagram client d hsplit harrival hmem
  obtain ⟨earlier, rfl, hbefore⟩ := exists_run_of_steps_eq hsplit
  generalize hpast : (fresh responder resolver timeout capacity).steps earlier = past at hsplit ⊢
  have hresolver : x.before.resolver = resolver :=
    resolver_of_mem_steps (hsplit ▸ List.mem_append_right _ List.mem_cons_self)
  obtain ⟨-, id, w, hreply, hfind, rfl⟩ := Step.of_toClient_mem_sent harrival hmem
  obtain ⟨hsource, -, hid⟩ := (reply?_eq_some_iff harrival).mp hreply
  rw [leadingId_received] at hid
  -- the reply answers a query under this id that was sent before
  have hreplied : RepliedAt resolver history past.length datagram := by
    unfold RepliedAt
    rw [hsplit, List.getElem?_append_right (Nat.le_refl _), Nat.sub_self]
    show some x.arrival = _
    rw [harrival, hsource, hresolver]
  obtain ⟨hlt, request, hrequest, hrid⟩ := hattributed.answers _ _ hreplied
  have hrequest : SentAt past (origin past.length) request := by
    rw [show (fresh responder resolver timeout capacity).steps run = past ++ x :: rest from hsplit]
      at hrequest
    exact hrequest.of_append hlt
  -- the client waits, so the last query under this id is its own
  have howed : owed? past id = some w.client := by
    rw [hbefore] at hfind
    rw [← hpast]
    exact owed?_of_find? rfl hfind
  obtain ⟨k, own, hown, hclient, hoid, hlast⟩ := exists_last_query howed
  refine ⟨request, hrequest, hrid, ?_⟩
  rcases Nat.eq_or_lt_of_le (hlast _ _ hrequest (hrid.trans hid)) with heq | hbefore
  · rw [heq] at hrequest
    cases hrequest.symm.trans hown
    exact .inl hclient
  · refine .inr ⟨k, own, hbefore, hown, hclient, hoid.trans (hrid.trans hid).symm, ?_⟩
    intro j e hj hreplied' heq
    have hsame := hattributed.once _ _ _ _ hreplied' hreplied heq
    have hk := hown.lt_length
    omega

/-- Two clients ask under one id, and the resolver answers the one that asked first. -/
theorem attributed_to_first :
    Attributed unruled.resolver (unruled.steps (twoQueries ++ [replyMoment])) fun _ => 0 where
  answers := by
    intro j datagram h
    match j, h with
    | 0, h => cases h
    | 1, h => cases h
    | j + 3, h => cases h
    | 2, h =>
        cases h
        have hsent : ((unruled.steps (twoQueries ++ [replyMoment]))[0]?.bind Step.forwarded?).map
            Request.id = some 7 := by decide +kernel
        obtain ⟨request, hrequest, hid⟩ := Option.map_eq_some_iff.mp hsent
        exact ⟨Nat.zero_lt_succ _, request, hrequest, hid⟩
  once := by
    intro i j d e hi hj _
    match i, j, hi, hj with
    | 0, _, hi, _ => cases hi
    | 1, _, hi, _ => cases hi
    | i + 3, _, hi, _ => cases hi
    | 2, 0, _, hj => cases hj
    | 2, 1, _, hj => cases hj
    | 2, j + 3, _, hj => cases hj
    | 2, 2, _, _ => rfl

theorem sent_to_second :
    .toClient secondClient replyToSeven ∈ ((unruled.after twoQueries).stepAt replyMoment).sent := by
  decide +kernel

theorem relayed_to_successor_of_first :
    Attributed unruled.resolver (unruled.steps (twoQueries ++ [replyMoment])) (fun _ => 0) ∧
      ∃ request, SentAt (unruled.steps twoQueries) 0 request ∧ request.id = 7 ∧
        (request.client = secondClient ∨
          ∃ k own, 0 < k ∧ SentAt (unruled.steps twoQueries) k own ∧ own.client = secondClient ∧
            own.id = request.id ∧
            Open unruled.resolver (unruled.steps (twoQueries ++ [replyMoment])) (fun _ => 0) 0 k) := by
  exact ⟨attributed_to_first, relayed_to_asker_or_successor _ _ _ _ _ _ attributed_to_first
    (unruled.steps twoQueries) _ [] _ _ _ _ (steps_concat _ _ _) rfl sent_to_second⟩

/-- A client may well get the reply to another client's query. -/
theorem not_relayed_to_asker_alone :
    ¬∀ (responder : Responder) (resolver : Endpoint) (timeout capacity : Nat) (run : List Moment)
      (origin : Nat → Nat),
      Attributed resolver ((fresh responder resolver timeout capacity).steps run) origin →
      ∀ past x rest source datagram client d,
        (fresh responder resolver timeout capacity).steps run = past ++ x :: rest →
        x.arrival = .reply source datagram → .toClient client d ∈ x.sent →
        ∃ request, SentAt past (origin past.length) request ∧ request.client = client := by
  intro h
  obtain ⟨request, hsent, hclient⟩ := h _ _ _ _ _ _ attributed_to_first
    (unruled.steps twoQueries) _ [] _ _ _ _ (steps_concat _ _ _) rfl sent_to_second
  have hfirst : ((unruled.steps twoQueries)[0]?.bind Step.forwarded?).map Request.client =
      some firstClient := by decide +kernel
  rw [show (unruled.steps twoQueries)[0]?.bind Step.forwarded? = some request from hsent] at hfirst
  exact absurd (Option.some.inj hfirst.symm) (hclient ▸ by decide)

end Service

end DnsResponder
