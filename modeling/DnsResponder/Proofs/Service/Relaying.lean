import DnsResponder.Proofs.Service.Steps
import Mathlib.Data.List.Induction

/-!
# To whom a reply goes

The service remembers one client for each id. What that memory means can be told from
the history alone: of all that ever happened to an id, only the last thing counts, and
if that was a query sent to the resolver, its client is `owed?` the reply. A reply, a
query that was refused and a query that the network did not take all leave nobody owed.

The table holds no client but the one that is owed, at any time and in any order of
steps. As long as no query expires it holds that client without fail, and then a reply
goes exactly where the history says.
-/

namespace DnsResponder

/-- The id with which a message starts. -/
def leadingId (datagram : Bytes) : UInt16 :=
  UInt16.ofNat ((datagram.getD 0 0).toNat * 256 + (datagram.getD 1 0).toNat)

theorem replyId?_eq (datagram : Bytes) :
    replyId? datagram = if headerLength ≤ datagram.size then some (leadingId datagram) else none := by
  unfold replyId?
  by_cases hlen : headerLength ≤ datagram.size
  · rw [if_pos hlen, if_neg (Nat.not_lt.mpr hlen)]
    obtain ⟨os⟩ := datagram
    have htwo : 2 ≤ os.length := Nat.le_trans (by decide : 2 ≤ headerLength) hlen
    obtain ⟨a, b, rest, rfl⟩ : ∃ a b rest, os = a :: b :: rest := by
      match os, htwo with
      | a :: b :: rest, _ => exact ⟨a, b, rest, rfl⟩
    have hbytes : Reader.bytes 2 ⟨a :: b :: rest⟩ 0 = .ok (#[a, b], 2) := by
      unfold Reader.bytes
      rw [if_pos (by simp)]
      congr 2
      apply Array.ext'
      simp
    rw [Reader.u16, Reader.bind_apply, hbytes]
    simp [Reader.pure_apply, Reader.value, leadingId]
  · rw [if_neg hlen, if_pos (Nat.lt_of_not_le hlen)]

namespace Service

/-- The client whose query was the last that happened to the id, if it was sent to the resolver. -/
def owed? (past : List Step) (id : UInt16) : Option Endpoint :=
  ((past.filter (·.subject? = some id)).getLast?.bind Step.forwarded?).map Request.client

theorem owed?_concat_of_subject (past : List Step) {x : Step} {id : UInt16}
    (h : x.subject? = some id) : owed? (past ++ [x]) id = x.forwarded?.map Request.client := by
  unfold owed?
  rw [List.filter_append, List.filter_cons_of_pos (by simpa using h), List.filter_nil,
    List.getLast?_concat]
  rfl

theorem owed?_concat_of_not_subject (past : List Step) {x : Step} {id : UInt16}
    (h : x.subject? ≠ some id) : owed? (past ++ [x]) id = owed? past id := by
  unfold owed?
  rw [List.filter_append, List.filter_cons_of_neg (by simpa using h), List.filter_nil,
    List.append_nil]

namespace Step

variable {x : Step} {id : UInt16} {client : Endpoint} {request : Request}

/-! ## What a step does to an id -/

/-- What waits under the id that a step is about is the query that the step sent. -/
theorem find?_after_of_subject (h : x.subject? = some id) :
    x.after.pending.find? id = x.forwarded?.map fun request => ⟨id, request.client, x.now⟩ := by
  cases hrequest : x.request? with
  | some request =>
      obtain rfl : request.id = id :=
        Option.some.inj ((subject?_of_request? hrequest).symm.trans h)
      rcases cases_of_request hrequest with ⟨-, -, hforwarded, -, hafter⟩ |
        ⟨hnot, -, ⟨hfull, hafter⟩ | ⟨_, -, -, hafter⟩⟩
      · rw [hafter, hforwarded, Pending.find?_insert, if_pos rfl]
        rfl
      · rw [hafter, (Pending.not_admits_iff.mp hfull).2, hnot]
        rfl
      · rw [hafter, hnot, Pending.find?_erase, if_pos rfl]
        rfl
  | none =>
      have hreply : x.reply? = some id := by
        unfold subject? at h
        rwa [hrequest] at h
      obtain ⟨datagram, harrival, -⟩ := of_reply? hreply
      rw [forwarded?_of_request?_eq_none hrequest]
      rcases cases_of_reply harrival with ⟨hfind, -, hafter⟩ | ⟨id', w, hreply', -, hafter, -⟩
      · rw [hafter, hfind id hreply]
        rfl
      · cases hreply.symm.trans hreply'
        rw [hafter, Pending.find?_erase, if_pos rfl]
        rfl

/-- No step touches another id than the one it is about, except that the sweeper may give up on it. -/
theorem find?_after_of_not_subject (h : x.subject? ≠ some id) :
    x.after.pending.find? id = x.before.pending.find? id ∨
      x.after.pending = (x.before.pending.purge x.now).state := by
  cases hrequest : x.request? with
  | some request =>
      have hne : id ≠ request.id := by
        rintro rfl
        exact h (subject?_of_request? hrequest)
      refine .inl ?_
      rcases cases_of_request hrequest with ⟨-, -, -, -, hafter⟩ |
        ⟨-, -, ⟨-, hafter⟩ | ⟨_, -, -, hafter⟩⟩
      · rw [hafter, Pending.find?_insert, if_neg hne]
      · rw [hafter]
      · rw [hafter, Pending.find?_erase, if_neg hne, Pending.find?_insert, if_neg hne]
  | none =>
      cases hreply : x.reply? with
      | some other =>
          have hne : id ≠ other := by
            rintro rfl
            exact h (subject?_of_reply? hreply)
          obtain ⟨datagram, harrival, -⟩ := of_reply? hreply
          refine .inl ?_
          rcases cases_of_reply harrival with ⟨-, -, hafter⟩ | ⟨id', w, hreply', -, hafter, -⟩
          · rw [hafter]
          · cases hreply.symm.trans hreply'
            rw [hafter, Pending.find?_erase, if_neg hne]
      | none =>
          rcases (cases_of_idle (subject?_eq_none_iff.mpr ⟨hrequest, hreply⟩)).2 with heq | hpurge
          · exact .inl (congrArg (Pending.find? · id) heq)
          · exact .inr hpurge

/-- What waits under another id waited before. -/
theorem find?_of_find?_after (hu : x.before.pending.Unique) (h : x.subject? ≠ some id) {w : Waiting}
    (hfind : x.after.pending.find? id = some w) : x.before.pending.find? id = some w := by
  rcases find?_after_of_not_subject h with heq | hpurge
  · rw [← heq]
    exact hfind
  · rw [hpurge] at hfind
    exact hu.find?_of_find?_purge hfind

/-- What waits under another id goes on waiting while nothing has expired. -/
theorem find?_after_of_prompt (hprompt : x.before.pending.Prompt x.now)
    (h : x.subject? ≠ some id) : x.after.pending.find? id = x.before.pending.find? id := by
  rcases find?_after_of_not_subject h with heq | hpurge
  · exact heq
  · rw [hpurge, hprompt.purge]

end Step

/-! ## The table and the history -/

variable {s : Service} {run : List Moment} {id : UInt16}

/-- Whoever waits is owed the reply. -/
theorem owed?_of_find? (hs : s.pending.entries = []) {w : Waiting}
    (h : (s.after run).pending.find? id = some w) : owed? (s.steps run) id = some w.client := by
  induction run using List.reverseRecOn generalizing w with
  | nil =>
      have hempty : s.pending.find? id = none := by
        unfold Pending.find?
        rw [hs]
        rfl
      rw [show s.after [] = s from rfl, hempty] at h
      cases h
  | append_singleton run m ih =>
      have hu := (sound_after_run (Pending.sound_of_isEmpty hs) run).unique
      rw [after_concat] at h
      rw [steps_concat]
      by_cases hsubject : ((s.after run).stepAt m).subject? = some id
      · rw [Step.find?_after_of_subject hsubject] at h
        rw [owed?_concat_of_subject _ hsubject]
        obtain ⟨request, hrequest, rfl⟩ := Option.map_eq_some_iff.mp h
        rw [hrequest]
        rfl
      · rw [owed?_concat_of_not_subject _ hsubject]
        exact ih (Step.find?_of_find?_after hu hsubject h)

/-- While nothing expires, whoever is owed a reply waits for it. -/
theorem find?_eq_owed? (hs : s.pending.entries = [])
    (hprompt : ∀ x ∈ s.steps run, x.before.pending.Prompt x.now) :
    ((s.after run).pending.find? id).map Waiting.client = owed? (s.steps run) id := by
  induction run using List.reverseRecOn with
  | nil =>
      unfold Pending.find?
      rw [show s.after [] = s from rfl, hs]
      rfl
  | append_singleton run m ih =>
      rw [steps_concat, List.forall_mem_append, List.forall_mem_singleton] at hprompt
      obtain ⟨hrun, hlast⟩ := hprompt
      rw [steps_concat, after_concat]
      by_cases hsubject : ((s.after run).stepAt m).subject? = some id
      · rw [Step.find?_after_of_subject hsubject, owed?_concat_of_subject _ hsubject,
          Option.map_map]
        rfl
      · rw [Step.find?_after_of_prompt hlast hsubject, owed?_concat_of_not_subject _ hsubject]
        exact ih hrun

/-! ## Counting -/

namespace Step

variable {x : Step} {id : UInt16} {client : Endpoint}

/-- A query of the client with the id is sent to the resolver. -/
def Forwards (client : Endpoint) (id : UInt16) (x : Step) : Prop :=
  x.forwarded?.map (fun request => (request.client, request.id)) = some (client, id)

/-- A reply with the id is passed on to the client. -/
def PassesOn (client : Endpoint) (id : UInt16) (x : Step) : Prop :=
  x.reply? = some id ∧ x.passedOn?.map Waiting.client = some client

/-- A reply with the id is sent to the client. -/
def Relays (client : Endpoint) (id : UInt16) (x : Step) : Prop :=
  x.reply? = some id ∧ x.relayed? = some client

instance : DecidablePred (Forwards client id) := fun x =>
  inferInstanceAs (Decidable (x.forwarded?.map _ = some (client, id)))

instance : DecidablePred (PassesOn client id) := fun x =>
  inferInstanceAs (Decidable (x.reply? = some id ∧ x.passedOn?.map _ = some client))

instance : DecidablePred (Relays client id) := fun x =>
  inferInstanceAs (Decidable (x.reply? = some id ∧ x.relayed? = some client))

end Step

/-- The client waits for a reply to the id. -/
def Waits (client : Endpoint) (id : UInt16) (p : Pending) : Prop :=
  (p.find? id).map Waiting.client = some client

instance {client : Endpoint} {id : UInt16} : DecidablePred (Waits client id) := fun p =>
  inferInstanceAs (Decidable ((p.find? id).map _ = some client))

namespace Step

variable {x : Step} {id : UInt16} {client : Endpoint}

theorem relays_iff : x.Relays client id ↔ x.PassesOn client id ∧ (x.net.send client).isOk := by
  unfold Relays PassesOn
  rw [relayed?_eq, Option.filter_eq_some_iff, and_assoc]

theorem waits_of_passesOn (h : x.PassesOn client id) : Waits client id x.before.pending := by
  obtain ⟨w, hpassed, rfl⟩ := Option.map_eq_some_iff.mp h.2
  obtain ⟨id', hreply, hfind, -⟩ := of_passedOn? hpassed
  cases h.1.symm.trans hreply
  exact congrArg (Option.map Waiting.client) hfind

/-- After a step about an id, a client waits for it exactly when the step forwarded its query. -/
theorem waits_after_iff (h : x.subject? = some id) :
    Waits client id x.after.pending ↔ x.Forwards client id := by
  unfold Waits Forwards
  rw [find?_after_of_subject h]
  cases hrequest : x.forwarded? with
  | none => simp
  | some request =>
      have hid : request.id = id := Option.some.inj ((subject?_of_forwarded? hrequest).symm.trans h)
      simp [hid]

theorem waits_of_waits_after (hu : x.before.pending.Unique) (h : x.subject? ≠ some id)
    (hwaits : Waits client id x.after.pending) : Waits client id x.before.pending := by
  obtain ⟨w, hfind, rfl⟩ := Option.map_eq_some_iff.mp hwaits
  exact congrArg (Option.map Waiting.client) (find?_of_find?_after hu h hfind)

/-- A step passes on to a client at most what it waits for, and only a query makes it wait. -/
theorem passesOn_add_waits_le (hu : x.before.pending.Unique) :
    (if x.PassesOn client id then 1 else 0) + (if Waits client id x.after.pending then 1 else 0) ≤
      (if x.Forwards client id then 1 else 0) +
        if Waits client id x.before.pending then 1 else 0 := by
  by_cases hsubject : x.subject? = some id
  · have hpasses : (if x.PassesOn client id then 1 else 0) ≤
        if Waits client id x.before.pending then 1 else 0 := by
      split
      · rename_i hpasses
        exact Nat.le_of_eq (if_pos (waits_of_passesOn hpasses)).symm
      · exact Nat.zero_le _
    have hforwards : (if Waits client id x.after.pending then 1 else 0) =
        if x.Forwards client id then 1 else 0 := if_congr (waits_after_iff hsubject) rfl rfl
    omega
  · have hpasses : ¬x.PassesOn client id := fun h => hsubject (subject?_of_reply? h.1)
    have hwaits : (if Waits client id x.after.pending then 1 else 0) ≤
        if Waits client id x.before.pending then 1 else 0 := by
      split
      · rename_i hafter
        exact Nat.le_of_eq (if_pos (waits_of_waits_after hu hsubject hafter)).symm
      · exact Nat.zero_le _
    rw [if_neg hpasses, Nat.zero_add]
    exact Nat.le_trans hwaits (Nat.le_add_left _ _)

end Step

/-- A client is sent no more replies than are passed on to it. -/
theorem countP_relays_le (history : List Step) (client : Endpoint) (id : UInt16) :
    history.countP (·.Relays client id) ≤ history.countP (·.PassesOn client id) := by
  refine List.countP_mono_left fun x _ hrelays => ?_
  rw [decide_eq_true_eq] at hrelays ⊢
  exact (Step.relays_iff.mp hrelays).1

/-- Each reply that was passed on to a client had a query of its own, and so has each that it waits for. -/
theorem countP_passesOn_add_waits_le (hs : s.pending.Sound) (client : Endpoint) (id : UInt16)
    (run : List Moment) :
    (s.steps run).countP (·.PassesOn client id) +
        (if Waits client id (s.after run).pending then 1 else 0) ≤
      (s.steps run).countP (·.Forwards client id) +
        if Waits client id s.pending then 1 else 0 := by
  induction run generalizing s with
  | nil => exact Nat.le_refl _
  | cons m run ih =>
      have hstep : (if (s.stepAt m).PassesOn client id then 1 else 0) +
          (if Waits client id (s.stepAt m).after.pending then 1 else 0) ≤
          (if (s.stepAt m).Forwards client id then 1 else 0) +
            if Waits client id s.pending then 1 else 0 :=
        Step.passesOn_add_waits_le hs.unique
      have hrest := ih ((s.stepAt m).sound_after hs)
      rw [steps, List.countP_cons, List.countP_cons, after]
      simp only [decide_eq_true_eq]
      omega

/-! ## The law -/

/-- The reply that arrives is due to the client, by the history and by what the datagram says. -/
def DueTo (resolver : Endpoint) (past : List Step) (source : Endpoint) (datagram : Bytes)
    (client : Endpoint) : Prop :=
  source = resolver ∧ headerLength ≤ datagram.size ∧ owed? past (leadingId datagram) = some client

theorem reply?_eq_some_iff {x : Step} {source : Endpoint} {datagram : Bytes}
    (harrival : x.arrival = .reply source datagram) :
    x.reply? = some id ↔ source = x.before.resolver ∧ headerLength ≤ (received datagram).size ∧
      leadingId (received datagram) = id := by
  unfold Step.reply?
  rw [harrival]
  dsimp only
  rw [replyId?_eq]
  by_cases hsource : source = x.before.resolver
  · by_cases hlen : headerLength ≤ (received datagram).size
    · simp [hsource, hlen]
    · simp [hsource, hlen]
  · simp [hsource]

namespace Step

variable {x : Step} {source : Endpoint} {datagram : Bytes}

/-- A reply that a query waits for goes to the query's client. -/
theorem of_awaited {w : Waiting} (harrival : x.arrival = .reply source datagram)
    (hreply : x.reply? = some id) (hfind : x.before.pending.find? id = some w)
    (hlate : ¬x.before.pending.Expired x.now w) :
    x.sent = x.answers w.client (some (received datagram)) ∧
      x.after = { x.before with pending := x.before.pending.erase id } := by
  rcases cases_of_reply harrival with ⟨hnone, -, -⟩ | ⟨id', w', hreply', hfind', hafter, hsent⟩
  · rw [hnone id hreply] at hfind
    cases hfind
  · cases hreply.symm.trans hreply'
    cases hfind.symm.trans hfind'
    rcases hsent with ⟨hlate', -⟩ | ⟨-, hsent⟩
    · exact absurd hlate' hlate
    · exact ⟨hsent, hafter⟩

/-- A datagram on the resolver's socket that no query waits for is as good as none. -/
theorem of_unawaited (harrival : x.arrival = .reply source datagram)
    (h : ∀ id, x.reply? = some id → x.before.pending.find? id = none) :
    x.sent = [] ∧ x.after = x.before := by
  rcases cases_of_reply harrival with ⟨-, hsent, hafter⟩ | ⟨id, w, hreply, hfind, -, -⟩
  · exact ⟨hsent, hafter⟩
  · rw [h id hreply] at hfind
    cases hfind

end Step

/--
A datagram on the resolver's socket goes to a client exactly when the history says that
it is due to that client, and then it goes there as it came and the query waits no more.
In all other cases nobody gets anything and everything waits as before. So a client is sent
no more replies for an id than are passed on to it, and these are no more than the queries
of its own that went to the resolver.
-/
theorem relays_exactly_what_is_due (responder : Responder) (resolver : Endpoint)
    (timeout capacity : Nat) (run : List Moment)
    (hprompt : ∀ x ∈ (fresh responder resolver timeout capacity).steps run,
      x.before.pending.Prompt x.now) :
    let history := (fresh responder resolver timeout capacity).steps run
    (∀ past x rest source datagram, history = past ++ x :: rest →
      x.arrival = .reply source datagram →
      (∀ client, DueTo resolver past source (received datagram) client →
        x.sent = x.answers client (some (received datagram)) ∧
        (∃ w, x.before.pending.find? (leadingId (received datagram)) = some w ∧ w.client = client) ∧
        x.after = { x.before with
          pending := x.before.pending.erase (leadingId (received datagram)) }) ∧
      ((¬∃ client, DueTo resolver past source (received datagram) client) →
        x.sent = [] ∧ x.after = x.before)) ∧
    ∀ client id, history.countP (·.Relays client id) ≤ history.countP (·.PassesOn client id) ∧
      history.countP (·.PassesOn client id) ≤ history.countP (·.Forwards client id) := by
  dsimp only
  constructor
  · intro past x rest source datagram hsplit harrival
    obtain ⟨earlier, rfl, hbefore⟩ := exists_run_of_steps_eq hsplit
    have hresolver : x.before.resolver = resolver :=
      resolver_of_mem_steps (hsplit ▸ List.mem_append_right _ List.mem_cons_self)
    rw [hsplit, List.forall_mem_append, List.forall_mem_cons] at hprompt
    obtain ⟨hpast, hnow, -⟩ := hprompt
    -- before the step, the table holds whom the history says
    have howed : ∀ id, (x.before.pending.find? id).map Waiting.client =
        owed? ((fresh responder resolver timeout capacity).steps earlier) id := by
      intro id
      rw [hbefore]
      exact find?_eq_owed? rfl hpast
    constructor
    · rintro client ⟨hsource, hlen, hclient⟩
      have hreply := (reply?_eq_some_iff harrival).mpr ⟨hsource.trans hresolver.symm, hlen, rfl⟩
      rw [← howed] at hclient
      obtain ⟨w, hfind, rfl⟩ := Option.map_eq_some_iff.mp hclient
      have hlate : ¬x.before.pending.Expired x.now w := hnow w (Pending.of_find? hfind).1
      obtain ⟨hsent, hafter⟩ := Step.of_awaited harrival hreply hfind hlate
      exact ⟨hsent, ⟨w, hfind, rfl⟩, hafter⟩
    · intro hnobody
      refine Step.of_unawaited harrival ?_
      intro id hreply
      obtain ⟨hsource, hlen, rfl⟩ := (reply?_eq_some_iff harrival).mp hreply
      rw [← Option.map_eq_none_iff (f := Waiting.client), howed]
      cases howed' : owed? _ (leadingId (received datagram)) with
      | none => rfl
      | some client => exact absurd ⟨client, hsource.trans hresolver, hlen, howed'⟩ hnobody
  · intro client id
    have hcount := countP_passesOn_add_waits_le (s := fresh responder resolver timeout capacity)
      (Pending.sound_of_isEmpty rfl) client id run
    have hnone : ¬Waits client id (fresh responder resolver timeout capacity).pending := by
      intro h
      cases h
    rw [if_neg hnone] at hcount
    exact ⟨countP_relays_le _ client id, by omega⟩

/-- A service that has no rule, and so leaves every question to its resolver. -/
def unruled : Service := fresh { rules := {} } (.v4 ⟨192, 0, 2, 53⟩ 53) 5000 16

/-- A query under the id 7. -/
def queryOfSeven : Bytes := #[0, 7, 1, 0, 0, 1, 0, 0, 0, 0, 0, 0, 1, 97, 0, 0, 1, 0, 1]

/-- A reply under the id 7. -/
def replyToSeven : Bytes := #[0, 7, 129, 128, 0, 0, 0, 0, 0, 0, 0, 0]

def firstClient : Endpoint := .v4 ⟨127, 0, 0, 1⟩ 1001

def secondClient : Endpoint := .v4 ⟨127, 0, 0, 1⟩ 1002

/-- Two clients ask under one id. -/
def twoQueries : List Moment :=
  [⟨.connected, 0, .query firstClient queryOfSeven⟩, ⟨.connected, 5, .query secondClient queryOfSeven⟩]

/-- The resolver replies under that id. -/
def replyMoment : Moment := ⟨.connected, 20, .reply unruled.resolver replyToSeven⟩

theorem relays_exactly_what_is_due_to_the_second :
    (∀ x ∈ unruled.steps (twoQueries ++ [replyMoment]), x.before.pending.Prompt x.now) ∧
      DueTo unruled.resolver (unruled.steps twoQueries) unruled.resolver (received replyToSeven)
        secondClient ∧
      ((unruled.after twoQueries).stepAt replyMoment).sent = [.toClient secondClient replyToSeven] := by
  have hprompt : ∀ x ∈ unruled.steps (twoQueries ++ [replyMoment]),
      x.before.pending.Prompt x.now := by
    unfold Pending.Prompt
    decide +kernel
  have hdue : DueTo unruled.resolver (unruled.steps twoQueries) unruled.resolver
      (received replyToSeven) secondClient := by
    unfold DueTo
    decide +kernel
  have hlaw := (relays_exactly_what_is_due _ _ _ _ (twoQueries ++ [replyMoment]) hprompt).1
    (unruled.steps twoQueries) _ [] unruled.resolver replyToSeven (steps_concat _ _ _) rfl
  refine ⟨hprompt, hdue, ?_⟩
  exact (hlaw.1 secondClient hdue).1

end Service

end DnsResponder
