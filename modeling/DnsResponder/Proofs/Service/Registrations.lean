import DnsResponder.Proofs.Service.Waiting
import Mathlib.Data.List.Induction

/-!
# What the table holds, told by its history

Four things can be done to the table: a client is registered under an id, what waits
under an id is taken, an id is removed, and what has expired is purged. An action
*affects* an id if it decides what the table holds under it. That is a registration that
the table takes in, a take or a removal of the id, and a purge that finds what waits
under it expired. No other action changes what is held under the id.

So of all that was ever done only the last action that affected an id counts: something
waits under the id exactly when that action was a registration, and then it is what was
registered. A take is such an action itself, and so nothing is taken twice.
-/

namespace DnsResponder.Pending

/-- What can be done to the table. -/
inductive Operation where
  | register (id : UInt16) (client : Endpoint)
  | take (id : UInt16)
  | remove (id : UInt16)
  | purge

/-- An operation that was carried out: what was done, when, and to which table. -/
structure Action where
  operation : Operation
  now : Nat
  before : Pending

namespace Action

/-- The table that the action left behind. -/
def after (x : Action) : Pending :=
  match x.operation with
  | .register id client => (x.before.register x.now id client).state
  | .take id => (x.before.take x.now id).state
  | .remove id => x.before.erase id
  | .purge => (x.before.purge x.now).state

/-- The action is a registration of the client under the id, and the table takes it in. -/
def Registers (id : UInt16) (client : Endpoint) (x : Action) : Prop :=
  x.operation = .register id client ∧ (x.before.register x.now id client).answer = true

/-- What the action takes. -/
def taken? (x : Action) : Option Waiting :=
  match x.operation with
  | .take id => (x.before.take x.now id).answer
  | _ => none

/-- The action decides what the table holds under the id. -/
def Affects (id : UInt16) (x : Action) : Prop :=
  match x.operation with
  | .register other client => other = id ∧ (x.before.register x.now other client).answer = true
  | .take other | .remove other => other = id
  | .purge => ∃ w, x.before.find? id = some w ∧ x.before.Expired x.now w

end Action

/-- The actions of a row of operations, each with its time. -/
def actions (p : Pending) : List (Nat × Operation) → List Action
  | [] => []
  | (now, operation) :: rest =>
      let x : Action := ⟨operation, now, p⟩
      x :: actions x.after rest

/-- The table that a row of operations leaves behind. -/
def after (p : Pending) : List (Nat × Operation) → Pending
  | [] => p
  | (now, operation) :: rest => after (Action.after ⟨operation, now, p⟩) rest

/-- The last action on the id is `x`. -/
def LastOn (id : UInt16) (past : List Action) (x : Action) : Prop :=
  ∃ front back, past = front ++ x :: back ∧ x.Affects id ∧ ∀ y ∈ back, ¬y.Affects id

/-- What action `i` registered is what action `k` takes. -/
def Yields (history : List Action) (i k : Nat) : Prop :=
  ∃ x y id client, history[i]? = some x ∧ history[k]? = some y ∧
    x.Registers id client ∧ y.taken? = some ⟨id, client, x.now⟩ ∧
    i < k ∧ ∀ j z, i < j → j < k → history[j]? = some z → ¬z.Affects id

variable {p : Pending} {x y : Action} {id : UInt16} {w : Waiting} {past : List Action}

/-! ## What is taken and what is purged -/

theorem register_answer_eq_false_iff {now : Nat} {client : Endpoint} :
    (p.register now id client).answer = false ↔ ¬p.Admits id := by
  by_cases hroom : p.Admits id
  · rw [(register_of_room hroom now client).1]
    simp [hroom]
  · rw [register_of_full hroom]
    simp [hroom]

theorem take_answer_eq_some_iff {now : Nat} :
    (p.take now id).answer = some w ↔ p.find? id = some w ∧ ¬p.Expired now w := by
  cases hfind : p.find? id with
  | none => simp [take_of_find?_eq_none hfind]
  | some v =>
      by_cases hlate : p.Expired now v
      · rw [take_of_expired hfind hlate]
        simp only [reduceCtorEq, Option.some.injEq, false_iff, not_and, not_not]
        rintro rfl
        exact hlate
      · rw [take_of_not_expired hfind hlate]
        simp only [Option.some.injEq, iff_self_and]
        rintro rfl
        exact hlate

/-- Whatever is taken, it is gone. -/
theorem take_state (p : Pending) (now : Nat) (id : UInt16) : (p.take now id).state = p.erase id := by
  cases hfind : p.find? id with
  | none => rw [take_of_find?_eq_none hfind, erase_of_find?_eq_none hfind]
  | some w =>
      by_cases hlate : p.Expired now w
      · rw [take_of_expired hfind hlate]
      · rw [take_of_not_expired hfind hlate]

theorem Unique.find?_purge (hu : p.Unique) (now : Nat) :
    (p.purge now).state.find? id = some w ↔ p.find? id = some w ∧ ¬p.Expired now w := by
  constructor
  · intro h
    obtain ⟨hmem, -⟩ := of_find? h
    exact ⟨hu.find?_of_find?_purge h, by simpa using (List.mem_filter.mp hmem).2⟩
  · rintro ⟨hfind, hlate⟩
    obtain ⟨hmem, rfl⟩ := of_find? hfind
    have hkept : w ∈ (p.purge now).state.entries := List.mem_filter.mpr ⟨hmem, by simpa using hlate⟩
    exact (hu.filter _).find?_of_mem hkept

/-- A purge counts what it removes. -/
theorem purge_answer (p : Pending) (now : Nat) :
    (p.purge now).answer = p.entries.countP fun w => p.Expired now w := by
  have hsplit := List.length_eq_length_filter_add (l := p.entries) fun w => decide (p.Expired now w)
  rw [← List.countP_eq_length_filter] at hsplit
  unfold purge
  simp only [decide_not]
  omega

/-! ## What an action does -/

namespace Action

/-- An action takes something in, drops something, or does nothing. -/
theorem after_cases (x : Action) :
    x.after = x.before ∨ (∃ w, x.before.Admits w.id ∧ x.after = x.before.insert w) ∨
      ∃ keep, x.after = { x.before with entries := x.before.entries.filter keep } := by
  unfold after
  split
  · rename_i id client _
    by_cases hroom : x.before.Admits id
    · exact .inr (.inl ⟨⟨id, client, x.now⟩, hroom, (register_of_room hroom x.now client).2⟩)
    · rw [register_of_full hroom]
      exact .inl rfl
  · rw [take_state]
    exact .inr (.inr ⟨_, rfl⟩)
  · exact .inr (.inr ⟨_, rfl⟩)
  · exact .inr (.inr ⟨_, rfl⟩)

theorem sound_after (h : x.before.Sound) : x.after.Sound := by
  rcases x.after_cases with hafter | ⟨w, hroom, hafter⟩ | ⟨keep, hafter⟩
  · rwa [hafter]
  · rw [hafter]
    exact h.insert hroom
  · rw [hafter]
    exact h.filter keep

/-- How long and how many may wait is no action's business. -/
theorem limits_after (x : Action) :
    x.after.timeout = x.before.timeout ∧ x.after.capacity = x.before.capacity := by
  rcases x.after_cases with hafter | ⟨w, -, hafter⟩ | ⟨keep, hafter⟩
  · rw [hafter]
    exact ⟨rfl, rfl⟩
  · rw [hafter]
    exact ⟨rfl, rfl⟩
  · rw [hafter]
    exact ⟨rfl, rfl⟩

theorem of_taken? (h : x.taken? = some w) :
    x.operation = .take w.id ∧ x.before.find? w.id = some w ∧ ¬x.before.Expired x.now w := by
  unfold taken? at h
  split at h
  · rename_i id hop
    obtain ⟨hfind, hlate⟩ := take_answer_eq_some_iff.mp h
    obtain rfl := (of_find? hfind).2
    exact ⟨hop, hfind, hlate⟩
  · cases h

theorem affects_of_taken? (h : x.taken? = some w) : x.Affects w.id := by
  unfold Affects
  rw [(of_taken? h).1]

/-- An action on the id leaves nothing behind but what it registers. -/
theorem find?_after_of_affects (hu : x.before.Unique) (h : x.Affects id) :
    x.after.find? id = some w ↔ ∃ client, x.Registers id client ∧ w = ⟨id, client, x.now⟩ := by
  unfold Affects at h
  unfold after Registers
  split at h
  · rename_i other client hop
    obtain ⟨rfl, hanswer⟩ := h
    have hroom : x.before.Admits other := by
      by_contra hfull
      rw [register_answer_eq_false_iff.mpr hfull] at hanswer
      cases hanswer
    rw [hop]
    rw [(register_of_room hroom x.now client).2, find?_insert, if_pos rfl]
    constructor
    · intro hw
      exact ⟨client, ⟨rfl, hanswer⟩, (Option.some.inj hw).symm⟩
    · rintro ⟨client', ⟨hsame, -⟩, rfl⟩
      cases hsame
      rfl
  · rename_i other hop
    subst h
    rw [hop]
    rw [take_state, find?_erase, if_pos rfl]
    simp
  · rename_i other hop
    subst h
    rw [hop]
    rw [find?_erase, if_pos rfl]
    simp
  · rename_i hop
    obtain ⟨v, hfind, hlate⟩ := h
    rw [hop]
    rw [hu.find?_purge, hfind]
    constructor
    · rintro ⟨⟨⟩, hnot⟩
      exact absurd hlate hnot
    · rintro ⟨_, ⟨⟨⟩, -⟩, -⟩

/-- An action leaves alone what it does not affect. -/
theorem find?_after_of_not_affects (hu : x.before.Unique) (h : ¬x.Affects id) :
    x.after.find? id = x.before.find? id := by
  unfold Affects at h
  unfold after
  split
  · rename_i other client hop
    rw [hop] at h
    by_cases hroom : x.before.Admits other
    · obtain ⟨hanswer, hstate⟩ := register_of_room hroom x.now client
      rw [hstate, find?_insert, if_neg fun hid => h ⟨hid.symm, hanswer⟩]
    · rw [register_of_full hroom]
  · rename_i other hop
    rw [hop] at h
    rw [take_state, find?_erase, if_neg (Ne.symm h)]
  · rename_i other hop
    rw [hop] at h
    rw [find?_erase, if_neg (Ne.symm h)]
  · rename_i hop
    rw [hop] at h
    refine Option.ext fun w => ?_
    rw [hu.find?_purge]
    exact and_iff_left_of_imp fun hfind hlate => h ⟨w, hfind, hlate⟩

end Action

/-! ## Rows of operations -/

theorem actions_append (p : Pending) (ops more : List (Nat × Operation)) :
    actions p (ops ++ more) = actions p ops ++ actions (after p ops) more := by
  induction ops generalizing p with
  | nil => rfl
  | cons op ops ih =>
      rw [List.cons_append, actions, actions, ih]
      rfl

theorem after_append (p : Pending) (ops more : List (Nat × Operation)) :
    after p (ops ++ more) = after (after p ops) more := by
  induction ops generalizing p with
  | nil => rfl
  | cons op ops ih => exact ih _

/-- An action in the middle of a row was done to the table that the row before it left. -/
theorem exists_row_of_actions_eq {ops : List (Nat × Operation)} {rest : List Action}
    (h : actions p ops = past ++ x :: rest) :
    ∃ earlier, past = actions p earlier ∧ x.before = after p earlier := by
  induction past generalizing p ops with
  | nil =>
      cases ops with
      | nil => cases h
      | cons op ops =>
          injection h with hx _
          subst hx
          exact ⟨[], rfl, rfl⟩
  | cons y past ih =>
      cases ops with
      | nil => cases h
      | cons op ops =>
          injection h with hy hrest
          subst hy
          obtain ⟨earlier, rfl, hbefore⟩ := ih hrest
          exact ⟨op :: earlier, rfl, hbefore⟩

theorem Sound.after (h : p.Sound) (ops : List (Nat × Operation)) : (after p ops).Sound := by
  induction ops generalizing p with
  | nil => exact h
  | cons op ops ih => exact ih (Action.sound_after h)

theorem limits_after (p : Pending) (ops : List (Nat × Operation)) :
    (after p ops).timeout = p.timeout ∧ (after p ops).capacity = p.capacity := by
  induction ops generalizing p with
  | nil => exact ⟨rfl, rfl⟩
  | cons op ops ih =>
      obtain ⟨htimeout, hcapacity⟩ := Action.limits_after ⟨op.2, op.1, p⟩
      obtain ⟨htimeout', hcapacity'⟩ := ih (Action.after ⟨op.2, op.1, p⟩)
      exact ⟨htimeout'.trans htimeout, hcapacity'.trans hcapacity⟩

/-! ## The last action on an id -/

theorem lastOn_concat_iff :
    LastOn id (past ++ [y]) x ↔ (y.Affects id ∧ x = y) ∨ (¬y.Affects id ∧ LastOn id past x) := by
  constructor
  · rintro ⟨front, back, hsplit, hx, hback⟩
    -- `y` is the last of all, so it is `x` itself or the last of what stands behind `x`
    rcases List.eq_nil_or_concat' back with rfl | ⟨back, z, rfl⟩
    · obtain rfl := List.singleton_inj.mp (List.append_inj_right' hsplit rfl)
      exact .inl ⟨hx, rfl⟩
    · rw [← List.cons_append, ← List.append_assoc] at hsplit
      obtain rfl := List.singleton_inj.mp (List.append_inj_right' hsplit rfl)
      rw [List.forall_mem_append, List.forall_mem_singleton] at hback
      exact .inr ⟨hback.2, front, back, List.append_inj_left' hsplit rfl, hx, hback.1⟩
  · rintro (⟨hy, rfl⟩ | ⟨hy, front, back, rfl, hx, hback⟩)
    · exact ⟨past, [], rfl, hy, by simp⟩
    · refine ⟨front, back ++ [y], by simp, hx, ?_⟩
      rw [List.forall_mem_append, List.forall_mem_singleton]
      exact ⟨hback, hy⟩

/-- The last action on the id among the first `k`, told by its place. -/
theorem LastOn.exists_index {history : List Action} {k : Nat} (h : LastOn id (history.take k) x) :
    ∃ i, history[i]? = some x ∧ i < k ∧
      ∀ j z, i < j → j < k → history[j]? = some z → ¬z.Affects id := by
  obtain ⟨front, back, hsplit, -, hback⟩ := h
  have hlen : front.length < k := by
    have := congrArg List.length hsplit
    rw [List.length_take, List.length_append, List.length_cons] at this
    omega
  have hget : ∀ j, j < k → history[j]? = (front ++ x :: back)[j]? := by
    intro j hj
    rw [← hsplit, List.getElem?_take_of_lt hj]
  refine ⟨front.length, ?_, hlen, ?_⟩
  · rw [hget _ hlen, List.getElem?_append_right (Nat.le_refl _), Nat.sub_self]
    rfl
  · intro j z hij hjk hz
    rw [hget j hjk, List.getElem?_append_right (Nat.le_of_lt hij), List.getElem?_cons,
      if_neg (Nat.sub_ne_zero_of_lt hij)] at hz
    exact hback z (List.mem_of_getElem? hz)

/-- What waits under an id is what the last action on the id registered. -/
theorem find?_after_iff (hempty : p.entries = []) (ops : List (Nat × Operation)) :
    (after p ops).find? id = some w ↔
      ∃ x client, LastOn id (actions p ops) x ∧ x.Registers id client ∧ w = ⟨id, client, x.now⟩ := by
  induction ops using List.reverseRecOn with
  | nil =>
      have hnone : p.find? id = none := by
        unfold find?
        rw [hempty]
        rfl
      constructor
      · intro h
        cases hnone.symm.trans h
      · rintro ⟨x, client, ⟨front, back, hsplit, -⟩, -⟩
        simp [actions] at hsplit
  | append_singleton ops op ih =>
      -- the last action decides what waits under the id, or it leaves that as it was
      have hunique : (after p ops).Unique := ((sound_of_isEmpty hempty).after ops).unique
      let y : Action := ⟨op.2, op.1, after p ops⟩
      have hactions : actions p (ops ++ [op]) = actions p ops ++ [y] := actions_append p ops [op]
      have hafter : after p (ops ++ [op]) = y.after := after_append p ops [op]
      rw [hactions, hafter]
      simp only [lastOn_concat_iff]
      by_cases hy : y.Affects id
      · rw [Action.find?_after_of_affects hunique hy]
        simp [hy]
      · rw [Action.find?_after_of_not_affects hunique hy, ih]
        simp [hy]

/-- A client is answered if it was registered last, and not too long ago. -/
theorem take_client_iff (hempty : p.entries = []) (ops : List (Nat × Operation)) {now : Nat}
    {client : Endpoint} :
    ((after p ops).take now id).answer.map Waiting.client = some client ↔
      ∃ x, LastOn id (actions p ops) x ∧ x.Registers id client ∧ now - x.now < p.timeout := by
  have htimely : ∀ since, ¬(after p ops).Expired now ⟨id, client, since⟩ ↔ now - since < p.timeout := by
    intro since
    unfold Expired
    rw [(limits_after p ops).1, Nat.not_le]
  simp only [Option.map_eq_some_iff, take_answer_eq_some_iff, find?_after_iff hempty]
  constructor
  · rintro ⟨_, ⟨⟨x, client, hlast, hregisters, rfl⟩, hlate⟩, rfl⟩
    exact ⟨x, hlast, hregisters, (htimely _).mp hlate⟩
  · rintro ⟨x, hlast, hregisters, hlt⟩
    exact ⟨_, ⟨⟨x, client, hlast, hregisters, rfl⟩, (htimely _).mpr hlt⟩, rfl⟩

/-! ## Nothing is taken twice -/

section Yields

variable {ops : List (Nat × Operation)} {i k k' : Nat}

/-- Every action of a row was done where the actions before it led. -/
theorem exists_row_of_getElem? (h : (actions p ops)[k]? = some y) :
    ∃ earlier, (actions p ops).take k = actions p earlier ∧ y.before = after p earlier := by
  obtain ⟨hk, rfl⟩ := List.getElem?_eq_some_iff.mp h
  have hsplit : actions p ops =
      (actions p ops).take k ++ (actions p ops)[k] :: (actions p ops).drop (k + 1) := by
    rw [List.getElem_cons_drop, List.take_append_drop]
  exact exists_row_of_actions_eq hsplit

/-- What is taken was registered, and nothing has been done about its id since. -/
theorem exists_yields (hempty : p.entries = []) (hy : (actions p ops)[k]? = some y)
    (htaken : y.taken? = some w) : ∃ i, Yields (actions p ops) i k := by
  obtain ⟨earlier, htake, hbefore⟩ := exists_row_of_getElem? hy
  obtain ⟨-, hfind, -⟩ := Action.of_taken? htaken
  rw [hbefore] at hfind
  obtain ⟨x, client, hlast, hregisters, hw⟩ := (find?_after_iff hempty earlier).mp hfind
  rw [← htake] at hlast
  obtain ⟨i, hx, hik, hbetween⟩ := hlast.exists_index
  exact ⟨i, x, y, w.id, client, hx, hy, hregisters, hw ▸ htaken, hik, hbetween⟩

/-- A take is itself about the id, so a second one finds nothing of the same registration. -/
theorem Yields.unique {history : List Action} (h : Yields history i k) (h' : Yields history i k') :
    k = k' := by
  obtain ⟨x, y, id, client, hx, hy, hregisters, htaken, hik, hbetween⟩ := h
  obtain ⟨x', y', id', client', hx', hy', hregisters', htaken', hik', hbetween'⟩ := h'
  cases hx.symm.trans hx'
  cases hregisters.1.symm.trans hregisters'.1
  -- the earlier take would stand between the registration and the later one
  rcases Nat.lt_trichotomy k k' with hlt | heq | hlt
  · exact absurd (Action.affects_of_taken? htaken) (hbetween' k y hik hlt hy)
  · exact heq
  · exact absurd (Action.affects_of_taken? htaken') (hbetween k' y' hik' hlt hy')

/-- What is taken has not expired. -/
theorem Yields.timely (h : Yields (actions p ops) i k) (hx : (actions p ops)[i]? = some x)
    (hy : (actions p ops)[k]? = some y) : y.now - x.now < p.timeout := by
  obtain ⟨x', y', id, client, hx', hy', -, htaken, -, -⟩ := h
  cases hx.symm.trans hx'
  cases hy.symm.trans hy'
  obtain ⟨-, -, hlate⟩ := Action.of_taken? htaken
  obtain ⟨earlier, -, hbefore⟩ := exists_row_of_getElem? hy
  unfold Expired at hlate
  rw [hbefore, (limits_after p earlier).1] at hlate
  exact Nat.not_le.mp hlate

end Yields

/-! ## The law -/

/-- The table `p` is a bounded map that holds the latest registrations of its history. -/
structure LatestRegistrations (timeout capacity : Nat) (past : List Action) (p : Pending) :
    Prop where
  bounded : p.size ≤ capacity
  unique : p.Unique
  /-- What waits is what the last action on the id registered. -/
  holds : ∀ id w, p.find? id = some w ↔
    ∃ x client, LastOn id past x ∧ x.Registers id client ∧ w = ⟨id, client, x.now⟩
  /-- Only a new id is refused, and only by a full table. -/
  refuses : ∀ now id client,
    (p.register now id client).answer = false ↔ p.find? id = none ∧ p.size = capacity
  /-- A refusal changes nothing. -/
  refused : ∀ now id client,
    (p.register now id client).answer = false → (p.register now id client).state = p
  /-- A take yields the client that was registered last, unless its time is over. -/
  yields : ∀ now id client, (p.take now id).answer.map Waiting.client = some client ↔
    ∃ x, LastOn id past x ∧ x.Registers id client ∧ now - x.now < timeout
  /-- With a lifetime of zero nothing is ever yielded, and with one that nothing has reached the
  time makes no difference. -/
  yields_of_extreme : ∀ now, timeout = 0 ∨ (∀ x ∈ past, now - x.now < timeout) →
    ∀ id client, (p.take now id).answer.map Waiting.client = some client ↔
      timeout ≠ 0 ∧ ∃ x, LastOn id past x ∧ x.Registers id client
  /-- Whatever was taken had been registered. -/
  registered : ∀ k y w, past[k]? = some y → y.taken? = some w → ∃ i, Yields past i k
  /-- No registration was taken twice. -/
  once : ∀ i k k', Yields past i k → Yields past i k' → k = k'
  /-- No registration was taken after its time. -/
  timely : ∀ i k x y, Yields past i k → past[i]? = some x → past[k]? = some y →
    y.now - x.now < timeout
  /-- What has expired is not taken, and does not wait for another take either. -/
  expired : ∀ now id w, p.find? id = some w → p.Expired now w →
    (p.take now id).answer = none ∧ (p.take now id).state.find? id = none
  /-- A purge removes what has expired and nothing else. -/
  purged : ∀ now id w,
    (p.purge now).state.find? id = some w ↔ p.find? id = some w ∧ ¬p.Expired now w
  /-- A purge answers with the number of queries that it removed. -/
  counted : ∀ now, (p.purge now).answer = p.entries.countP fun w => p.Expired now w
  /-- Whatever else is done is done to one id. -/
  apart : ∀ now id other, other ≠ id →
    (∀ client, (p.register now id client).state.find? other = p.find? other) ∧
      (p.take now id).state.find? other = p.find? other ∧ (p.erase id).find? other = p.find? other

/-- Whatever is done to an empty table, it is then a bounded map of the latest registrations. -/
theorem holds_latest_registrations (timeout capacity : Nat) (ops : List (Nat × Operation)) :
    let empty : Pending := { timeout, capacity }
    LatestRegistrations timeout capacity (actions empty ops) (after empty ops) := by
  intro empty
  have hempty : empty.entries = [] := rfl
  have hsound : (after empty ops).Sound := (sound_of_isEmpty hempty).after ops
  obtain ⟨-, hcapacity⟩ : (after empty ops).timeout = timeout ∧ (after empty ops).capacity = capacity :=
    limits_after empty ops
  have hbounded : (after empty ops).size ≤ capacity := hcapacity ▸ hsound.bounded
  have hfull : ∀ id, ¬(after empty ops).Admits id ↔
      (after empty ops).find? id = none ∧ (after empty ops).size = capacity := by
    intro id
    rw [not_admits_iff, hcapacity, and_comm]
    exact and_congr_right' ⟨fun h => Nat.le_antisymm hbounded h, fun h => Nat.le_of_eq h.symm⟩
  exact {
    bounded := hbounded
    unique := hsound.unique
    holds := fun id w => find?_after_iff hempty ops
    refuses := fun now id client => register_answer_eq_false_iff.trans (hfull id)
    refused := by
      intro now id client h
      rw [register_of_full (register_answer_eq_false_iff.mp h)]
    yields := fun now id client => take_client_iff hempty ops
    yields_of_extreme := by
      intro now hextreme id client
      have hlt : ∀ x, LastOn id (actions empty ops) x → (now - x.now < timeout ↔ timeout ≠ 0) := by
        rintro x ⟨front, back, hsplit, -⟩
        rcases hextreme with hzero | htimely
        · omega
        · have := htimely x (hsplit ▸ List.mem_append_right _ List.mem_cons_self)
          omega
      rw [take_client_iff hempty ops]
      constructor
      · rintro ⟨x, hlast, hregisters, htime⟩
        exact ⟨(hlt x hlast).mp htime, x, hlast, hregisters⟩
      · rintro ⟨hlifetime, x, hlast, hregisters⟩
        exact ⟨x, hlast, hregisters, (hlt x hlast).mpr hlifetime⟩
    registered := fun k y w hy htaken => exists_yields hempty hy htaken
    once := fun i k k' h h' => h.unique h'
    timely := fun i k x y h hx hy => h.timely hx hy
    expired := by
      intro now id w hfind hlate
      rw [take_of_expired hfind hlate]
      exact ⟨rfl, by rw [find?_erase, if_pos rfl]⟩
    purged := fun now id w => hsound.unique.find?_purge now
    counted := purge_answer _
    apart := by
      intro now id other hne
      have hother : ∀ operation, ¬Action.Affects other ⟨operation, now, after empty ops⟩ →
          (Action.after ⟨operation, now, after empty ops⟩).find? other =
            (after empty ops).find? other :=
        fun operation => Action.find?_after_of_not_affects hsound.unique
      exact ⟨fun client => hother (.register id client) fun h => hne h.1.symm,
        hother (.take id) hne.symm, hother (.remove id) hne.symm⟩ }

end DnsResponder.Pending
