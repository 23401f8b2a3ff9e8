import DnsResponder.Event

/-!
# Queries that wait

While the resolver works on a query, all that is remembered of it is its id and the
client to which the reply is owed. The ids are chosen by the clients, so two clients
may choose the same one. Then the later query takes the place of the earlier, and the
earlier client gets nothing.

Time is given, in milliseconds, and never asked for. A query has expired once it has
waited as long as the timeout, and an expired query is never answered: it is gone
when its reply arrives or when the table is purged, whichever comes first.
-/

namespace DnsResponder

/-- A query that waits for its reply. -/
structure Waiting where
  id : UInt16
  client : Endpoint
  /-- When the query was handed on. -/
  since : Nat
deriving DecidableEq

/-- The queries that wait, at most one for each id. -/
structure Pending where
  /-- How long a query waits. -/
  timeout : Nat
  /-- How many queries may wait. -/
  capacity : Nat
  entries : List Waiting := []

namespace Pending

/-- The number of queries that wait. -/
def size (p : Pending) : Nat := p.entries.length

/-- Whether no query waits. -/
def isEmpty (p : Pending) : Bool := p.entries.isEmpty

/-- The query that waits under the given id. -/
def find? (p : Pending) (id : UInt16) : Option Waiting := p.entries.find? (·.id = id)

/-- The table without the given id. -/
def erase (p : Pending) (id : UInt16) : Pending :=
  { p with entries := p.entries.filter (·.id ≠ id) }

/-- The table with `w` as the query that waits under its id. -/
def insert (p : Pending) (w : Waiting) : Pending :=
  { p with entries := w :: (p.erase w.id).entries }

/-- Whether the query has waited as long as it may. -/
def Expired (p : Pending) (now : Nat) (w : Waiting) : Prop := p.timeout ≤ now - w.since

instance (p : Pending) (now : Nat) (w : Waiting) : Decidable (p.Expired now w) :=
  inferInstanceAs (Decidable (_ ≤ _))

/--
Notes that `client` waits for a reply to `id`. The answer is whether that was possible: a
full table takes no new id.
-/
def register (p : Pending) (now : Nat) (id : UInt16) (client : Endpoint) : Turn Pending Bool :=
  let previous := p.find? id
  if p.capacity ≤ p.size ∧ previous.isNone then ⟨false, p, []⟩
  else
    ⟨true, p.insert ⟨id, client, now⟩,
      match previous with
      | some w => if w.client ≠ client then [.idReused id w.client client] else []
      | none => []⟩

/-- Removes the query that waits under `id`, and answers with it unless it has expired. -/
def take (p : Pending) (now : Nat) (id : UInt16) : Turn Pending (Option Waiting) :=
  match p.find? id with
  | none => ⟨none, p, []⟩
  | some w =>
      if p.Expired now w then ⟨none, p.erase id, [.expired id w.client]⟩
      else ⟨some w, p.erase id, []⟩

/-- Removes every expired query, and answers with their number. -/
def purge (p : Pending) (now : Nat) : Turn Pending Nat :=
  let kept := p.entries.filter fun w => ¬p.Expired now w
  ⟨p.entries.length - kept.length, { p with entries := kept }, []⟩

/-- Purges the table, and reports it if there was something to remove. -/
def sweep (p : Pending) (now : Nat) : Turn Pending Unit :=
  let turn := p.purge now
  ⟨(), turn.state,
    if 0 < turn.answer then [.purged turn.answer turn.state.size] else []⟩

/-! ## What each change does to a look-up -/

theorem find?_erase (p : Pending) (id other : UInt16) :
    (p.erase id).find? other = if other = id then none else p.find? other := by
  unfold erase find?
  rw [List.find?_filter]
  split
  · rename_i h
    subst h
    rw [List.find?_eq_none]
    intro w _
    simp
  · rename_i h
    congr 1
    funext w
    by_cases hw : w.id = other
    · simp [hw, h]
    · simp [hw]

theorem find?_insert (p : Pending) (w : Waiting) (other : UInt16) :
    (p.insert w).find? other = if other = w.id then some w else p.find? other := by
  have he := find?_erase p w.id other
  unfold find? at he ⊢
  unfold insert
  rw [List.find?_cons]
  by_cases h : other = w.id
  · simp [h]
  · rw [if_neg h] at he ⊢
    simp only [Ne.symm h, decide_false]
    exact he

end Pending

end DnsResponder
