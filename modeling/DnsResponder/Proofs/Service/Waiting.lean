import DnsResponder.Pending
import Mathlib.Data.List.Nodup

/-!
# The table of queries that wait

The table is a list, and what makes it a table is that no id stands in it twice. That is
kept by every change, and so is the bound on its size: a new id is taken in only while
there is room, and an id that waits already takes the place of its predecessor.

Expired queries are the one thing that makes the table depend on the time. As long as
none has expired, a purge leaves the table as it is, and what is taken is what waits.
-/

namespace DnsResponder.Pending

variable {p : Pending} {w : Waiting} {id : UInt16} {now : Nat}

/-- No id waits twice. -/
def Unique (p : Pending) : Prop := (p.entries.map (·.id)).Nodup

/-- No query that waits has expired. -/
def Prompt (p : Pending) (now : Nat) : Prop := ∀ w ∈ p.entries, ¬p.Expired now w

theorem of_find? (h : p.find? id = some w) : w ∈ p.entries ∧ w.id = id :=
  ⟨List.mem_of_find?_eq_some h, by simpa using List.find?_some h⟩

theorem id_ne_of_find?_eq_none (h : p.find? id = none) : ∀ w ∈ p.entries, w.id ≠ id := by
  intro w hw
  simpa using List.find?_eq_none.mp h w hw

/-- In a table without repeated ids, the query that is found is the only one under its id. -/
theorem Unique.eq_of_find? (hu : p.Unique) (h : p.find? id = some w) {v : Waiting}
    (hv : v ∈ p.entries) (hid : v.id = id) : v = w := by
  obtain ⟨hw, hwid⟩ := of_find? h
  exact List.inj_on_of_nodup_map hu hv hw (hid.trans hwid.symm)

theorem Unique.find?_of_mem (hu : p.Unique) (hw : w ∈ p.entries) : p.find? w.id = some w := by
  cases h : p.find? w.id with
  | none => exact absurd rfl (id_ne_of_find?_eq_none h w hw)
  | some v => rw [hu.eq_of_find? h hw rfl]

/-- What is left of a table without repeated ids has none either. -/
theorem Unique.filter (hu : p.Unique) (keep : Waiting → Bool) :
    Unique { p with entries := p.entries.filter keep } :=
  hu.sublist (List.filter_sublist.map _)

theorem Unique.erase (hu : p.Unique) (id : UInt16) : (p.erase id).Unique := hu.filter _

theorem Unique.insert (hu : p.Unique) (w : Waiting) : (p.insert w).Unique := by
  unfold Unique Pending.insert
  dsimp only
  rw [List.map_cons, List.nodup_cons]
  refine ⟨?_, hu.erase w.id⟩
  intro hmem
  obtain ⟨v, hv, hid⟩ := List.mem_map.mp hmem
  obtain ⟨-, hne⟩ := List.mem_filter.mp hv
  simp [hid] at hne

theorem erase_of_find?_eq_none (h : p.find? id = none) : p.erase id = p := by
  have hall : p.entries.filter (·.id ≠ id) = p.entries := by
    rw [List.filter_eq_self]
    intro w hw
    simpa using id_ne_of_find?_eq_none h w hw
  unfold erase
  rw [hall]

/-- Only one query goes when an id is removed. -/
theorem Unique.size_erase (hu : p.Unique) (h : p.find? id = some w) :
    (p.erase id).size + 1 = p.size := by
  obtain ⟨hw, hid⟩ := of_find? h
  have hgone : (p.entries.filter (·.id = id)).length = 1 := by
    have hmap : (p.entries.map (·.id)).count id = 1 :=
      List.count_eq_one_of_mem hu (List.mem_map.mpr ⟨w, hw, hid⟩)
    rw [List.count, List.countP_map, List.countP_eq_length_filter] at hmap
    rw [← hmap]
    congr 2
  have hsplit := List.length_eq_length_filter_add (l := p.entries) (fun v => decide (v.id = id))
  have hrest : (p.entries.filter fun v => !decide (v.id = id)) = (p.erase id).entries := by
    unfold Pending.erase
    dsimp only
    congr 1
    funext v
    simp
  rw [hgone, hrest] at hsplit
  unfold size
  omega

theorem size_insert (p : Pending) (w : Waiting) : (p.insert w).size = (p.erase w.id).size + 1 := rfl

/-- A query under a new id makes the table longer. -/
theorem size_insert_of_find?_eq_none (h : p.find? w.id = none) : (p.insert w).size = p.size + 1 := by
  rw [size_insert, erase_of_find?_eq_none h]

/-- A query under an id that waits takes the place of the earlier one. -/
theorem Unique.size_insert_of_find?_eq_some {v : Waiting} (hu : p.Unique)
    (h : p.find? w.id = some v) : (p.insert w).size = p.size := by
  rw [size_insert, hu.size_erase h]

/-! ## Room -/

/-- The table takes the id in: there is room, or a query that waits under it makes way. -/
def Admits (p : Pending) (id : UInt16) : Prop := p.size < p.capacity ∨ (p.find? id).isSome

instance (p : Pending) (id : UInt16) : Decidable (p.Admits id) :=
  inferInstanceAs (Decidable (_ ∨ _))

theorem not_admits_iff : ¬p.Admits id ↔ p.capacity ≤ p.size ∧ p.find? id = none := by
  unfold Admits
  rw [not_or, Nat.not_lt, Option.not_isSome_iff_eq_none]

/-- The table is one: no id waits twice, and no more queries wait than may. -/
structure Sound (p : Pending) : Prop where
  unique : p.Unique
  bounded : p.size ≤ p.capacity

theorem sound_of_isEmpty (h : p.entries = []) : p.Sound where
  unique := by
    unfold Unique
    rw [h]
    exact List.nodup_nil
  bounded := by
    unfold size
    rw [h]
    exact Nat.zero_le _

theorem Sound.filter (h : p.Sound) (keep : Waiting → Bool) :
    Sound { p with entries := p.entries.filter keep } where
  unique := h.unique.filter keep
  bounded := Nat.le_trans (List.length_filter_le _ _) h.bounded

theorem Sound.erase (h : p.Sound) (id : UInt16) : (p.erase id).Sound := h.filter _

/-- The bound is kept where a query is taken in only while there is room or its id waits. -/
theorem Sound.insert (h : p.Sound) (hroom : p.Admits w.id) : (p.insert w).Sound where
  unique := h.unique.insert w
  bounded := by
    show (p.insert w).size ≤ p.capacity
    cases hfind : p.find? w.id with
    | none =>
        rw [size_insert_of_find?_eq_none hfind]
        rcases hroom with hlt | hsome
        · exact hlt
        · rw [hfind] at hsome
          cases hsome
    | some v =>
        rw [h.unique.size_insert_of_find?_eq_some hfind]
        exact h.bounded

theorem register_of_full (h : ¬p.Admits id) (now : Nat) (client : Endpoint) :
    p.register now id client = ⟨false, p, []⟩ := by
  obtain ⟨hfull, hfind⟩ := not_admits_iff.mp h
  unfold register
  dsimp only
  rw [if_pos ⟨hfull, Option.isNone_iff_eq_none.mpr hfind⟩]

theorem register_of_room (h : p.Admits id) (now : Nat) (client : Endpoint) :
    (p.register now id client).answer = true ∧
      (p.register now id client).state = p.insert ⟨id, client, now⟩ := by
  have hnot : ¬(p.capacity ≤ p.size ∧ (p.find? id).isNone) := by
    rintro ⟨hfull, hnone⟩
    exact not_admits_iff.mpr ⟨hfull, Option.isNone_iff_eq_none.mp hnone⟩ h
  unfold register
  dsimp only
  rw [if_neg hnot]
  exact ⟨rfl, rfl⟩

/-! ## Time -/

theorem take_of_find?_eq_none (h : p.find? id = none) (now : Nat) :
    p.take now id = ⟨none, p, []⟩ := by
  unfold take
  rw [h]

theorem take_of_expired (h : p.find? id = some w) (hlate : p.Expired now w) :
    p.take now id = ⟨none, p.erase id, [.expired id w.client]⟩ := by
  unfold take
  rw [h]
  dsimp only
  rw [if_pos hlate]

theorem take_of_not_expired (h : p.find? id = some w) (hlate : ¬p.Expired now w) :
    p.take now id = ⟨some w, p.erase id, []⟩ := by
  unfold take
  rw [h]
  dsimp only
  rw [if_neg hlate]

theorem sound_purge (h : p.Sound) (now : Nat) : (p.purge now).state.Sound := h.filter _

/-- A purge changes nothing while no query has expired. -/
theorem Prompt.purge (h : p.Prompt now) : (p.purge now).state = p := by
  have hall : p.entries.filter (fun w => ¬p.Expired now w) = p.entries := by
    rw [List.filter_eq_self]
    intro w hw
    simpa using h w hw
  unfold Pending.purge
  dsimp only
  rw [hall]

/-- What waits after a purge waited before. -/
theorem Unique.find?_of_find?_purge (hu : p.Unique) (h : (p.purge now).state.find? id = some w) :
    p.find? id = some w := by
  obtain ⟨hw, rfl⟩ := of_find? h
  exact hu.find?_of_mem (List.mem_filter.mp hw).1

end DnsResponder.Pending
