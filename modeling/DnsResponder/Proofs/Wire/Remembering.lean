import DnsResponder.Proofs.Wire.Writing
import Mathlib.Data.List.Induction
import Mathlib.Data.List.Nodup

/-!
# What a writer remembers

A writer can be used for more than messages. It is given one `Item` after the other, octets
as they are or a name, and each name comes with the choice whether it goes through the table.
Whatever stood in the datagram at the start, and whatever else is put between the names, each
name can be read back where it was put.

The table is told by the items alone. It answers for a name exactly if the name is not the
root and was put through the table before, and the first time was within the reach of a
pointer; the answer is where that was. A name first put beyond the reach of a pointer is never
remembered, since a datagram does not become shorter. Names that bypass the table leave no
mark on it.
-/

namespace DnsResponder

namespace NameTable

variable {t : NameTable} {n : Name} {target : Nat}

/-- No name has two entries. -/
def Distinct (t : NameTable) : Prop := (t.entries.map Prod.fst).Nodup

theorem find?_eq_none_iff : t.find? n = none ↔ n ∉ t.entries.map Prod.fst := by
  unfold find?
  rw [Option.map_eq_none_iff, List.find?_eq_none]
  constructor
  · intro h hmem
    obtain ⟨entry, hentry, rfl⟩ := List.mem_map.mp hmem
    simpa using h entry hentry
  · intro h entry hentry hname
    exact h (List.mem_map.mpr ⟨entry, hentry, by simpa using hname⟩)

/-- A name that is found is not remembered again. -/
theorem remember_of_find? (h : t.find? n = some target) (offset : Nat) : t.remember n offset = t := by
  unfold NameTable.remember
  rw [if_neg]
  simp [h]

theorem Distinct.remember (h : t.Distinct) (n : Name) (offset : Nat) :
    (t.remember n offset).Distinct := by
  unfold NameTable.remember
  split
  · rename_i hnew
    have hnone : t.find? n = none := by simpa using hnew.2
    exact List.nodup_cons.mpr ⟨find?_eq_none_iff.mp hnone, h⟩
  · exact h

/-- In a table without double entries, an entry is what is found. -/
theorem Distinct.mem_entries_iff (h : t.Distinct) :
    (n, target) ∈ t.entries ↔ t.find? n = some target := by
  constructor
  · intro hmem
    cases hfind : t.find? n with
    | none => exact absurd (List.mem_map_of_mem hmem) (find?_eq_none_iff.mp hfind)
    | some other =>
        -- the entry that was found has the same name, and so it is the same entry
        obtain ⟨⟨n', target'⟩, hfound, rfl⟩ := Option.map_eq_some_iff.mp hfind
        obtain rfl : n' = n := by simpa using List.find?_some hfound
        have heq := List.inj_on_of_nodup_map h (List.mem_of_find?_eq_some hfound) hmem rfl
        rw [(Prod.mk.inj heq).2]
  · intro hfind
    obtain ⟨⟨n', target'⟩, hfound, rfl⟩ := Option.map_eq_some_iff.mp hfind
    obtain rfl : n' = n := by simpa using List.find?_some hfound
    exact List.mem_of_find?_eq_some hfound

end NameTable

namespace Writer

/-- Something to be appended. -/
inductive Item where
  /-- Octets as they are. -/
  | octets (os : List UInt8)
  /-- A name, which goes through the table if `compress` is set. -/
  | name (compress : Bool) (n : Name)
deriving DecidableEq

/-- The item with no name replaced by a pointer. -/
def Item.full : Item → List UInt8
  | .octets os => os
  | .name _ n => n.wire

/-- The item as it is written where a pointer to `target?`, if there is one, takes its place. -/
def Item.written (item : Item) : (target? : Option Nat) → List UInt8
  | none => item.full
  | some target => pointer target

/-- Appends one item. -/
def put (w : Writer) : Item → Writer
  | .octets os => w.octets os
  | .name compress n => w.name compress n

/-- Appends one item after the other. -/
def putAll (w : Writer) (items : List Item) : Writer := items.foldl put w

variable {w : Writer} {item : Item} {items : List Item} {n : Name} {target : Nat}

@[simp] theorem putAll_nil (w : Writer) : w.putAll [] = w := rfl

@[simp] theorem putAll_cons (w : Writer) (item : Item) (items : List Item) :
    w.putAll (item :: items) = (w.put item).putAll items := rfl

@[simp] theorem putAll_append (w : Writer) (items more : List Item) :
    w.putAll (items ++ more) = (w.putAll items).putAll more := List.foldl_append

/-! ## One item -/

/-- Where the pointer leads that takes the item's place. -/
def target? (w : Writer) : Item → Option Nat
  | .name true n => if n.isRoot then none else w.table.find? n
  | _ => none

theorem target?_eq_some_iff :
    w.target? item = some target ↔
      ∃ n, item = .name true n ∧ n.isRoot = false ∧ w.table.find? n = some target := by
  cases item with
  | octets os => simp [target?]
  | name compress n =>
      cases compress with
      | false => simp [target?]
      | true => simp [target?, ite_eq_iff]

/-- All that an item does: it is written behind the datagram, and a name may be remembered there. -/
theorem put_eq (w : Writer) (item : Item) :
    (w.put item).bytes = w.bytes ++ (item.written (w.target? item)).toArray ∧
      (w.put item).table =
        match item with
        | .name true n => if n.isRoot then w.table else w.table.remember n w.bytes.size
        | _ => w.table := by
  cases item with
  | octets os => exact ⟨bytes_octets w os, rfl⟩
  | name compress n =>
      cases compress with
      | false => exact ⟨bytes_octets w n.wire, rfl⟩
      | true =>
          by_cases hroot : n.isRoot
          · have hput : w.put (.name true n) = w.octets n.wire := by simp [put, Writer.name, hroot]
            have hnone : w.target? (.name true n) = none := if_pos hroot
            rw [hput, hnone]
            exact ⟨bytes_octets w n.wire, (if_pos hroot).symm⟩
          · have hput : w.put (.name true n) = w.repeatable n := by simp [put, Writer.name, hroot]
            have hfind : w.target? (.name true n) = w.table.find? n := if_neg hroot
            rw [hput, hfind, repeatable]
            dsimp only
            rw [if_neg hroot]
            cases hsome : w.table.find? n with
            | none => exact ⟨bytes_octets _ n.wire, rfl⟩
            | some target =>
                exact ⟨bytes_octets w _, (NameTable.remember_of_find? hsome w.bytes.size).symm⟩

theorem bytes_put (w : Writer) (item : Item) :
    (w.put item).bytes = w.bytes ++ (item.written (w.target? item)).toArray := (put_eq w item).1

/-- The table after one item: a name that goes through it is remembered if that is possible. -/
theorem find?_put (w : Writer) (item : Item) (n : Name) :
    (w.put item).table.find? n =
      if item = .name true n ∧ n.isRoot = false ∧ w.bytes.size ≤ maxPointerTarget ∧
          w.table.find? n = none then some w.bytes.size
      else w.table.find? n := by
  rw [(put_eq w item).2]
  split
  · rename_i other
    split
    · rename_i hroot
      rw [if_neg]
      rintro ⟨hitem, hother, -⟩
      cases hitem
      rw [hroot] at hother
      cases hother
    · rename_i hroot
      rw [NameTable.find?_remember]
      congr 1
      refine propext ⟨?_, ?_⟩
      · rintro ⟨rfl, hle, hnone⟩
        exact ⟨rfl, by simpa using hroot, hle, hnone⟩
      · rintro ⟨hitem, -, hle, hnone⟩
        cases hitem
        exact ⟨rfl, hle, hnone⟩
  · rename_i hother
    rw [if_neg]
    rintro ⟨hitem, -⟩
    exact hother n hitem

theorem distinct_put (h : w.table.Distinct) (item : Item) : (w.put item).table.Distinct := by
  rw [(put_eq w item).2]
  split
  · split
    · exact h
    · exact h.remember _ w.bytes.size
  · exact h

/-! ## Many items -/

theorem distinct_putAll (h : w.table.Distinct) (items : List Item) :
    (w.putAll items).table.Distinct := by
  induction items generalizing w with
  | nil => exact h
  | cons item items ih => exact ih (distinct_put h item)

/-- What is put later stands behind what was put before. -/
theorem exists_bytes_putAll (w : Writer) (items : List Item) :
    ∃ more, (w.putAll items).bytes = w.bytes ++ more := by
  induction items generalizing w with
  | nil => exact ⟨#[], by simp⟩
  | cons item items ih =>
      obtain ⟨more, hmore⟩ := ih (w.put item)
      exact ⟨_, by rw [putAll_cons, hmore, bytes_put, Array.append_assoc]⟩

/-- A datagram does not become shorter. -/
theorem size_bytes_le_putAll (w : Writer) (items : List Item) :
    w.bytes.size ≤ (w.putAll items).bytes.size := by
  obtain ⟨more, hmore⟩ := exists_bytes_putAll w items
  rw [hmore, Array.size_append]
  exact Nat.le_add_right _ _

/-- The name `n` goes through the table for the first time where the datagram has `target` octets. -/
def FirstAt (w : Writer) (items : List Item) (n : Name) (target : Nat) : Prop :=
  ∃ before after, items = before ++ .name true n :: after ∧ .name true n ∉ before ∧
    (w.putAll before).bytes.size = target

theorem FirstAt.le_size (h : w.FirstAt items n target) : target ≤ (w.putAll items).bytes.size := by
  obtain ⟨before, after, rfl, -, rfl⟩ := h
  rw [putAll_append]
  exact size_bytes_le_putAll _ _

/-- A name that goes through the table at all goes through it a first time. -/
theorem exists_firstAt_iff : (∃ target, w.FirstAt items n target) ↔ .name true n ∈ items := by
  constructor
  · rintro ⟨-, before, after, rfl, -, -⟩
    simp
  · intro hmem
    obtain ⟨before, after, hitems, hnew⟩ := List.eq_append_cons_of_mem hmem
    exact ⟨_, before, after, hitems, hnew, rfl⟩

/-- With one item more, a first time stays what it was, or it is the last item's. -/
theorem firstAt_concat_iff :
    w.FirstAt (items ++ [item]) n target ↔
      w.FirstAt items n target ∨
        item = .name true n ∧ .name true n ∉ items ∧ (w.putAll items).bytes.size = target := by
  constructor
  · rintro ⟨before, after, hitems, hnew, hsize⟩
    rcases List.eq_nil_or_concat after with rfl | ⟨after, last, rfl⟩
    · obtain ⟨rfl, hlast⟩ := List.append_inj' hitems rfl
      cases hlast
      exact .inr ⟨rfl, hnew, hsize⟩
    · rw [List.concat_eq_append, ← List.cons_append, ← List.append_assoc] at hitems
      obtain ⟨rfl, -⟩ := List.append_inj' hitems rfl
      exact .inl ⟨before, after, rfl, hnew, hsize⟩
  · rintro (⟨before, after, rfl, hnew, hsize⟩ | ⟨rfl, hnew, hsize⟩)
    · exact ⟨before, after ++ [item], by simp, hnew, hsize⟩
    · exact ⟨items, [], rfl, hnew, hsize⟩

/-- A table that starts empty finds a name exactly where it was first put, if a pointer can lead there. -/
theorem find?_putAll_iff (buf : Bytes) (items : List Item) (n : Name) (target : Nat) :
    (putAll ⟨buf, {}⟩ items).table.find? n = some target ↔
      n.isRoot = false ∧ target ≤ maxPointerTarget ∧ FirstAt ⟨buf, {}⟩ items n target := by
  induction items using List.reverseRecOn generalizing target with
  | nil =>
      constructor
      · intro h
        cases h
      · rintro ⟨-, -, before, after, hitems, -⟩
        simp at hitems
  | append_singleton items item ih =>
      rw [putAll_append, putAll_cons, putAll_nil, find?_put, firstAt_concat_iff]
      split
      · -- the last item is remembered, so the name was not within reach before
        rename_i hnew
        obtain ⟨rfl, hroot, hle, hnone⟩ := hnew
        have hfirst : ∀ t, FirstAt ⟨buf, {}⟩ items n t → ¬t ≤ maxPointerTarget := by
          intro t ht hreach
          have hfind := (ih t).mpr ⟨hroot, hreach, ht⟩
          rw [hnone] at hfind
          cases hfind
        have hfresh : .name true n ∉ items := by
          intro hmem
          -- the place where it was put earlier would be no further than this one
          obtain ⟨t, ht⟩ := exists_firstAt_iff.mpr hmem
          exact hfirst t ht (Nat.le_trans ht.le_size hle)
        constructor
        · intro h
          cases h
          exact ⟨hroot, hle, .inr ⟨rfl, hfresh, rfl⟩⟩
        · rintro ⟨-, hreach, ht | ⟨-, -, rfl⟩⟩
          · exact absurd hreach (hfirst target ht)
          · rfl
      · -- the table is as it was, and so is every first time within reach
        rename_i hold
        rw [ih]
        constructor
        · rintro ⟨hroot, hle, ht⟩
          exact ⟨hroot, hle, .inl ht⟩
        · rintro ⟨hroot, hle, ht | ⟨rfl, hfresh, rfl⟩⟩
          · exact ⟨hroot, hle, ht⟩
          · -- a first time within reach would have been remembered
            refine absurd ⟨rfl, hroot, hle, ?_⟩ hold
            cases hfind : (putAll ⟨buf, {}⟩ items).table.find? n with
            | none => rfl
            | some t => exact absurd (exists_firstAt_iff.mp ⟨t, ((ih t).mp hfind).2.2⟩) hfresh

/-! ## Reading back -/

theorem Sound.put (h : w.Sound) (item : Item) : (w.put item).Sound := by
  cases item with
  | octets os => exact h.octets os
  | name compress n => exact (Writes.name h compress n).sound

theorem Sound.putAll (h : w.Sound) (items : List Item) : (w.putAll items).Sound := by
  induction items generalizing w with
  | nil => exact h
  | cons item items ih => exact ih (h.put item)

/--
Whatever a datagram holds and whatever else is put into it, each name is read back where it was
put, and the reader ends where the writer was then. The table ends with one entry for each name
other than the root that went through it, and first did so within the reach of a pointer.
-/
theorem name_survives (buf : Bytes) (items : List Item) :
    (∀ before compress n after, items = before ++ .name compress n :: after →
        Reader.name (putAll ⟨buf, {}⟩ items).bytes (putAll ⟨buf, {}⟩ before).bytes.size =
          .ok (n, (putAll ⟨buf, {}⟩ (before ++ [.name compress n])).bytes.size)) ∧
      (putAll ⟨buf, {}⟩ items).table.Distinct ∧
      ∀ n target, (n, target) ∈ (putAll ⟨buf, {}⟩ items).table.entries ↔
        n.isRoot = false ∧ target ≤ maxPointerTarget ∧ FirstAt ⟨buf, {}⟩ items n target := by
  have hdistinct : (putAll ⟨buf, {}⟩ items).table.Distinct :=
    distinct_putAll (w := ⟨buf, {}⟩) List.nodup_nil items
  refine ⟨?_, hdistinct, ?_⟩
  · rintro before compress n after rfl
    have hbefore := (sound_of_empty buf).putAll before
    have hwrites := Writes.name hbefore compress n
    -- all that is put behind the name is more that follows it
    obtain ⟨more, hmore⟩ := exists_bytes_putAll ((putAll ⟨buf, {}⟩ before).name compress n) after
    rw [putAll_append, putAll_append, putAll_cons, putAll_cons, putAll_nil]
    show Reader.name (putAll (Writer.name _ compress n) after).bytes _ = _
    rw [hmore]
    exact hwrites.reads more
  · intro n target
    rw [hdistinct.mem_entries_iff, find?_putAll_iff]

end Writer

end DnsResponder
