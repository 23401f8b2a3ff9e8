import DnsResponder.Proofs.Wire.Tearing
import DnsResponder.Wire.Decode
import DnsResponder.Wire.Encode

/-!
# What is written is read

A writer is *sound* when each name in its table stands in full where the table says,
within the reach of a pointer. That is all the table is ever used for: a pointer is
written only to such a place, so it reads back as the name it was written for.

`Writes r a w w'` says that the writer went from `w` to `w'` by appending octets which
the reader `r` reads back as `a`, whatever is appended later, and that it is sound again.
It also says that `r` needs all of these octets: if the end of them is torn off, `r` misses it.
Two such moves in a row are a move for the two readers in a row, and so the writer of
a whole message is taken apart along the reader of a whole message. Nothing is ever
said about how long a message is: past the reach of a pointer names are no longer
remembered, and a table that stays as it is stays sound.
-/

namespace DnsResponder

namespace Writer

@[simp] theorem bytes_octets (w : Writer) (os : List UInt8) :
    (w.octets os).bytes = w.bytes ++ os.toArray := by
  apply Array.ext'
  rw [octets, Array.toList_appendList, Array.toList_append]

@[simp] theorem size_bytes_octets (w : Writer) (os : List UInt8) :
    (w.octets os).bytes.size = w.bytes.size + os.length := by
  rw [← Array.length_toList, bytes_octets, Array.toList_append, List.length_append,
    Array.length_toList]

/-- What a writer appends stands where the writer was. -/
theorem stands_octets (w : Writer) (os : List UInt8) : Stands os (w.octets os).bytes w.bytes.size := by
  have hstands := Stands.written w.bytes os #[]
  rwa [Array.append_empty] at hstands

/-- Data is appended as the octets that it consists of. -/
theorem data_eq_octets (w : Writer) (bs : Bytes) : w.data bs = w.octets bs.toList := by
  have hbytes : (w.data bs).bytes = (w.octets bs.toList).bytes := by
    rw [bytes_octets, data]
  exact congrArg (Writer.mk · w.table) hbytes

/-- Each remembered name stands in full where it is remembered, and a pointer can lead there. -/
def Sound (w : Writer) : Prop :=
  ∀ (n : Name) (target : Nat), w.table.find? n = some target →
    target ≤ maxPointerTarget ∧ Stands n.wire w.bytes target

/-- A writer that remembers nothing is sound, whatever stands in its datagram. -/
theorem sound_of_empty (buf : Bytes) : Sound ⟨buf, {}⟩ := by
  intro n target h
  rw [NameTable.find?_empty] at h
  cases h

/-- Octets appended leave the table sound. -/
theorem Sound.octets {w : Writer} (h : w.Sound) (os : List UInt8) : (w.octets os).Sound := by
  intro n target hfind
  obtain ⟨hle, hstands⟩ := h n target hfind
  rw [bytes_octets]
  exact ⟨hle, hstands.append_right os.toArray⟩

/-- A move from `w` to `w'` that appends what `r` reads back as `a`. -/
structure Writes {α : Type} (r : Reader α) (a : α) (w w' : Writer) : Prop where
  /-- What was written before is still in front. -/
  grows : ∃ more : Bytes, w'.bytes = w.bytes ++ more
  /-- The table can be relied on. -/
  sound : w'.Sound
  /-- The reader finds the value where the writer was, and ends where the writer is. -/
  reads : ∀ more : Bytes, r (w'.bytes ++ more) w.bytes.size = .ok (a, w'.bytes.size)
  /-- The reader misses whatever is torn off what was appended. -/
  torn : ∀ part more : Bytes, w'.bytes = part ++ more → w.bytes.size ≤ part.size →
    part.size < w'.bytes.size → Reader.RunsOut r part w.bytes.size

variable {α β : Type} {w w₁ w₂ : Writer}

namespace Writes

theorem pure (h : w.Sound) (a : α) : Writes (Pure.pure a : Reader α) a w w where
  grows := ⟨#[], by simp⟩
  sound := h
  reads _ := Reader.pure_apply a _ _
  torn _ _ _ hfrom hto := absurd hto (Nat.not_lt.mpr hfrom)

/-- Two moves in a row are read by two readers in a row. -/
theorem bind {r : Reader α} {a : α} {f : α → Reader β} {b : β} (h : Writes r a w w₁)
    (k : w₁.Sound → Writes (f a) b w₁ w₂) : Writes (r >>= f) b w w₂ := by
  obtain ⟨more₁, h₁⟩ := h.grows
  obtain ⟨more₂, h₂⟩ := (k h.sound).grows
  refine ⟨⟨more₁ ++ more₂, ?_⟩, (k h.sound).sound, ?_, ?_⟩
  · rw [h₂, h₁, Array.append_assoc]
  · -- for the first reader, the second move is part of what is appended later
    intro more
    rw [Reader.bind_eq_ok_iff]
    refine ⟨a, w₁.bytes.size, ?_, (k h.sound).reads more⟩
    have hr := h.reads (more₂ ++ more)
    rwa [← Array.append_assoc, ← h₂] at hr
  · intro part more heq hfrom hto
    have hsplit := h₂.symm.trans heq
    rcases Array.append_eq_append_iff.mp hsplit with ⟨behind, rfl, rfl⟩ | ⟨lost, hlost, rfl⟩
    · -- what the first reader needs is all there
      exact .bind_right (h.reads behind) ((k h.sound).torn _ more heq (by simp) hto)
    · rcases Nat.lt_or_ge part.size w₁.bytes.size with htorn | hwhole
      · exact .bind_left (h.torn part lost hlost hfrom htorn)
      · -- the end is torn off right between the two
        obtain rfl : lost = #[] := by
          rw [hlost, Array.size_append] at hwhole
          exact Array.size_eq_zero_iff.mp (by omega)
        rw [Array.append_empty] at hlost
        subst hlost
        have hread := h.reads #[]
        rw [Array.append_empty] at hread
        exact .bind_right hread ((k h.sound).torn _ _ heq (Nat.le_refl _) hto)

/--
Appending octets is a move for every reader that makes `a` of them where they stand, and that
misses what is torn off them.
-/
theorem of_octets {r : Reader α} {a : α} {os : List UInt8} (h : w.Sound)
    (hr : ∀ buf, Stands os buf w.bytes.size →
      r buf w.bytes.size = .ok (a, w.bytes.size + os.length))
    (ht : ∀ part more : Bytes, Stands os (part ++ more) w.bytes.size →
      part.size < w.bytes.size + os.length → Reader.RunsOut r part w.bytes.size) :
    Writes r a w (w.octets os) := by
  refine ⟨⟨os.toArray, bytes_octets w os⟩, h.octets os, ?_, ?_⟩
  · intro more
    rw [size_bytes_octets]
    exact hr _ (Stands.written w.bytes os more)
  · intro part more heq _ hto
    rw [size_bytes_octets] at hto
    refine ht part more ?_ hto
    rw [← heq]
    exact stands_octets w os

theorem u16 (h : w.Sound) (n : UInt16) : Writes Reader.u16 n w (w.u16 n) :=
  of_octets h (fun _ hs => Reader.u16_of_stands hs) fun _ _ _ hcut =>
    .u16 (by rwa [length_bigEndian] at hcut)

theorem u32 (h : w.Sound) (n : UInt32) : Writes Reader.u32 n w (w.u32 n) :=
  of_octets h (fun _ hs => Reader.u32_of_stands hs) fun _ _ _ hcut =>
    .u32 (by rwa [length_bigEndian] at hcut)

/-- Data reads back where the reader knows how long it is. -/
theorem data (h : w.Sound) (bs : Bytes) : Writes (Reader.bytes bs.size) bs w (w.data bs) := by
  rw [data_eq_octets]
  refine of_octets h (fun buf hs => ?_) fun part more _ hcut => ?_
  · have hread := Reader.bytes_of_stands hs
    rwa [Array.length_toList, Array.toArray_toList] at hread
  · rw [Array.length_toList] at hcut
    exact .bytes hcut

/-- A name written in full at the end, and remembered there if a pointer can lead there. -/
theorem fullName (h : w.Sound) (n : Name) : Writes Reader.name n w (w.octets n.wire) :=
  of_octets h (fun _ hs => by rw [Reader.name_of_stands hs, Name.length_wire])
    fun _ _ hs hcut => .name hs (by rwa [Name.length_wire] at hcut)

theorem repeatable (h : w.Sound) (n : Name) : Writes Reader.name n w (w.repeatable n) := by
  unfold Writer.repeatable
  split
  · -- the pointer leads to where the table says that the name stands
    rename_i target hfind
    obtain ⟨hle, hfull⟩ := h n target hfind
    refine ⟨⟨(pointer target).toArray, bytes_octets w _⟩, h.octets _, ?_, ?_⟩
    · intro more
      have hstands : Stands (pointer target) ((w.octets (pointer target)).bytes ++ more)
          w.bytes.size := Stands.written w.bytes (pointer target) more
      have hkept : Stands n.wire ((w.octets (pointer target)).bytes ++ more) target := by
        rw [bytes_octets, Array.append_assoc]
        exact hfull.append_right _
      rw [Reader.name_of_pointer hstands hle hkept, size_bytes_octets, pointer, length_bigEndian]
    · intro part more heq _ hto
      have hstands := stands_octets w (pointer target)
      rw [heq] at hstands
      rw [size_bytes_octets, pointer, length_bigEndian] at hto
      exact .pointer hstands hle hto
  · rename_i hnone
    have hwrites := fullName h n
    refine ⟨hwrites.grows, ?_, hwrites.reads, hwrites.torn⟩
    -- only the name just written is new in the table
    intro other target hfind
    have hfind' : (w.table.remember n w.bytes.size).find? other = some target := hfind
    rw [NameTable.find?_remember] at hfind'
    split at hfind'
    · rename_i hnew
      obtain ⟨rfl, hle, -⟩ := hnew
      cases hfind'
      exact ⟨hle, stands_octets w other.wire⟩
    · exact hwrites.sound other target hfind'

/-- However a name is written, it reads back as that name. -/
theorem name (h : w.Sound) (compress : Bool) (n : Name) :
    Writes Reader.name n w (w.name compress n) := by
  unfold Writer.name
  split
  · exact repeatable h n
  · exact fullName h n

/-- Values written one after the other are read one after the other. -/
theorem times {r : Reader α} {write : Writer → α → Writer} (as : List α)
    (hwrite : ∀ a ∈ as, ∀ w : Writer, w.Sound → Writes r a w (write w a)) :
    ∀ {w : Writer}, w.Sound → Writes (Reader.times r as.length) as w (as.foldl write w) := by
  induction as with
  | nil =>
      intro w h
      exact pure h []
  | cons a as ih =>
      intro w h
      rw [List.length_cons, Reader.times_succ]
      refine bind (hwrite a (by simp) w h) fun h₁ => ?_
      refine bind (ih (fun a' ha' => hwrite a' (by simp [ha'])) h₁) fun h₂ => ?_
      exact pure h₂ (a :: as)

theorem question (h : w.Sound) (compress : Bool) (q : Question) :
    Writes Reader.question q w (w.question compress q) :=
  bind (name h compress q.name) fun h => bind (u16 h q.type) fun h =>
    bind (u16 h q.class_) fun h => pure h q

/-- A record that declares the length of its data reads back as it is. -/
theorem record (h : w.Sound) (compress : Bool) {r : Record} (hr : r.Honest) :
    Writes Reader.record r w (w.record compress r) := by
  refine bind (name h compress r.name) fun h => bind (u16 h r.type) fun h =>
    bind (u16 h r.class_) fun h => bind (u32 h r.ttl) fun h => bind (u16 h r.declared) fun h => ?_
  have hdata := data h r.data
  rw [← show r.declared.toNat = r.data.size from hr] at hdata
  exact bind hdata fun h => pure h r

end Writes

end Writer

end DnsResponder
