import DnsResponder.Name.Basic

/-!
# Writing a datagram

A writer is the datagram so far together with a table of names: where in it each
name was first written. A name that is written again may be replaced by a pointer
to that place. Only whole names are replaced. A name that merely ends like an
earlier one is written out, so every pointer leads to a name that stands there in
full and never to another pointer.

A pointer has fourteen bits for its target. A name first written beyond their reach
is not remembered, and the root is never worth a pointer, being a single octet.
-/

namespace DnsResponder

/-- The largest offset that a pointer can lead to. -/
def maxPointerTarget : Nat := 16383

/-- The `count` low octets of `n`, the highest first. -/
def bigEndian : (count n : Nat) → List UInt8
  | 0, _ => []
  | count + 1, n => bigEndian count (n / 256) ++ [UInt8.ofNat n]

@[simp] theorem length_bigEndian (count n : Nat) : (bigEndian count n).length = count := by
  induction count generalizing n with
  | zero => rfl
  | succ count ih => rw [bigEndian, List.length_append, ih, List.length_singleton]

/-- A label on the wire: its length, then its octets. -/
def Label.wire (l : Label) : List UInt8 := UInt8.ofNat l.length :: l.octets

/-- A name on the wire, written in full. -/
def Name.wire (n : Name) : List UInt8 := n.labels.flatMap Label.wire ++ [0]

/-- A full name takes up what its length says. -/
theorem Name.length_wire (n : Name) : n.wire.length = n.wireLength := by
  have key : ∀ ls : List Label,
      (ls.flatMap Label.wire).length + 1 = DnsResponder.wireLength ls := by
    intro ls
    induction ls with
    | nil => rfl
    | cons l ls ih =>
        rw [List.flatMap_cons, List.length_append, wireLength_cons, ← ih]
        simp only [Label.wire, Label.length, List.length_cons]
        omega
  simpa [Name.wire, Name.wireLength] using key n.labels

/-- A pointer to `target` on the wire. -/
def pointer (target : Nat) : List UInt8 := bigEndian 2 (49152 + target)

/-- Where names were first written in a datagram. -/
structure NameTable where
  entries : List (Name × Nat) := []

namespace NameTable

/-- Where `name` was first written, if that is remembered. -/
def find? (t : NameTable) (name : Name) : Option Nat :=
  (t.entries.find? (·.1 = name)).map Prod.snd

/-- Remembers where `name` is written, unless it is remembered already or out of reach. -/
def remember (t : NameTable) (name : Name) (offset : Nat) : NameTable :=
  if offset ≤ maxPointerTarget ∧ (t.find? name).isNone then ⟨(name, offset) :: t.entries⟩ else t

/-- The number of names remembered. -/
def size (t : NameTable) : Nat := t.entries.length

/-- Whether no name is remembered. -/
def isEmpty (t : NameTable) : Bool := t.entries.isEmpty

@[simp] theorem find?_empty (name : Name) : ({} : NameTable).find? name = none := rfl

/-- Remembering a name answers for that name and no other. -/
theorem find?_remember (t : NameTable) (name other : Name) (offset : Nat) :
    (t.remember name offset).find? other =
      if other = name ∧ offset ≤ maxPointerTarget ∧ t.find? name = none then some offset
      else t.find? other := by
  unfold remember
  by_cases h : offset ≤ maxPointerTarget ∧ (t.find? name).isNone
  · rw [if_pos h]
    have hn : t.find? name = none := by simpa using h.2
    by_cases ho : other = name
    · subst ho
      rw [if_pos ⟨rfl, h.1, hn⟩]
      simp [find?]
    · rw [if_neg fun hc => ho hc.1]
      simp [find?, Ne.symm ho]
  · rw [if_neg h, if_neg]
    rintro ⟨_, h1, h2⟩
    exact h ⟨h1, by simp [h2]⟩

end NameTable

/-- A datagram being written. -/
structure Writer where
  bytes : Bytes := #[]
  table : NameTable := {}

namespace Writer

/-- Appends octets. -/
def octets (w : Writer) (os : List UInt8) : Writer := { w with bytes := w.bytes ++ os }

/-- Appends a record's data. -/
def data (w : Writer) (bytes : Bytes) : Writer := { w with bytes := w.bytes ++ bytes }

/-- Appends a two-octet number. -/
def u16 (w : Writer) (n : UInt16) : Writer := w.octets (bigEndian 2 n.toNat)

/-- Appends a four-octet number. -/
def u32 (w : Writer) (n : UInt32) : Writer := w.octets (bigEndian 4 n.toNat)

/-- Appends a name that is to be remembered: a pointer if it was written before, else in full. -/
def repeatable (w : Writer) (n : Name) : Writer :=
  match w.table.find? n with
  | some target => w.octets (pointer target)
  | none => { w with table := w.table.remember n w.bytes.size }.octets n.wire

/-- Appends a name, with `compress` as a pointer where that is possible. -/
def name (w : Writer) (compress : Bool) (n : Name) : Writer :=
  if compress && !n.isRoot then w.repeatable n else w.octets n.wire

end Writer

end DnsResponder
