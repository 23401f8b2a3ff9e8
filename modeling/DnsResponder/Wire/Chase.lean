import DnsResponder.Name.Basic
import DnsResponder.Wire.Reader

/-!
# Reading a name

A name on the wire is a run of labels that ends at a zero octet. In place of the
rest of a run there may be a pointer: two octets, marked by two set bits, whose
other fourteen bits are the offset where the name goes on. Pointers may lead
forwards, backwards and through each other, so reading a name is a chase through
the datagram, and a hostile datagram would like it never to end.

Two bounds end it. A chase follows at most 128 pointers and never jumps to the same
place twice, and the labels that it collects take up at most 255 octets. Nothing
else decreases: positions go up and down, and labels may be read more than once.
`Chase.room` adds the two up, and every step uses some of it.

The running `length` is kept beside the name, so that a name that is too long is
refused before the label that breaks the limit is looked at. `Name.push` checks the
same limit once more and always agrees.
-/

namespace DnsResponder

/-- The most pointers followed while reading one name. -/
def maxJumps : Nat := 128

/-- A chase after one name, underway. -/
structure Chase where
  /-- Where the next octet is read. -/
  pos : Nat
  /-- Where the datagram goes on after the name, once a pointer has been met. -/
  resume? : Option Nat
  /-- The targets jumped to so far, the latest first. -/
  visited : List Nat
  /-- What the labels collected so far take up on the wire, with a terminator. -/
  length : Nat
  /-- The labels collected so far. -/
  name : Name

namespace Chase

/-- The start of a chase at `pos`. -/
def start (pos : Nat) : Chase := ⟨pos, none, [], 1, Name.root⟩

/-- Where one step of a chase leads. -/
inductive Outcome where
  /-- The name is complete, and the datagram goes on at `stop`. -/
  | ended (name : Name) (stop : Nat)
  /-- The chase goes on. -/
  | onward (chase : Chase)

/-- Follows the pointer at the current position, whose first octet is `head`. -/
def jump (c : Chase) (buf : Bytes) (head : UInt8) : Except DecodeError Outcome :=
  match buf[c.pos + 1]? with
  | none => .error (.truncated c.pos 2 buf.size)
  | some low =>
      let target := (head.toNat - 192) * 256 + low.toNat
      if buf.size ≤ target then .error (.pointerOutOfRange c.pos target buf.size)
      else if target ∈ c.visited ∨ maxJumps ≤ c.visited.length then .error (.pointerCycle c.pos)
      else
        .ok (.onward
          { c with
            pos := target
            resume? := some (c.resume?.getD (c.pos + 2))
            visited := target :: c.visited })

/-- Takes the label at the current position, whose length is `len`, in a name that starts at `origin`. -/
def take (c : Chase) (buf : Bytes) (origin len : Nat) : Except DecodeError Outcome :=
  if buf.size < c.pos + 1 + len then .error (.truncated (c.pos + 1) len buf.size)
  else if maxNameLength < c.length + len + 1 then .error (.longName origin)
  else
    match Label.ofOctets? (buf.extract (c.pos + 1) (c.pos + 1 + len)).toList with
    | none => .error (.foreignLabel c.pos)
    | some label =>
        match c.name.push label with
        | .error _ => .error (.longName origin)
        | .ok name =>
            .ok (.onward
              { c with pos := c.pos + 1 + len, length := c.length + len + 1, name })

/-- One step: the octet at the current position decides whether it is the end, a label or a pointer. -/
def step (c : Chase) (buf : Bytes) (origin : Nat) : Except DecodeError Outcome :=
  match buf[c.pos]? with
  | none => .error (.truncated c.pos 1 buf.size)
  | some head =>
      if head = 0 then .ok (.ended c.name (c.resume?.getD (c.pos + 1)))
      else if head.toNat ≤ maxLabelLength then c.take buf origin head.toNat
      else if 192 ≤ head.toNat then c.jump buf head
      else .error (.labelLength c.pos head)

/-- What is left to a chase: the pointers it may still follow, and the octets its name may still take up. -/
def room (c : Chase) : Nat :=
  (maxJumps - c.visited.length) * (maxNameLength + 1) + (maxNameLength - c.length)

theorem room_jump {c c' : Chase} {buf : Bytes} {head : UInt8}
    (h : c.jump buf head = .ok (.onward c')) : c'.room < c.room := by
  unfold jump at h
  split at h
  · cases h
  · dsimp only at h
    split at h
    · cases h
    · split at h
      · cases h
      · rename_i hv
        cases h
        simp only [not_or, maxJumps] at hv
        simp only [room, List.length_cons, maxJumps, maxNameLength]
        omega

theorem room_take {c c' : Chase} {buf : Bytes} {origin len : Nat}
    (h : c.take buf origin len = .ok (.onward c')) : c'.room < c.room := by
  unfold take at h
  split at h
  · cases h
  · split at h
    · cases h
    · rename_i hl
      simp only [maxNameLength] at hl
      split at h
      · cases h
      · split at h
        · cases h
        · cases h
          simp only [room, maxNameLength]
          omega

/-- Every step that goes on uses up some room. -/
theorem room_step {c c' : Chase} {buf : Bytes} {origin : Nat}
    (h : c.step buf origin = .ok (.onward c')) : c'.room < c.room := by
  unfold step at h
  split at h
  · cases h
  · split at h
    · cases h
    · split at h
      · exact room_take h
      · split at h
        · exact room_jump h
        · cases h

/-- Steps to the end of the chase. -/
def run (c : Chase) (buf : Bytes) (origin : Nat) : Except DecodeError (Name × Nat) :=
  match _h : c.step buf origin with
  | .error e => .error e
  | .ok (.ended name stop) => .ok (name, stop)
  | .ok (.onward c') => c'.run buf origin
termination_by c.room
decreasing_by exact room_step ‹_›

end Chase

/-- The next name, whose labels may lie anywhere in the datagram. -/
def Reader.name : Reader Name := fun buf pos => (Chase.start pos).run buf pos

end DnsResponder
