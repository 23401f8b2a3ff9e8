import DnsResponder.Proofs.Wire.Standing
import DnsResponder.Wire.Chase

/-!
# The ways a chase can go

A step of a chase looks at one octet and then at what that octet announces. It can find
a terminator, a label or a pointer, and each of them can be cut off by the end of the
datagram, break a limit, or be none of the three. `Chase.Goes` lists these ways. Each
says what stands in the datagram, which limits hold, and what the step comes to.

`Chase.step_eq_iff` says that this is all there is to a step. Whoever wants to know
something about chases needs one case for each way and an induction over the run, and
never has to take a step apart again.
-/

namespace DnsResponder

/-- The octets of a label are a label. -/
theorem Label.ofOctets?_octets (l : Label) : Label.ofOctets? l.octets = some l := by
  have hl : l.octets ≠ [] ∧ l.octets.length ≤ maxLabelLength ∧ l.octets.all (· < 128) := by
    refine ⟨l.octets_ne, l.length_le, ?_⟩
    simpa using l.ascii
  unfold Label.ofOctets?
  rw [dif_pos hl]

theorem Label.octets_of_ofOctets? {octets : List UInt8} {l : Label}
    (h : Label.ofOctets? octets = some l) : l.octets = octets := by
  unfold Label.ofOctets? at h
  split at h
  · cases h
    rfl
  · cases h

/-- Octets within the limits are a label unless one of them is foreign. -/
theorem Label.ofOctets?_eq_none_iff {octets : List UInt8} (hne : octets ≠ [])
    (hle : octets.length ≤ maxLabelLength) :
    Label.ofOctets? octets = none ↔ ∃ o ∈ octets, ¬o < 128 := by
  unfold Label.ofOctets?
  by_cases hascii : octets.all (· < 128)
  · rw [dif_pos ⟨hne, hle, hascii⟩]
    simpa using hascii
  · rw [dif_neg fun h => hascii h.2.2]
    simpa using hascii

/-- Octets stand behind the octet that counts them, as many as a label may have. -/
structure Counted (octets : List UInt8) (buf : Bytes) (pos : Nat) : Prop where
  stands : Stands (UInt8.ofNat octets.length :: octets) buf pos
  ne_nil : octets ≠ []
  length_le : octets.length ≤ maxLabelLength

namespace Counted

variable {octets octets' : List UInt8} {buf : Bytes} {pos : Nat} {head : UInt8}

theorem toNat_ofNat_length (h : Counted octets buf pos) :
    (UInt8.ofNat octets.length).toNat = octets.length :=
  UInt8.toNat_ofNat_of_lt' (Nat.lt_of_le_of_lt h.length_le (by decide))

/-- The octet in front is the length of a label, and neither a terminator nor part of a pointer. -/
theorem exists_head (h : Counted octets buf pos) :
    ∃ head, buf[pos]? = some head ∧ head ≠ 0 ∧ head.toNat = octets.length := by
  refine ⟨_, h.stands.head, ?_, h.toNat_ofNat_length⟩
  intro hzero
  have hlen := h.toNat_ofNat_length
  rw [hzero] at hlen
  exact h.ne_nil (List.length_eq_zero_iff.mp hlen.symm)

theorem le_size (h : Counted octets buf pos) : pos + 1 + octets.length ≤ buf.size :=
  h.stands.tail.le_size

theorem toList_extract (h : Counted octets buf pos) :
    (buf.extract (pos + 1) (pos + 1 + octets.length)).toList = octets := by
  rw [h.stands.tail.extract]

/-- Behind a length octet stand that many octets, unless the datagram ends before. -/
theorem of_head (h : buf[pos]? = some head) (hne : head ≠ 0) (hle : head.toNat ≤ maxLabelLength)
    (hsize : pos + 1 + head.toNat ≤ buf.size) :
    Counted (buf.extract (pos + 1) (pos + 1 + head.toNat)).toList buf pos := by
  have hlen : (buf.extract (pos + 1) (pos + 1 + head.toNat)).toList.length = head.toNat := by
    rw [Array.length_toList, Array.size_extract]
    omega
  have hpos : head.toNat ≠ 0 := fun hzero => hne (UInt8.toNat_inj.mp hzero)
  refine ⟨?_, ?_, ?_⟩
  · rw [hlen, UInt8.ofNat_toNat]
    exact Stands.cons h (Stands.of_extract hsize)
  · rw [← List.length_pos_iff, hlen]
    omega
  · rwa [hlen]

theorem append_right (h : Counted octets buf pos) (more : Bytes) : Counted octets (buf ++ more) pos :=
  ⟨h.stands.append_right more, h.ne_nil, h.length_le⟩

/-- Only one row of octets is counted at a place. -/
theorem unique (h : Counted octets buf pos) (h' : Counted octets' buf pos) : octets = octets' := by
  obtain ⟨head, hhead, -, hlen⟩ := h.exists_head
  obtain ⟨head', hhead', -, hlen'⟩ := h'.exists_head
  cases hhead.symm.trans hhead'
  rw [← h.toList_extract, ← h'.toList_extract, ← hlen, ← hlen']

end Counted

/-- Where the two octets of a pointer lead. -/
def pointerTarget (head low : UInt8) : Nat := (head.toNat - 192) * 256 + low.toNat

namespace Chase

/-- The chase behind a label of `len` octets, with the name that the label makes. -/
def past (c : Chase) (len : Nat) (name : Name) : Chase :=
  { c with pos := c.pos + 1 + len, length := c.length + len + 1, name }

/-- The chase at the target of the pointer where it was. -/
def jumpTo (c : Chase) (target : Nat) : Chase :=
  { c with
    pos := target
    resume? := some (c.resume?.getD (c.pos + 2))
    visited := target :: c.visited }

/-- The ways in which a step can go. -/
inductive Goes (c : Chase) (buf : Bytes) (origin : Nat) : Except DecodeError Outcome → Prop where
  /-- A terminator ends the name. -/
  | ended (h : Stands [0] buf c.pos) :
      Goes c buf origin (.ok (.ended c.name (c.resume?.getD (c.pos + 1))))
  /-- A label is added to the name. -/
  | labelled {l : Label} {name : Name} (h : Counted l.octets buf c.pos)
      (hfits : c.length + l.length + 1 ≤ maxNameLength) (hname : c.name.push l = .ok name) :
      Goes c buf origin (.ok (.onward (c.past l.length name)))
  /-- A pointer is followed. -/
  | jumped {head low : UInt8} (h : Stands [head, low] buf c.pos) (hmark : 192 ≤ head.toNat)
      (hin : pointerTarget head low < buf.size) (hnew : pointerTarget head low ∉ c.visited)
      (hroom : c.visited.length < maxJumps) :
      Goes c buf origin (.ok (.onward (c.jumpTo (pointerTarget head low))))
  /-- The datagram has ended. -/
  | beyond (h : buf.size ≤ c.pos) : Goes c buf origin (.error (.truncated c.pos 1 buf.size))
  /-- The datagram ends inside a label. -/
  | cutLabel {head : UInt8} (h : Stands [head] buf c.pos) (hne : head ≠ 0)
      (hle : head.toNat ≤ maxLabelLength) (hcut : buf.size < c.pos + 1 + head.toNat) :
      Goes c buf origin (.error (.truncated (c.pos + 1) head.toNat buf.size))
  /-- The name has no room for the label. -/
  | outgrown {octets : List UInt8} (h : Counted octets buf c.pos)
      (hlong : maxNameLength < c.length + octets.length + 1) :
      Goes c buf origin (.error (.longName origin))
  /-- The label is not ASCII. -/
  | foreign {octets : List UInt8} (h : Counted octets buf c.pos)
      (hfits : c.length + octets.length + 1 ≤ maxNameLength) (hforeign : ∃ o ∈ octets, ¬o < 128) :
      Goes c buf origin (.error (.foreignLabel c.pos))
  /-- The name refuses the label although the chase has counted room for it. -/
  | refused {l : Label} {e : NameError} (h : Counted l.octets buf c.pos)
      (hfits : c.length + l.length + 1 ≤ maxNameLength) (hname : c.name.push l = .error e) :
      Goes c buf origin (.error (.longName origin))
  /-- The datagram ends inside a pointer. -/
  | cutPointer {head : UInt8} (h : Stands [head] buf c.pos) (hmark : 192 ≤ head.toNat)
      (hcut : buf.size ≤ c.pos + 1) : Goes c buf origin (.error (.truncated c.pos 2 buf.size))
  /-- The pointer leads outside the datagram. -/
  | outside {head low : UInt8} (h : Stands [head, low] buf c.pos) (hmark : 192 ≤ head.toNat)
      (hout : buf.size ≤ pointerTarget head low) :
      Goes c buf origin (.error (.pointerOutOfRange c.pos (pointerTarget head low) buf.size))
  /-- The pointer leads back, or is one too many. -/
  | circular {head low : UInt8} (h : Stands [head, low] buf c.pos) (hmark : 192 ≤ head.toNat)
      (hin : pointerTarget head low < buf.size)
      (hagain : pointerTarget head low ∈ c.visited ∨ maxJumps ≤ c.visited.length) :
      Goes c buf origin (.error (.pointerCycle c.pos))
  /-- The octet announces neither a label nor a pointer. -/
  | unknown {head : UInt8} (h : Stands [head] buf c.pos) (hlong : maxLabelLength < head.toNat)
      (hunmarked : head.toNat < 192) : Goes c buf origin (.error (.labelLength c.pos head))

variable {c c' : Chase} {buf : Bytes} {origin : Nat} {head : UInt8}

theorem goes_jump (h : buf[c.pos]? = some head) (hmark : 192 ≤ head.toNat) :
    c.Goes buf origin (c.jump buf head) := by
  unfold jump
  cases hlow : buf[c.pos + 1]? with
  | none => exact .cutPointer (.of_getElem? h) hmark (Array.getElem?_eq_none_iff.mp hlow)
  | some low =>
      have hs : Stands [head, low] buf c.pos := .cons h (.of_getElem? hlow)
      dsimp only
      split
      · rename_i hout
        exact .outside hs hmark hout
      · rename_i hin
        split
        · rename_i hagain
          exact .circular hs hmark (Nat.lt_of_not_le hin) hagain
        · rename_i hnew
          rw [not_or, Nat.not_le] at hnew
          exact .jumped hs hmark (Nat.lt_of_not_le hin) hnew.1 hnew.2

theorem goes_take (h : buf[c.pos]? = some head) (hne : head ≠ 0) (hle : head.toNat ≤ maxLabelLength) :
    c.Goes buf origin (c.take buf origin head.toNat) := by
  unfold take
  split
  · rename_i hcut
    exact .cutLabel (.of_getElem? h) hne hle hcut
  · rename_i hsize
    have hcounted := Counted.of_head h hne hle (Nat.le_of_not_lt hsize)
    generalize hoctets : (buf.extract (c.pos + 1) (c.pos + 1 + head.toNat)).toList = octets
      at hcounted ⊢
    have hlen : head.toNat = octets.length := by
      obtain ⟨head', hhead', -, hlen⟩ := hcounted.exists_head
      cases h.symm.trans hhead'
      exact hlen
    rw [hlen]
    split
    · rename_i hlong
      exact .outgrown hcounted hlong
    · rename_i hfits
      have hfits := Nat.le_of_not_lt hfits
      cases hlabel : Label.ofOctets? octets with
      | none =>
          exact .foreign hcounted hfits
            ((Label.ofOctets?_eq_none_iff hcounted.ne_nil hcounted.length_le).mp hlabel)
      | some l =>
          obtain rfl := Label.octets_of_ofOctets? hlabel
          dsimp only
          cases hname : c.name.push l with
          | error e => exact .refused hcounted hfits hname
          | ok name => exact .labelled hcounted hfits hname

/-- There is no other way for a step to go. -/
theorem goes_step (c : Chase) (buf : Bytes) (origin : Nat) : c.Goes buf origin (c.step buf origin) := by
  unfold step
  cases hhead : buf[c.pos]? with
  | none => exact .beyond (Array.getElem?_eq_none_iff.mp hhead)
  | some head =>
      dsimp only
      split
      · rename_i hzero
        subst hzero
        exact .ended (.of_getElem? hhead)
      · rename_i hne
        split
        · rename_i hle
          exact goes_take hhead hne hle
        · rename_i hlong
          split
          · rename_i hmark
            exact goes_jump hhead hmark
          · rename_i hunmarked
            exact .unknown (.of_getElem? hhead) (Nat.lt_of_not_le hlong) (Nat.lt_of_not_le hunmarked)

/-- At a row of counted octets a step takes the label that they are. -/
theorem step_of_counted {octets : List UInt8} (h : Counted octets buf c.pos) :
    c.step buf origin = c.take buf origin octets.length := by
  obtain ⟨head, hhead, hne, hlen⟩ := h.exists_head
  unfold step
  rw [hhead]
  dsimp only
  rw [if_neg hne, hlen, if_pos h.length_le]

theorem take_of_fits {octets : List UInt8} (h : Counted octets buf c.pos)
    (hfits : c.length + octets.length + 1 ≤ maxNameLength) :
    c.take buf origin octets.length =
      match Label.ofOctets? octets with
      | none => .error (.foreignLabel c.pos)
      | some l =>
          match c.name.push l with
          | .error _ => .error (.longName origin)
          | .ok name => .ok (.onward (c.past octets.length name)) := by
  unfold take
  rw [if_neg (Nat.not_lt.mpr h.le_size), if_neg (Nat.not_lt.mpr hfits), h.toList_extract]
  rfl

/-- At the first octet of a pointer a step follows the pointer. -/
theorem step_of_mark (h : Stands [head] buf c.pos) (hmark : 192 ≤ head.toNat) :
    c.step buf origin = c.jump buf head := by
  have hne : head ≠ 0 := by
    rintro rfl
    exact absurd hmark (by decide)
  have hlong : ¬head.toNat ≤ maxLabelLength := by
    unfold maxLabelLength
    omega
  unfold step
  rw [h.head]
  dsimp only
  rw [if_neg hne, if_neg hlong, if_pos hmark]

/-- What a step comes to is told by the way it goes. -/
theorem step_eq_iff {result : Except DecodeError Outcome} :
    c.step buf origin = result ↔ c.Goes buf origin result := by
  constructor
  · rintro rfl
    exact goes_step c buf origin
  · intro h
    -- a way fixes the octets and the limits that a step asks about, and so its branches
    cases h with
    | ended h =>
        unfold step
        rw [h.head]
        rfl
    | labelled h hfits hname =>
        rw [step_of_counted h, take_of_fits h hfits, Label.ofOctets?_octets]
        dsimp only
        rw [hname]
        rfl
    | jumped h hmark hin hnew hroom =>
        have hok : ¬(_ ∨ _) := not_or.mpr ⟨hnew, Nat.not_le.mpr hroom⟩
        rw [step_of_mark h.left hmark, jump, h.tail.head]
        exact (if_neg (Nat.not_le.mpr hin)).trans (if_neg hok)
    | beyond h =>
        unfold step
        rw [Array.getElem?_eq_none h]
    | cutLabel h hne hle hcut =>
        unfold step
        rw [h.head]
        dsimp only
        rw [if_neg hne, if_pos hle, take, if_pos hcut]
    | outgrown h hlong =>
        rw [step_of_counted h, take, if_neg (Nat.not_lt.mpr h.le_size), if_pos hlong]
    | foreign h hfits hforeign =>
        rw [step_of_counted h, take_of_fits h hfits,
          (Label.ofOctets?_eq_none_iff h.ne_nil h.length_le).mpr hforeign]
    | refused h hfits hname =>
        rw [step_of_counted h, take_of_fits h hfits, Label.ofOctets?_octets]
        dsimp only
        rw [hname]
    | cutPointer h hmark hcut =>
        rw [step_of_mark h hmark, jump, Array.getElem?_eq_none hcut]
    | outside h hmark hout =>
        rw [step_of_mark h.left hmark, jump, h.tail.head]
        exact if_pos hout
    | circular h hmark hin hagain =>
        rw [step_of_mark h.left hmark, jump, h.tail.head]
        exact (if_neg (Nat.not_le.mpr hin)).trans (if_pos hagain)
    | @unknown head h hlong hunmarked =>
        have hne : head ≠ 0 := by
          rintro rfl
          exact absurd hlong (by decide)
        unfold step
        rw [h.head]
        dsimp only
        rw [if_neg hne, if_neg (Nat.not_le.mpr hlong), if_neg (Nat.not_le.mpr hunmarked)]

/-! ## Runs -/

/-- A run is a step and the run from where that leads. -/
theorem run_eq (c : Chase) (buf : Bytes) (origin : Nat) :
    c.run buf origin =
      match c.step buf origin with
      | .error e => .error e
      | .ok (.ended name stop) => .ok (name, stop)
      | .ok (.onward c') => c'.run buf origin := by
  rw [run]
  split
  · rename_i hstep; rw [hstep]
  · rename_i hstep; rw [hstep]
  · rename_i hstep; rw [hstep]

theorem run_of_error {e : DecodeError} (h : c.step buf origin = .error e) :
    c.run buf origin = .error e := by
  rw [run_eq, h]

theorem run_of_ended {name : Name} {stop : Nat} (h : c.step buf origin = .ok (.ended name stop)) :
    c.run buf origin = .ok (name, stop) := by
  rw [run_eq, h]

theorem run_of_onward (h : c.step buf origin = .ok (.onward c')) :
    c.run buf origin = c'.run buf origin := by
  rw [run_eq, h]

end Chase

end DnsResponder
