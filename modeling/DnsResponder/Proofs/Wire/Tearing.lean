import DnsResponder.Proofs.Wire.FullName

/-!
# What is torn off

A datagram may lose its end on the way. A reader that needs what was lost `RunsOut` of
octets: it reports how many it wanted and where, and how many there are. It has no other
complaint. A number of which only the front is left is short of octets and nothing else, and
so is a name: the labels that are left stand as they did, and the label or the terminator
that was torn is what the reader misses.

A pointer could complain of more, since its target may have been torn off while the pointer
is still there. That never happens to a pointer that leads backwards, for then the target is
in the front of whatever has the pointer. Here a torn pointer has lost one of its own octets.
-/

namespace DnsResponder

/-- What stood in front of the end still stands there when the end is torn off behind it. -/
theorem Stands.of_append_right {os : List UInt8} {buf more : Bytes} {pos : Nat}
    (h : Stands os (buf ++ more) pos) (hle : pos + os.length ≤ buf.size) : Stands os buf pos := by
  have hcut : buf.extract pos (pos + os.length) = os.toArray := by
    have hnone : more.extract (pos - buf.size) (pos + os.length - buf.size) = #[] :=
      Array.extract_eq_empty_of_le (by omega)
    rw [← h.extract, Array.extract_append, hnone, Array.append_empty]
  have hstands := Stands.of_extract hle
  rwa [hcut] at hstands

/-- The result is that octets are missing at the end of `buf`. -/
def Missing {α : Type} (buf : Bytes) (result : Except DecodeError α) : Prop :=
  ∃ offset needed, result = .error (.truncated offset needed buf.size)

/-- The reader wants octets behind the end of the datagram. -/
def Reader.RunsOut {α : Type} (r : Reader α) (buf : Bytes) (pos : Nat) : Prop :=
  Missing buf (r buf pos)

namespace Reader.RunsOut

variable {α β : Type} {r : Reader α} {f : α → Reader β} {buf : Bytes} {pos mid n : Nat} {a : α}

theorem bind_left (h : RunsOut r buf pos) : RunsOut (r >>= f) buf pos := by
  obtain ⟨offset, needed, hr⟩ := h
  exact ⟨offset, needed, bind_eq_error_iff.mpr (.inl hr)⟩

theorem bind_right (hr : r buf pos = .ok (a, mid)) (h : RunsOut (f a) buf mid) :
    RunsOut (r >>= f) buf pos := by
  obtain ⟨offset, needed, hf⟩ := h
  exact ⟨offset, needed, bind_eq_error_iff.mpr (.inr ⟨a, mid, hr, hf⟩)⟩

theorem bytes (h : buf.size < pos + n) : RunsOut (Reader.bytes n) buf pos :=
  ⟨pos, n, if_neg (Nat.not_le.mpr h)⟩

theorem u16 (h : buf.size < pos + 2) : RunsOut Reader.u16 buf pos := bind_left (bytes h)

theorem u32 (h : buf.size < pos + 4) : RunsOut Reader.u32 buf pos := bind_left (bytes h)

end Reader.RunsOut

namespace Chase

variable {part more : Bytes} {origin : Nat}

/-- A chase through labels of which the end is torn off runs out of octets. -/
theorem missing_of_labels (labels : List Label) :
    ∀ (c : Chase), Stands (labels.flatMap Label.wire ++ [0]) (part ++ more) c.pos →
      c.length = c.name.wireLength → wireLength (c.name.labels ++ labels) ≤ maxNameLength →
      part.size < c.pos + wireLength labels → Missing part (c.run part origin) := by
  induction labels with
  | nil =>
      intro c _ _ _ hcut
      rw [wireLength_nil] at hcut
      exact ⟨c.pos, 1, run_of_error (step_eq_iff.mpr (.beyond (Nat.le_of_lt_succ hcut)))⟩
  | cons l labels ih =>
      intro c h hlen hfits hcut
      rw [List.flatMap_cons, List.append_assoc] at h
      have hcounted := counted_of_stands h.left
      have hwire : l.wire.length = 1 + l.length := by
        rw [Label.wire, List.length_cons, Label.length, Nat.add_comm]
      rcases Nat.lt_or_ge c.pos part.size with hin | hout
      · rcases Nat.lt_or_ge part.size (c.pos + 1 + l.length) with htorn | hwhole
        · -- the octet that counts the label is left, and says how many are missing
          have hlabel : Stands ([UInt8.ofNat l.length] ++ l.octets) (part ++ more) c.pos := h.left
          have hhead : Stands [UInt8.ofNat l.length] part c.pos := hlabel.left.of_append_right hin
          have htoNat : (UInt8.ofNat l.length).toNat = l.length := hcounted.toNat_ofNat_length
          have hne : UInt8.ofNat l.length ≠ 0 := by
            intro hzero
            have hpos := l.length_pos
            rw [hzero] at htoNat
            exact absurd htoNat (Nat.ne_of_lt hpos)
          refine ⟨c.pos + 1, _, run_of_error (step_eq_iff.mpr (.cutLabel hhead hne ?_ ?_))⟩
          · rw [htoNat]
            exact l.length_le
          · rwa [htoNat]
        · -- the label is left, so what was torn is torn off the labels behind it
          have hassoc : c.name.labels ++ [l] ++ labels = c.name.labels ++ l :: labels := by simp
          have hfits' : wireLength (c.name.labels ++ [l] ++ labels) ≤ maxNameLength := by
            rwa [hassoc]
          have hleft : Stands l.wire part c.pos := h.left.of_append_right (by omega)
          have hrest := h.right
          rw [hwire, ← Nat.add_assoc] at hrest
          rw [run_of_onward (step_of_label hleft hlen (fits_of_append hfits'))]
          refine ih _ hrest ?_ hfits' ?_
          · show c.length + l.length + 1 = wireLength (c.name.labels ++ [l])
            rw [wireLength_concat, hlen, Name.wireLength]
          · show part.size < c.pos + 1 + l.length + wireLength labels
            rw [wireLength_cons] at hcut
            omega
      · exact ⟨c.pos, 1, run_of_error (step_eq_iff.mpr (.beyond hout))⟩

end Chase

namespace Reader.RunsOut

variable {part more : Bytes} {pos : Nat} {n : Name}

/-- Where a name stood in full, its reader misses whatever is torn off it. -/
theorem name (h : Stands n.wire (part ++ more) pos) (hcut : part.size < pos + n.wireLength) :
    RunsOut Reader.name part pos :=
  Chase.missing_of_labels n.labels (Chase.start pos) h rfl n.fits hcut

/-- Where a pointer stood, the reader of a name misses whatever is torn off the pointer. -/
theorem pointer {target : Nat} (h : Stands (DnsResponder.pointer target) (part ++ more) pos)
    (htarget : target ≤ maxPointerTarget) (hcut : part.size < pos + 2) :
    RunsOut Reader.name part pos := by
  obtain ⟨head, low, hpair, hmark, -⟩ := Chase.exists_pointer_octets htarget
  rw [hpair] at h
  rcases Nat.lt_or_ge pos part.size with hin | hout
  · have hboth : Stands ([head] ++ [low]) (part ++ more) pos := h
    have hhead : Stands [head] part pos := hboth.left.of_append_right hin
    exact ⟨pos, 2, Chase.run_of_error
      (Chase.step_eq_iff.mpr (.cutPointer hhead hmark (Nat.le_of_lt_succ hcut)))⟩
  · exact ⟨pos, 1, Chase.run_of_error (Chase.step_eq_iff.mpr (.beyond hout))⟩

end Reader.RunsOut

end DnsResponder
