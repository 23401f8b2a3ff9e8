import DnsResponder.Proofs.Name.Labels
import DnsResponder.Proofs.Wire.Chasing

/-!
# Names that stand in full

A name stands *in full* where its labels and its terminator stand, with no pointer
among them. A chase that comes upon such a name walks through it label by label and
ends with exactly that name. It does not matter how the chase came there: the labels
are added to those it has already, and it goes on where it had to go on anyway.

So there are two ways to write a name that read back as the name. It may be written
in full, or it may be a pointer to a place where it stands in full.
-/

namespace DnsResponder

namespace Chase

variable {c : Chase} {buf : Bytes} {origin : Nat}

/-- A label that stands somewhere is counted there. -/
theorem counted_of_stands {l : Label} {pos : Nat} (h : Stands l.wire buf pos) :
    Counted l.octets buf pos := ⟨h, l.octets_ne, l.length_le⟩

/-- At a terminator the chase ends with the name it has. -/
theorem step_of_terminator (h : Stands [0] buf c.pos) :
    c.step buf origin = .ok (.ended c.name (c.resume?.getD (c.pos + 1))) :=
  step_eq_iff.mpr (.ended h)

/-- At a label that still fits the chase adds the label and moves behind it. -/
theorem step_of_label {l : Label} (h : Stands l.wire buf c.pos)
    (hlen : c.length = c.name.wireLength)
    (hfits : wireLength (c.name.labels ++ [l]) ≤ maxNameLength) :
    c.step buf origin = .ok (.onward (c.past l.length ⟨c.name.labels ++ [l], hfits⟩)) := by
  refine step_eq_iff.mpr (.labelled (counted_of_stands h) ?_ (Name.push_eq_of_fits hfits))
  rwa [hlen, Name.wireLength, ← wireLength_concat]

/-- A chase through labels that stand in full adds them all. -/
theorem run_of_labels (labels : List Label) :
    ∀ (c : Chase), Stands (labels.flatMap Label.wire ++ [0]) buf c.pos →
      c.length = c.name.wireLength →
      ∀ hfits : wireLength (c.name.labels ++ labels) ≤ maxNameLength,
        c.run buf origin =
          .ok (⟨c.name.labels ++ labels, hfits⟩, c.resume?.getD (c.pos + wireLength labels)) := by
  induction labels with
  | nil =>
      intro c h _ hfits
      rw [run_of_ended (step_of_terminator (by simpa using h))]
      simp
  | cons l labels ih =>
      intro c h hlen hfits
      rw [List.flatMap_cons, List.append_assoc] at h
      have hassoc : c.name.labels ++ [l] ++ labels = c.name.labels ++ l :: labels := by simp
      have hfits' : wireLength (c.name.labels ++ [l] ++ labels) ≤ maxNameLength := by
        rwa [hassoc]
      -- behind the label the others stand, and the chase has counted its octets
      rw [run_of_onward (step_of_label h.left hlen (fits_of_append hfits'))]
      have hwire : l.wire.length = 1 + l.length := by
        rw [Label.wire, List.length_cons, Label.length, Nat.add_comm]
      have hrest := h.right
      rw [hwire, ← Nat.add_assoc] at hrest
      have hnext : c.length + l.length + 1 = wireLength (c.name.labels ++ [l]) := by
        rw [wireLength_concat, hlen, Name.wireLength]
      rw [ih _ hrest hnext hfits']
      simp only [past, hassoc, wireLength_cons]
      congr 3
      omega

/-- The first octet of a pointer has its two high bits set, and the others hold the target's high part. -/
theorem toNat_pointer_head {target : Nat} (h : target ≤ maxPointerTarget) :
    (UInt8.ofNat ((49152 + target) / 256)).toNat = 192 + target / 256 := by
  unfold maxPointerTarget at h
  rw [UInt8.toNat_ofNat']
  omega

/-- A pointer leads to the target that it was written for. -/
theorem exists_pointer_octets {target : Nat} (h : target ≤ maxPointerTarget) :
    ∃ head low, pointer target = [head, low] ∧ 192 ≤ head.toNat ∧ pointerTarget head low = target := by
  have hhead := toNat_pointer_head h
  have hlow : (UInt8.ofNat (49152 + target)).toNat = target % 256 := by
    rw [UInt8.toNat_ofNat']
    omega
  refine ⟨UInt8.ofNat ((49152 + target) / 256), UInt8.ofNat (49152 + target), ?_, ?_, ?_⟩
  · simp [pointer, bigEndian]
  · rw [hhead]
    exact Nat.le_add_right 192 _
  · rw [pointerTarget, hhead, hlow]
    omega

/-- At a pointer that leads into the datagram a chase without jumps so far goes on at the target. -/
theorem step_of_pointer {target : Nat} (h : Stands (pointer target) buf c.pos)
    (htarget : target ≤ maxPointerTarget) (hin : target < buf.size) (hfirst : c.visited = []) :
    c.step buf origin = .ok (.onward (c.jumpTo target)) := by
  obtain ⟨head, low, hpair, hmark, rfl⟩ := exists_pointer_octets htarget
  rw [hpair] at h
  refine step_eq_iff.mpr (.jumped h hmark hin ?_ ?_)
  · rw [hfirst]
    exact List.not_mem_nil
  · rw [hfirst]
    decide

end Chase

namespace Reader

variable {buf : Bytes} {pos : Nat} {n : Name}

/-- A name that stands in full reads back as it is. -/
theorem name_of_stands (h : Stands n.wire buf pos) :
    name buf pos = .ok (n, pos + n.wireLength) :=
  Chase.run_of_labels n.labels (Chase.start pos) h rfl n.fits

/-- A pointer to where a name stands in full reads as that name, and the datagram goes on behind the pointer. -/
theorem name_of_pointer {target : Nat} (h : Stands (pointer target) buf pos)
    (htarget : target ≤ maxPointerTarget) (hfull : Stands n.wire buf target) :
    name buf pos = .ok (n, pos + 2) := by
  -- the target holds at least a terminator, so it lies in the datagram
  have hin : target < buf.size := by
    have hle := hfull.le_size
    simp only [Name.wire, List.length_append, List.length_singleton] at hle
    omega
  unfold name
  rw [Chase.run_of_onward (Chase.step_of_pointer h htarget hin rfl)]
  exact Chase.run_of_labels n.labels ⟨target, some (pos + 2), [target], 1, Name.root⟩ hfull rfl
    n.fits

end Reader

end DnsResponder
