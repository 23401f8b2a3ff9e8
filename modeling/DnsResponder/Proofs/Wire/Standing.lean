import DnsResponder.Wire.Reader
import DnsResponder.Wire.Writer
import Mathlib.Algebra.Group.Nat.Defs

/-!
# What stands where

A writer only ever appends, and a reader only ever looks. The two meet in one
notion: the octets `os` *stand* at `pos` in a datagram. Appending keeps whatever
stands somewhere, so a fact about a datagram that is half written is still a fact
about the whole of it, and about any datagram that has the whole of it in front.

The readers of fixed fields are settled here. Each answers with a field's value as
soon as the octets of that value stand where it looks, and then it ends behind them.
-/

namespace DnsResponder

/-- The octets `os` stand at `pos` in `buf`. -/
def Stands (os : List UInt8) (buf : Bytes) (pos : Nat) : Prop :=
  ∃ before after, buf.toList = before ++ os ++ after ∧ before.length = pos

namespace Stands

variable {os ps : List UInt8} {o : UInt8} {buf : Bytes} {pos : Nat}

/-- What stands somewhere still stands there when more is written behind it. -/
theorem append_right (h : Stands os buf pos) (more : Bytes) : Stands os (buf ++ more) pos := by
  obtain ⟨before, after, hbuf, hpos⟩ := h
  refine ⟨before, after ++ more.toList, ?_, hpos⟩
  rw [Array.toList_append, hbuf, List.append_assoc (before ++ os)]

/-- Octets that are written stand where the datagram ended before. -/
theorem written (buf : Bytes) (os : List UInt8) (more : Bytes) :
    Stands os (buf ++ os ++ more) buf.size := by
  refine ⟨buf.toList, more.toList, ?_, Array.length_toList⟩
  rw [Array.toList_append, Array.toList_appendList]

theorem left (h : Stands (os ++ ps) buf pos) : Stands os buf pos := by
  obtain ⟨before, after, hbuf, hpos⟩ := h
  exact ⟨before, ps ++ after, by simp [hbuf], hpos⟩

theorem right (h : Stands (os ++ ps) buf pos) : Stands ps buf (pos + os.length) := by
  obtain ⟨before, after, hbuf, hpos⟩ := h
  exact ⟨before ++ os, after, by simp [hbuf], by simp [hpos]⟩

theorem head (h : Stands (o :: os) buf pos) : buf[pos]? = some o := by
  obtain ⟨before, after, hbuf, hpos⟩ := h
  rw [← Array.getElem?_toList, hbuf, ← hpos]
  simp

theorem tail (h : Stands (o :: os) buf pos) : Stands os buf (pos + 1) := by
  have h' : Stands ([o] ++ os) buf pos := h
  exact h'.right

theorem le_size (h : Stands os buf pos) : pos + os.length ≤ buf.size := by
  obtain ⟨before, after, hbuf, hpos⟩ := h
  rw [← Array.length_toList, hbuf]
  simp only [List.length_append]
  omega

/-- What is cut out of a datagram stands where it was cut out. -/
theorem of_extract {len : Nat} (h : pos + len ≤ buf.size) :
    Stands (buf.extract pos (pos + len)).toList buf pos := by
  refine ⟨buf.toList.take pos, buf.toList.drop (pos + len), ?_, ?_⟩
  · rw [Array.toList_extract, List.extract_eq_take_drop, Nat.add_sub_cancel_left,
      List.append_assoc, ← List.drop_drop, List.take_append_drop, List.take_append_drop]
  · rw [List.length_take, Array.length_toList]
    omega

/-- An octet stands in front of what stands right behind it. -/
theorem cons (h : buf[pos]? = some o) (hs : Stands os buf (pos + 1)) : Stands (o :: os) buf pos := by
  obtain ⟨before, after, hbuf, hpos⟩ := hs
  have ho : before[pos]? = some o := by
    rwa [← Array.getElem?_toList, hbuf, List.append_assoc,
      List.getElem?_append_left (by omega)] at h
  have hbefore : before.take pos ++ [o] = before := by
    have htake := List.take_add_one (l := before) (i := pos)
    rw [ho, List.take_of_length_le (Nat.le_of_eq hpos)] at htake
    exact htake.symm
  refine ⟨before.take pos, after, ?_, ?_⟩
  · rw [List.append_cons, hbefore, hbuf]
  · rw [List.length_take, hpos]
    omega

theorem of_getElem? (h : buf[pos]? = some o) : Stands [o] buf pos := by
  have hlt : pos < buf.size := (Array.getElem?_eq_some_iff.mp h).1
  have hnil : Stands (buf.extract (pos + 1) (pos + 1 + 0)).toList buf (pos + 1) := of_extract hlt
  rw [Nat.add_zero, Array.extract_eq_empty_of_le (by omega)] at hnil
  exact cons h hnil

/-- What stands somewhere is what is cut out there. -/
theorem extract (h : Stands os buf pos) : buf.extract pos (pos + os.length) = os.toArray := by
  obtain ⟨before, after, hbuf, hpos⟩ := h
  apply Array.ext'
  rw [Array.toList_extract, hbuf, List.extract_eq_take_drop, ← hpos, List.append_assoc,
    List.drop_left, Nat.add_sub_cancel_left, List.take_left]

end Stands

namespace Reader

variable {os : List UInt8} {buf : Bytes} {pos : Nat}

/-- The next octets are those that stand next. -/
theorem bytes_of_stands (h : Stands os buf pos) :
    bytes os.length buf pos = .ok (os.toArray, pos + os.length) := by
  unfold bytes
  rw [if_pos h.le_size, h.extract]

theorem value_concat (os : List UInt8) (o : UInt8) :
    value (os ++ [o]).toArray = value os.toArray * 256 + o.toNat := by
  simp [value]

/-- A number reads back from its octets, as far as they can hold it. -/
theorem value_bigEndian (count n : Nat) : value (bigEndian count n).toArray = n % 256 ^ count := by
  induction count generalizing n with
  | zero => simp [bigEndian, value, Nat.mod_one]
  | succ count ih =>
      -- the last octet is the number's low end, and the others hold what is left of it
      have hpow : 256 ^ (count + 1) = 256 * 256 ^ count := Nat.pow_succ'
      rw [bigEndian, value_concat, ih, UInt8.toNat_ofNat', hpow, Nat.mod_mul]
      omega

/-- A field of `count` octets holds the number that stands there. -/
theorem value_of_stands {count n : Nat} (h : Stands (bigEndian count n) buf pos) :
    bytes count buf pos = .ok ((bigEndian count n).toArray, pos + count) := by
  have hb := bytes_of_stands h
  rwa [length_bigEndian] at hb

theorem u16_of_stands {n : UInt16} (h : Stands (bigEndian 2 n.toNat) buf pos) :
    u16 buf pos = .ok (n, pos + 2) := by
  have hn : n.toNat % 256 ^ 2 = n.toNat := Nat.mod_eq_of_lt n.toNat_lt
  rw [u16, bind_apply, value_of_stands h]
  simp only [pure_apply, value_bigEndian, hn, UInt16.ofNat_toNat]

theorem u32_of_stands {n : UInt32} (h : Stands (bigEndian 4 n.toNat) buf pos) :
    u32 buf pos = .ok (n, pos + 4) := by
  have hn : n.toNat % 256 ^ 4 = n.toNat := Nat.mod_eq_of_lt n.toNat_lt
  rw [u32, bind_apply, value_of_stands h]
  simp only [pure_apply, value_bigEndian, hn, UInt32.ofNat_toNat]

end Reader

end DnsResponder
