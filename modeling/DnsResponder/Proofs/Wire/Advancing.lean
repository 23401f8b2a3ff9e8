import DnsResponder.Proofs.Wire.Trail
import Mathlib.Data.List.Induction

/-!
# A cursor over a datagram

A reader answers with the place behind what it has read, and with no place at all when it
fails. Whoever reads with a single cursor moves it as it goes along, and a failure leaves it
wherever it has come by then. Of two octets that are read one by one, the second may be
missing, and then the cursor stands between them. Besides, places are numbers of a machine.
They do not add up without bound, and a piece that is cut out of a datagram has to be there.

There are five reads of which all others are made, and none of them goes wrong. Fixed fields
are taken in one piece, whose end is known to be there, and a name is chased with a place
apart from the cursor, which is set when the name has ended. So the cursor is moved by a
success and by nothing else. It then stands further on, still in the datagram, and what it has
passed over is what was read.
-/

namespace DnsResponder

/-- How many places a machine can tell apart. -/
def addressLimit : Nat := 2 ^ 64

/-- The sum of two addresses, if there is such an address. -/
def addressSum? (a b : Nat) : Option Nat := if a + b < addressLimit then some (a + b) else none

/-- The piece of a datagram from `start` up to `stop`, if there is one. -/
def slice? (buf : Bytes) (start stop : Nat) : Option Bytes :=
  if start ≤ stop ∧ stop ≤ buf.size then some (buf.extract start stop) else none

/--
Reads with one cursor. Where a failure has left it is part of what happened, and nothing at all
happened where a piece was cut out that is not there.
-/
def Moving (α : Type) : Type := Bytes → Nat → Option (Except DecodeError α × Nat)

namespace Moving

variable {α β : Type}

instance : Monad Moving where
  pure a := fun _ pos => some (.ok a, pos)
  bind m f := fun buf pos =>
    match m buf pos with
    | some (.ok a, pos') => f a buf pos'
    | some (.error e, pos') => some (.error e, pos')
    | none => none

theorem bind_apply (m : Moving α) (f : α → Moving β) (buf : Bytes) (pos : Nat) :
    (m >>= f) buf pos =
      match m buf pos with
      | some (.ok a, pos') => f a buf pos'
      | some (.error e, pos') => some (.error e, pos')
      | none => none := rfl

/-- The next `n` octets. The cursor is moved behind them once it is known that they are there. -/
def bytes (n : Nat) : Moving Bytes := fun buf pos =>
  match (addressSum? pos n).filter (· ≤ buf.size) with
  | some stop => (slice? buf pos stop).map fun piece => (.ok piece, stop)
  | none => some (.error (.truncated pos n buf.size), pos)

/-- The next octet. -/
def u8 : Moving UInt8 := do return UInt8.ofNat (Reader.value (← bytes 1))

/-- The next two octets as a number. -/
def u16 : Moving UInt16 := do return UInt16.ofNat (Reader.value (← bytes 2))

/-- The next four octets as a number. -/
def u32 : Moving UInt32 := do return UInt32.ofNat (Reader.value (← bytes 4))

/-- Steps to the end of a chase. Meanwhile the cursor stays at `pos`, and in the end it is set. -/
def chase (buf : Bytes) (origin : Nat) (c : Chase) (pos : Nat) : Except DecodeError Name × Nat :=
  match _h : c.step buf origin with
  | .error e => (.error e, pos)
  | .ok (.ended name stop) => (.ok name, stop)
  | .ok (.onward c') => chase buf origin c' pos
termination_by c.room
decreasing_by exact Chase.room_step ‹_›

/-- The next name. -/
def name : Moving Name := fun buf pos => some (chase buf pos (Chase.start pos) pos)

/-! ## What stays where it was -/

/-- A cursor at `pos` goes where a reader ends, and stays if there is no such place. -/
def settle (pos : Nat) : Except DecodeError (α × Nat) → Except DecodeError α × Nat
  | .ok (a, stop) => (.ok a, stop)
  | .error e => (.error e, pos)

/-- Nothing but a success of the reader moves the cursor, in any datagram that a machine can hold. -/
def Settles (m : Moving α) (r : Reader α) : Prop :=
  ∀ buf pos, buf.size < addressLimit → m buf pos = some (settle pos (r buf pos))

theorem settles_bytes (n : Nat) : Settles (bytes n) (Reader.bytes n) := by
  intro buf pos hbuf
  unfold bytes Reader.bytes addressSum?
  by_cases hend : pos + n ≤ buf.size
  · have hslice : pos ≤ pos + n ∧ pos + n ≤ buf.size := ⟨Nat.le_add_right pos n, hend⟩
    rw [if_pos (Nat.lt_of_le_of_lt hend hbuf), if_pos hend, Option.filter_some,
      if_pos (decide_eq_true hend)]
    dsimp only
    rw [slice?, if_pos hslice]
    rfl
  · -- a sum that is no address would have been too large as well
    have hnone : (if pos + n < addressLimit then some (pos + n) else none).filter
        (· ≤ buf.size) = none := by
      split
      · rw [Option.filter_some, if_neg (by simpa using hend)]
      · rfl
    rw [hnone, if_neg hend]
    rfl

/-- To change the value of one read moves nothing. A second read would not be so harmless. -/
theorem Settles.map {m : Moving α} {r : Reader α} (h : Settles m r) (f : α → β) :
    Settles (do return f (← m)) (do return f (← r)) := by
  intro buf pos hbuf
  rw [bind_apply, Reader.bind_apply, h buf pos hbuf]
  cases r buf pos with
  | error e => rfl
  | ok found => rfl

theorem chase_step (buf : Bytes) (origin : Nat) (c : Chase) (pos : Nat) :
    chase buf origin c pos =
      match c.step buf origin with
      | .error e => (.error e, pos)
      | .ok (.ended name stop) => (.ok name, stop)
      | .ok (.onward c') => chase buf origin c' pos := by
  rw [chase]
  split
  · rename_i hstep; rw [hstep]
  · rename_i hstep; rw [hstep]
  · rename_i hstep; rw [hstep]

theorem chase_eq (buf : Bytes) (origin : Nat) (c : Chase) (pos : Nat) :
    chase buf origin c pos = settle pos (c.run buf origin) := by
  induction c using Chase.run.induct buf origin with
  | case1 c e hstep =>
      rw [Chase.run_of_error hstep, chase_step, hstep]
      rfl
  | case2 c name stop hstep =>
      rw [Chase.run_of_ended hstep, chase_step, hstep]
      rfl
  | case3 c c' hstep ih => rw [Chase.run_of_onward hstep, ← ih, chase_step, hstep]

theorem settles_name : Settles name Reader.name := by
  intro buf pos _
  unfold name Reader.name
  rw [chase_eq]

end Moving

/-! ## What is passed over -/

namespace Reader

variable {α β : Type}

/-- The octets of a number are those that it was read from. -/
theorem bigEndian_value (os : List UInt8) : bigEndian os.length (value os.toArray) = os := by
  induction os using List.reverseRecOn with
  | nil => rfl
  | append_singleton os o ih =>
      have ho := o.toNat_lt
      have hhigh : (value os.toArray * 256 + o.toNat) / 256 = value os.toArray := by omega
      have hlow : UInt8.ofNat (value os.toArray * 256 + o.toNat) = o := by
        rw [← UInt8.toNat_inj, UInt8.toNat_ofNat']
        omega
      rw [value_concat, List.length_append, List.length_singleton, bigEndian, hhigh, hlow, ih]

theorem value_lt (os : List UInt8) : value os.toArray < 256 ^ os.length := by
  induction os using List.reverseRecOn with
  | nil => exact Nat.one_pos
  | append_singleton os o ih =>
      have ho := o.toNat_lt
      rw [value_concat, List.length_append, List.length_singleton, Nat.pow_succ]
      omega

/-- The reader takes the next `n` octets if they are there, and they are those of its value. -/
structure Takes (r : Reader α) (n : Nat) (octets : α → List UInt8) : Prop where
  error_iff : ∀ buf pos, (∃ e, r buf pos = .error e) ↔ buf.size < pos + n
  passed : ∀ {buf pos a stop}, r buf pos = .ok (a, stop) →
    stop = pos + n ∧ octets a = (buf.extract pos stop).toList

theorem takes_bytes (n : Nat) : Takes (bytes n) n Array.toList where
  error_iff buf pos := by
    unfold bytes
    by_cases hend : pos + n ≤ buf.size
    · rw [if_pos hend]
      simpa using hend
    · rw [if_neg hend]
      simpa using hend
  passed {buf pos a stop} h := by
    unfold bytes at h
    split at h
    · cases h
      exact ⟨rfl, rfl⟩
    · cases h

theorem Takes.inside {r : Reader α} {n : Nat} {octets : α → List UInt8} (h : Takes r n octets)
    {buf : Bytes} {pos stop : Nat} {a : α} (hok : r buf pos = .ok (a, stop)) :
    pos + n ≤ buf.size := by
  by_contra hout
  obtain ⟨e, he⟩ := (h.error_iff buf pos).mpr (Nat.lt_of_not_le hout)
  cases hok.symm.trans he

theorem Takes.map {r : Reader α} {n : Nat} {octets : α → List UInt8} (h : Takes r n octets)
    {f : α → β} {octets' : β → List UInt8}
    (hf : ∀ a, (octets a).length = n → octets' (f a) = octets a) :
    Takes (do return f (← r)) n octets' where
  error_iff buf pos := by
    rw [← h.error_iff buf pos, bind_apply]
    cases r buf pos with
    | error e => simp
    | ok found => simp [pure_apply]
  passed {buf pos b stop} hok := by
    obtain ⟨a, mid, hr, hpure⟩ := bind_eq_ok_iff.mp hok
    cases hpure
    have hinside := h.inside hr
    obtain ⟨hstop, hoctets⟩ := h.passed hr
    refine ⟨hstop, (hf a ?_).trans hoctets⟩
    rw [hoctets, Array.length_toList, Array.size_extract]
    omega

/-- A number is read from as many octets as its big-endian form has. -/
theorem takes_number {count : Nat} {ofNat : Nat → α} {toNat : α → Nat}
    (h : ∀ v < 256 ^ count, toNat (ofNat v) = v) :
    Takes (do return ofNat (value (← bytes count))) count fun n => bigEndian count (toNat n) := by
  refine (takes_bytes count).map fun os hlen => ?_
  have hlt := value_lt os.toList
  have hvalue := bigEndian_value os.toList
  rw [hlen] at hlt hvalue
  rw [h _ hlt]
  exact hvalue

end Reader

theorem Trail.le_stop {buf : Bytes} {pos jumps stop : Nat} {labels : List (List UInt8)}
    (h : Trail buf pos labels jumps stop) : pos ≤ stop := by
  induction h with
  | stop _ => omega
  | label _ _ ih => omega
  | jump _ _ _ _ _ => omega

theorem Trail.stop_le_size {buf : Bytes} {pos jumps stop : Nat} {labels : List (List UInt8)}
    (h : Trail buf pos labels jumps stop) : stop ≤ buf.size := by
  induction h with
  | stop hzero => exact hzero.le_size
  | label _ _ ih => exact ih
  | jump hs _ _ _ _ => exact hs.le_size

/-- A name ends in the datagram and not in front of where it starts. -/
theorem Reader.stop_of_name {buf : Bytes} {pos stop : Nat} {n : Name}
    (h : Reader.name buf pos = .ok (n, stop)) : pos ≤ stop ∧ stop ≤ buf.size := by
  obtain ⟨labels, jumps, stop', htrail, -, hstop, -⟩ :=
    Chase.exists_trail_of_run (c := Chase.start pos) (Nat.zero_le _) h
  have hstop : stop = stop' := hstop
  rw [hstop]
  exact ⟨htrail.le_stop, htrail.stop_le_size⟩

/-! ## Readings -/

/-- The reads of which all others are made. -/
inductive Read where
  | u8 | u16 | u32
  | bytes (n : Nat)
  | name
deriving DecidableEq, Repr

namespace Read

/-- What is read. -/
def Value : Read → Type
  | u8 => UInt8
  | u16 => UInt16
  | u32 => UInt32
  | bytes _ => Bytes
  | name => Name

/-- Reads from a place. -/
def reader : (read : Read) → Reader read.Value
  | u8 => Reader.u8
  | u16 => Reader.u16
  | u32 => Reader.u32
  | bytes n => Reader.bytes n
  | name => Reader.name

/-- Reads with the cursor. -/
def moving : (read : Read) → Moving read.Value
  | u8 => Moving.u8
  | u16 => Moving.u16
  | u32 => Moving.u32
  | bytes n => Moving.bytes n
  | name => Moving.name

/-- How many octets are read, if that does not depend on what they are. -/
def size? : Read → Option Nat
  | u8 => some 1
  | u16 => some 2
  | u32 => some 4
  | bytes n => some n
  | name => none

/-- What is read, in octets. -/
def octets : (read : Read) → read.Value → List UInt8
  | u8, n => bigEndian 1 (UInt8.toNat n)
  | u16, n => bigEndian 2 (UInt16.toNat n)
  | u32, n => bigEndian 4 (UInt32.toNat n)
  | bytes _, os => Array.toList os
  | name, n => Name.wire n

theorem settles : (read : Read) → Moving.Settles read.moving read.reader
  | u8 => (Moving.settles_bytes 1).map _
  | u16 => (Moving.settles_bytes 2).map _
  | u32 => (Moving.settles_bytes 4).map _
  | bytes n => Moving.settles_bytes n
  | name => Moving.settles_name

theorem takes {read : Read} {n : Nat} (h : read.size? = some n) :
    read.reader.Takes n read.octets := by
  cases read with
  | u8 =>
      cases h
      exact Reader.takes_number fun v hv => UInt8.toNat_ofNat_of_lt' hv
  | u16 =>
      cases h
      exact Reader.takes_number fun v hv => UInt16.toNat_ofNat_of_lt' hv
  | u32 =>
      cases h
      exact Reader.takes_number fun v hv => UInt32.toNat_ofNat_of_lt' hv
  | bytes m =>
      cases h
      exact Reader.takes_bytes n
  | name => cases h

/-- A read that succeeds ends in the datagram and not in front of where it starts. -/
theorem stop_of_reader {read : Read} {buf : Bytes} {pos stop : Nat} {v : read.Value}
    (h : read.reader buf pos = .ok (v, stop)) : pos ≤ stop ∧ stop ≤ buf.size := by
  cases hsize : read.size? with
  | some n =>
      have hinside := (takes hsize).inside h
      have hstop := ((takes hsize).passed h).1
      omega
  | none =>
      cases read with
      | name => exact Reader.stop_of_name h
      | _ => cases hsize

end Read

/-- How many octets lie ahead of a cursor. -/
def remaining (buf : Bytes) (pos : Nat) : Nat := buf.size - pos

/-- One read: where the cursor stood before it, what it answered and where it left the cursor. -/
structure Reading where
  read : Read
  before : Nat
  answer : Except DecodeError read.Value
  after : Nat

/-- Reads one after the other with one cursor, whether they fail or not. -/
def readings (buf : Bytes) (pos : Nat) : List Read → Option (List Reading)
  | [] => some []
  | read :: reads =>
      (read.moving buf pos).bind fun (answer, after) =>
        (readings buf after reads).map (⟨read, pos, answer, after⟩ :: ·)

/-- What a read does to a cursor and what it makes of what lies ahead. -/
structure Reading.Orderly (t : Reading) (buf : Bytes) : Prop where
  /-- The answer is the one of the reader at that place. -/
  settled : (t.answer, t.after) = Moving.settle t.before (t.read.reader buf t.before)
  forwards : t.before ≤ t.after
  inside : t.after ≤ buf.size
  split_before : t.before + remaining buf t.before = buf.size
  split_after : t.after + remaining buf t.after = buf.size
  unmoved : ∀ e, t.answer = .error e → t.after = t.before
  /-- Octets are refused if and only if they are not there. -/
  error_iff : ∀ n, t.read.size? = some n →
    ((∃ e, t.answer = .error e) ↔ remaining buf t.before < n)
  passed : ∀ n v, t.read.size? = some n → t.answer = .ok v →
    t.after = t.before + n ∧ t.read.octets v = (buf.extract t.before t.after).toList

/-- A read is orderly if a success of the reader moves the cursor and nothing else does. -/
theorem Reading.Orderly.of_settled {t : Reading} {buf : Bytes} (hbefore : t.before ≤ buf.size)
    (hsettled : (t.answer, t.after) = Moving.settle t.before (t.read.reader buf t.before)) :
    t.Orderly buf := by
  have hsplit : ∀ pos ≤ buf.size, pos + remaining buf pos = buf.size :=
    fun pos hpos => Nat.add_sub_cancel' hpos
  have herror : ∀ n, t.read.size? = some n →
      ((∃ e, t.read.reader buf t.before = .error e) ↔ remaining buf t.before < n) := by
    intro n hn
    rw [(Read.takes hn).error_iff buf t.before]
    unfold remaining
    omega
  cases hread : t.read.reader buf t.before with
  | error e =>
      have hmoved := hsettled
      rw [hread] at hmoved
      obtain ⟨hanswer, hafter⟩ := Prod.mk.inj hmoved
      refine ⟨hsettled, by omega, by omega, hsplit _ hbefore, hsplit _ (by omega), fun _ _ => hafter,
        fun n hn => ?_, fun n v _ hok => ?_⟩
      · rw [← herror n hn, hread, hanswer]
        simp
      · cases hanswer.symm.trans hok
  | ok found =>
      obtain ⟨v, stop⟩ := found
      have hmoved := hsettled
      rw [hread] at hmoved
      obtain ⟨hanswer, rfl⟩ := Prod.mk.inj hmoved
      obtain ⟨hle, hstop⟩ := Read.stop_of_reader hread
      refine ⟨hsettled, hle, hstop, hsplit _ hbefore, hsplit _ hstop, fun e he => ?_,
        fun n hn => ?_, fun n w hn hok => ?_⟩
      · cases hanswer.symm.trans he
      · rw [← herror n hn, hread, hanswer]
        simp
      · cases hanswer.symm.trans hok
        exact (Read.takes hn).passed hread

/-- Every read is orderly, and so are the ones behind it, from wherever it has left the cursor. -/
theorem exists_readings {buf : Bytes} (hbuf : buf.size < addressLimit) (reads : List Read) :
    ∀ pos ≤ buf.size, ∃ ts, readings buf pos reads = some ts ∧ ts.map Reading.read = reads ∧
      ts.map Reading.before = (pos :: ts.map Reading.after).take reads.length ∧
      (pos :: ts.map Reading.after).Pairwise (· ≤ ·) ∧ ∀ t ∈ ts, t.Orderly buf := by
  induction reads with
  | nil =>
      intro pos _
      exact ⟨[], rfl, rfl, rfl, List.pairwise_singleton _ _, List.forall_mem_nil _⟩
  | cons read reads ih =>
      intro pos hpos
      let settled := Moving.settle pos (read.reader buf pos)
      have horder : Reading.Orderly ⟨read, pos, settled.1, settled.2⟩ buf := .of_settled hpos rfl
      obtain ⟨ts, hts, hreads, hbefore, hordered, hall⟩ := ih settled.2 horder.inside
      refine ⟨⟨read, pos, settled.1, settled.2⟩ :: ts, ?_, ?_, ?_, ?_, ?_⟩
      · rw [readings, read.settles buf pos hbuf, Option.bind_some]
        show (readings buf settled.2 reads).map _ = _
        rw [hts]
        rfl
      · rw [List.map_cons, hreads]
      · rw [List.map_cons, hbefore]
        rfl
      · have hahead := (List.pairwise_cons.mp hordered).1
        refine List.pairwise_cons.mpr ⟨List.forall_mem_cons.mpr ⟨horder.forwards, ?_⟩, hordered⟩
        intro p hp
        exact Nat.le_trans horder.forwards (hahead p hp)
      · exact List.forall_mem_cons.mpr ⟨horder, hall⟩

/--
However a datagram that a machine can hold is read, the cursor stays inside it and never goes
back. No read asks for a piece that is not there, and one that fails leaves the cursor where it
was, even if it has followed pointers before. Of fixed fields those fail that are longer than
what lies ahead, and the others are exactly what they have passed over.
-/
theorem cursor_stays_inside (buf : Bytes) (hbuf : buf.size < addressLimit) (reads : List Read) :
    ∃ ts, readings buf 0 reads = some ts ∧ ts.map Reading.read = reads ∧
      ts.map Reading.before = (0 :: ts.map Reading.after).take reads.length ∧
      (0 :: ts.map Reading.after).Pairwise (· ≤ ·) ∧ ∀ t ∈ ts, t.Orderly buf :=
  exists_readings hbuf reads 0 (Nat.zero_le _)

/-- Two pointers that lead to each other are followed and refused where they were met first. -/
theorem cursor_stays_inside_mutualPointers :
    let buf : Bytes := #[0xC0, 0x02, 0xC0, 0x00, 0x05]
    let reads : List Read := [.name, .bytes (2 ^ 64 - 1), .u16, .u32, .bytes 3, .u8]
    buf.size < addressLimit ∧
      (readings buf 0 reads).map (List.map Reading.after) = some [0, 0, 2, 2, 5, 5] ∧
      ∃ ts, readings buf 0 reads = some ts ∧ ts.map Reading.read = reads ∧
        ts.map Reading.before = (0 :: ts.map Reading.after).take reads.length ∧
        (0 :: ts.map Reading.after).Pairwise (· ≤ ·) ∧ ∀ t ∈ ts, t.Orderly buf :=
  ⟨by decide, by decide +kernel, cursor_stays_inside _ (by decide) _⟩

end DnsResponder
