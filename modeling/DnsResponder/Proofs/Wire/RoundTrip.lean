import DnsResponder.Proofs.Wire.Writing

/-!
# Messages and datagrams

A message can be written when its declarations are true, and what is written is read
back, except that the header has less room for three of its numbers than their type
has. Those are narrowed to the bits that are sent.

The other way round there is nothing to narrow. Whatever layout a datagram has, a
message that was read from it declares the truth and has no number that is too wide,
since both were taken from the datagram itself. So a message that came in can always
go out again, and every datagram written for it holds the same message.

A datagram that was written and then lost its end holds no message at all, and the only
thing that is wrong with it is that octets are missing.
-/

namespace DnsResponder

/-! ## What can be written -/

/-- Every declaration in the message is true. -/
structure Message.Honest (m : Message) : Prop where
  questions : m.header.questionCount.toNat = m.questions.length
  answers : m.header.answerCount.toNat = m.answers.length
  authorities : m.header.authorityCount.toNat = m.authorities.length
  additionals : m.header.additionalCount.toNat = m.additionals.length
  /-- Each record gives the length of its data. -/
  records : ∀ r ∈ m.answers ++ m.authorities ++ m.additionals, r.declared.toNat = r.data.size

/-- Two checks in a row pass when both do. -/
theorem check_bind_eq_ok_iff {x y : Except EncodeError Unit} :
    (x >>= fun _ => y) = .ok () ↔ x = .ok () ∧ y = .ok () := by
  rcases x with e | ⟨⟩
  · simp [bind, Except.bind]
  · simp [bind, Except.bind]

theorem checkCount_eq_ok_iff {which : MessageSection} {declared : UInt16} {actual : Nat} :
    checkCount which declared actual = .ok () ↔ declared.toNat = actual := by
  unfold checkCount
  split
  · simp_all
  · simp_all

theorem Record.check_eq_ok_iff {r : Record} : r.check = .ok () ↔ r.Honest := by
  unfold Record.check
  split
  · simp_all
  · simp_all

theorem forM_check_eq_ok_iff {rs : List Record} :
    rs.forM Record.check = .ok () ↔ ∀ r ∈ rs, r.Honest := by
  induction rs with
  | nil => simp [pure, Except.pure]
  | cons r rs ih =>
      show (r.check >>= fun _ => rs.forM Record.check) = .ok () ↔ _
      rw [check_bind_eq_ok_iff, ih, Record.check_eq_ok_iff, List.forall_mem_cons]

theorem Message.check_eq_ok_iff {m : Message} : m.check = .ok () ↔ m.Honest := by
  unfold Message.check
  rw [check_bind_eq_ok_iff, check_bind_eq_ok_iff, check_bind_eq_ok_iff, check_bind_eq_ok_iff,
    checkCount_eq_ok_iff, checkCount_eq_ok_iff, checkCount_eq_ok_iff, checkCount_eq_ok_iff,
    forM_check_eq_ok_iff]
  refine ⟨fun h => ?_, fun h => ?_⟩
  · obtain ⟨h1, h2, h3, h4, h5⟩ := h
    exact ⟨h1, h2, h3, h4, h5⟩
  · obtain ⟨h1, h2, h3, h4, h5⟩ := h
    exact ⟨h1, h2, h3, h4, h5⟩

/-- Writing succeeds exactly on honest messages, and then the writer's octets are the datagram. -/
theorem encode_eq_ok_iff {compress : Bool} {m : Message} {d : Bytes} :
    encode compress m = .ok d ↔ m.Honest ∧ d = (Writer.message compress {} m).bytes := by
  rw [← Message.check_eq_ok_iff]
  unfold encode
  rcases m.check with e | ⟨⟩
  · simp [bind, Except.bind]
  · simp [bind, Except.bind, pure, Except.pure, eq_comm]

/-! ## The header -/

namespace Header

/-- The header as far as it is sent: four bits of `opcode` and of `rcode`, three of `z`. -/
def narrow (h : Header) : Header :=
  { h with opcode := h.opcode % 16, z := h.z % 8, rcode := h.rcode % 16 }

theorem flagWeight_eq (set : Bool) (weight : Nat) : flagWeight set weight = set.toNat * weight := by
  cases set
  · simp [flagWeight]
  · simp [flagWeight]

theorem flag_eq {word weight : Nat} {b : Bool} (h : word / weight % 2 = b.toNat) :
    Reader.flag word weight = b := by
  unfold Reader.flag
  rw [h]
  cases b
  · rfl
  · rfl

/-- A field of the flag word holds the low part of the octet that was put there. -/
theorem ofNat_eq_mod {o w : UInt8} {n : Nat} (h : n = o.toNat % w.toNat) : UInt8.ofNat n = o % w := by
  rw [h, ← UInt8.toNat_mod, UInt8.ofNat_toNat]

/-- The flag word is taken apart into what it was put together from. -/
theorem headerOf_flags (h : Header) :
    Reader.headerOf h.id (UInt16.ofNat h.flags).toNat h.questionCount h.answerCount
      h.authorityCount h.additionalCount = h.narrow := by
  have hqr := h.qr.toNat_le
  have haa := h.aa.toNat_le
  have htc := h.tc.toNat_le
  have hrd := h.rd.toNat_le
  have hra := h.ra.toNat_le
  have hword : (UInt16.ofNat h.flags).toNat = h.qr.toNat * 32768 + h.opcode.toNat % 16 * 2048
      + h.aa.toNat * 1024 + h.tc.toNat * 512 + h.rd.toNat * 256 + h.ra.toNat * 128
      + h.z.toNat % 8 * 16 + h.rcode.toNat % 16 := by
    rw [UInt16.toNat_ofNat']
    simp only [flags, flagWeight_eq]
    omega
  -- no two fields share a bit, so a quotient and a remainder find each of them again
  rw [hword]
  unfold Reader.headerOf narrow
  simp only [Header.mk.injEq, true_and, and_true]
  refine ⟨flag_eq ?qr, ofNat_eq_mod ?opcode, flag_eq ?aa, flag_eq ?tc, flag_eq ?rd, flag_eq ?ra,
    ofNat_eq_mod ?z, ofNat_eq_mod ?rcode⟩
  case opcode => show _ = h.opcode.toNat % 16; omega
  case z => show _ = h.z.toNat % 8; omega
  case rcode => show _ = h.rcode.toNat % 16; omega
  all_goals omega

end Header

/-! ## Writing and then reading -/

/-- The message as far as it is sent. -/
def Message.narrow (m : Message) : Message := { m with header := m.header.narrow }

namespace Writer.Writes

theorem header {w : Writer} (hw : w.Sound) (h : Header) :
    Writes Reader.header h.narrow w (w.header h) := by
  refine bind (u16 hw h.id) fun hw => bind (u16 hw (UInt16.ofNat h.flags)) fun hw => ?_
  refine bind (u16 hw h.questionCount) fun hw => bind (u16 hw h.answerCount) fun hw => ?_
  refine bind (u16 hw h.authorityCount) fun hw => bind (u16 hw h.additionalCount) fun hw => ?_
  rw [Header.headerOf_flags]
  exact pure hw h.narrow

/-- A section is read with the count that its header declares. -/
theorem counted {α : Type} {r : Reader α} {write : Writer → α → Writer} {w : Writer} {as : List α}
    {declared : UInt16} (hcount : declared.toNat = as.length)
    (hwrite : ∀ a ∈ as, ∀ w : Writer, w.Sound → Writes r a w (write w a)) (hw : w.Sound) :
    Writes (Reader.times r declared.toNat) as w (as.foldl write w) := by
  rw [hcount]
  exact times as hwrite hw

/-- An honest message reads back, section by section. -/
theorem message (compress : Bool) {m : Message} (hm : m.Honest) :
    Writes Reader.message m.narrow {} (Writer.message compress {} m) := by
  have hrecord : ∀ r ∈ m.answers ++ m.authorities ++ m.additionals, ∀ w : Writer, w.Sound →
      Writes Reader.record r w (w.record compress r) :=
    fun r hr w hw => record hw compress (hm.records r hr)
  unfold Writer.message Message.records
  rw [List.foldl_append, List.foldl_append]
  refine bind (header (sound_of_empty #[]) m.header) fun hw => ?_
  refine bind (counted hm.questions (fun q _ w hw => question hw compress q) hw) fun hw => ?_
  refine bind (counted hm.answers (fun r hr => hrecord r (by simp [hr])) hw) fun hw => ?_
  refine bind (counted hm.authorities (fun r hr => hrecord r (by simp [hr])) hw) fun hw => ?_
  refine bind (counted hm.additionals (fun r hr => hrecord r (by simp [hr])) hw) fun hw => ?_
  exact pure hw m.narrow

end Writer.Writes

/-- What the writer of a message leaves behind is read as the message, as far as it was sent. -/
theorem decode_message (compress : Bool) {m : Message} (hm : m.Honest) :
    decode (Writer.message compress {} m).bytes = .ok m.narrow := by
  have hreads := (Writer.Writes.message compress hm).reads #[]
  rw [Array.append_empty] at hreads
  exact decode_eq_ok_iff.mpr ⟨_, hreads⟩

/--
A message can be written, with or without pointers, exactly when its declarations are
true. The datagram then holds the message again, with its wide fields narrowed.
-/
theorem decode_encode (compress : Bool) (m : Message) :
    ((∃ d, encode compress m = .ok d) ↔ m.Honest) ∧
      ∀ d, encode compress m = .ok d → decode d = .ok m.narrow := by
  constructor
  · constructor
    · rintro ⟨d, hd⟩
      exact (encode_eq_ok_iff.mp hd).1
    · intro hm
      exact ⟨_, encode_eq_ok_iff.mpr ⟨hm, rfl⟩⟩
  · intro d hd
    obtain ⟨hm, rfl⟩ := encode_eq_ok_iff.mp hd
    exact decode_message compress hm

/-! ## Reading and then writing -/

namespace Reader

variable {α : Type} {r : Reader α} {buf : Bytes} {pos stop : Nat}

/-- As many values are read as were asked for, and each was read by the reader somewhere. -/
theorem times_eq_ok {n : Nat} {as : List α} (h : times r n buf pos = .ok (as, stop)) :
    as.length = n ∧ ∀ a ∈ as, ∃ start stop, r buf start = .ok (a, stop) := by
  induction n generalizing pos as with
  | zero =>
      rw [times_zero] at h
      cases h
      simp
  | succ n ih =>
      rw [times_succ] at h
      obtain ⟨a, mid, ha, h⟩ := bind_eq_ok_iff.mp h
      obtain ⟨as', mid', has, h⟩ := bind_eq_ok_iff.mp h
      cases h
      obtain ⟨hlen, hall⟩ := ih has
      refine ⟨by rw [List.length_cons, hlen], ?_⟩
      intro a' ha'
      rcases List.mem_cons.mp ha' with rfl | ha'
      · exact ⟨pos, mid, ha⟩
      · exact hall a' ha'

theorem size_of_bytes {n : Nat} {bs : Bytes} (h : bytes n buf pos = .ok (bs, stop)) :
    bs.size = n := by
  unfold bytes at h
  split at h
  · cases h
    rw [Array.size_extract]
    omega
  · cases h

/-- A record that was read declares the length of its data. -/
theorem honest_of_record {x : Record} (h : record buf pos = .ok (x, stop)) : x.Honest := by
  obtain ⟨_, _, _, h⟩ := bind_eq_ok_iff.mp h
  obtain ⟨_, _, _, h⟩ := bind_eq_ok_iff.mp h
  obtain ⟨_, _, _, h⟩ := bind_eq_ok_iff.mp h
  obtain ⟨_, _, _, h⟩ := bind_eq_ok_iff.mp h
  obtain ⟨declared, _, _, h⟩ := bind_eq_ok_iff.mp h
  obtain ⟨data, _, hdata, h⟩ := bind_eq_ok_iff.mp h
  cases h
  exact (size_of_bytes hdata).symm

/-- A header taken out of a flag word has no field that is wider than it is sent. -/
theorem narrow_headerOf (id : UInt16) (flags : Nat) (qs as ns rs : UInt16) :
    (headerOf id flags qs as ns rs).narrow = headerOf id flags qs as ns rs := by
  unfold headerOf Header.narrow
  simp only [Header.mk.injEq, true_and, and_true]
  refine ⟨(Header.ofNat_eq_mod ?opcode).symm, (Header.ofNat_eq_mod ?z).symm,
    (Header.ofNat_eq_mod ?rcode).symm⟩
  case opcode => rw [UInt8.toNat_ofNat']; show _ = _ % 16; omega
  case z => rw [UInt8.toNat_ofNat']; show _ = _ % 8; omega
  case rcode => rw [UInt8.toNat_ofNat']; show _ = _ % 16; omega

theorem narrow_of_header {h : Header} (hh : header buf pos = .ok (h, stop)) : h.narrow = h := by
  obtain ⟨_, _, _, hh⟩ := bind_eq_ok_iff.mp hh
  obtain ⟨_, _, _, hh⟩ := bind_eq_ok_iff.mp hh
  obtain ⟨_, _, _, hh⟩ := bind_eq_ok_iff.mp hh
  obtain ⟨_, _, _, hh⟩ := bind_eq_ok_iff.mp hh
  obtain ⟨_, _, _, hh⟩ := bind_eq_ok_iff.mp hh
  obtain ⟨_, _, _, hh⟩ := bind_eq_ok_iff.mp hh
  cases hh
  exact narrow_headerOf _ _ _ _ _ _

end Reader

/-- What was read is honest, and none of its fields is wider than it is sent. -/
theorem honest_of_decode {d : Bytes} {m : Message} (h : decode d = .ok m) :
    m.Honest ∧ m.narrow = m := by
  obtain ⟨stop, h⟩ := decode_eq_ok_iff.mp h
  obtain ⟨header, _, hheader, h⟩ := Reader.bind_eq_ok_iff.mp h
  obtain ⟨questions, _, hquestions, h⟩ := Reader.bind_eq_ok_iff.mp h
  obtain ⟨answers, _, hanswers, h⟩ := Reader.bind_eq_ok_iff.mp h
  obtain ⟨authorities, _, hauthorities, h⟩ := Reader.bind_eq_ok_iff.mp h
  obtain ⟨additionals, _, hadditionals, h⟩ := Reader.bind_eq_ok_iff.mp h
  cases h
  obtain ⟨hcount₁, -⟩ := Reader.times_eq_ok hquestions
  obtain ⟨hcount₂, hrecords₂⟩ := Reader.times_eq_ok hanswers
  obtain ⟨hcount₃, hrecords₃⟩ := Reader.times_eq_ok hauthorities
  obtain ⟨hcount₄, hrecords₄⟩ := Reader.times_eq_ok hadditionals
  -- each section was read with the count in the header, whatever that count is
  refine ⟨⟨hcount₁.symm, hcount₂.symm, hcount₃.symm, hcount₄.symm, ?_⟩, ?_⟩
  · intro r hr
    have hread : ∃ start stop, Reader.record d start = .ok (r, stop) := by
      rcases List.mem_append.mp hr with hr | hr
      · rcases List.mem_append.mp hr with hr | hr
        · exact hrecords₂ r hr
        · exact hrecords₃ r hr
      · exact hrecords₄ r hr
    obtain ⟨start, stop, hread⟩ := hread
    exact Reader.honest_of_record hread
  · unfold Message.narrow
    rw [Reader.narrow_of_header hheader]

/--
A message that was read from any datagram can be written, with or without pointers, and
what is written holds that message and no other. So reading it and writing it `again`, in
either way, gives what writing the message in that way gives.
-/
theorem encode_decode {d : Bytes} {m : Message} (h : decode d = .ok m) (compress again : Bool) :
    ∃ d', encode compress m = .ok d' ∧ decode d' = .ok m ∧
      (decode d').toOption.map (encode again) = some (encode again m) := by
  -- narrowing leaves the message as it is, so what is read back is the message itself
  obtain ⟨hm, hnarrow⟩ := honest_of_decode h
  have hd := decode_message compress hm
  rw [hnarrow] at hd
  refine ⟨_, encode_eq_ok_iff.mpr ⟨hm, rfl⟩, hd, ?_⟩
  rw [hd]
  rfl

/-- A success is told by its value. -/
theorem eq_ok_of_toOption {ε α : Type} {x : Except ε α} {a : α} (h : x.toOption = some a) :
    x = .ok a := by
  cases x with
  | error e => cases h
  | ok b => cases h; rfl

/--
A layout that is never written here: the first name is the label `a` and then a pointer
forwards to the second name, which is `b`. An octet trails the last question.
-/
def forwardPointer : Bytes :=
  #[0, 1, 1, 0, 0, 2, 0, 0, 0, 0, 0, 0, 1, 97, 192, 20, 0, 1, 0, 1, 1, 98, 0, 0, 16, 0, 1, 255]

/-- The message in `forwardPointer`. -/
def forwardPointerMessage : Message :=
  let a : Label := ⟨[97], by decide, by decide, by simp⟩
  let b : Label := ⟨[98], by decide, by decide, by simp⟩
  { header := { id := 1, rd := true, questionCount := 2 }
    questions := [⟨⟨[a, b], by decide⟩, 1, 1⟩, ⟨⟨[b], by decide⟩, 16, 1⟩] }

theorem encode_decode_forwardPointer :
    decode forwardPointer = .ok forwardPointerMessage ∧
      ∃ d', encode true forwardPointerMessage = .ok d' ∧ decode d' = .ok forwardPointerMessage ∧
        (decode d').toOption.map (encode false) = some (encode false forwardPointerMessage) := by
  have h : decode forwardPointer = .ok forwardPointerMessage :=
    eq_ok_of_toOption (by decide +kernel)
  exact ⟨h, encode_decode h true false⟩

/-! ## Writing and then losing the end -/

/--
Wherever the end of a datagram that was written is torn off, with or without pointers, reading
what is left reports that octets are missing at its end. It reports nothing else and finds no
message.
-/
theorem decode_torn {compress : Bool} {m : Message} {part more : Bytes}
    (h : encode compress m = .ok (part ++ more)) (hmore : more ≠ #[]) :
    ∃ offset needed, decode part = .error (.truncated offset needed part.size) := by
  obtain ⟨hm, hbytes⟩ := encode_eq_ok_iff.mp h
  have hcut : part.size < (Writer.message compress {} m).bytes.size := by
    rw [← hbytes, Array.size_append]
    exact Nat.lt_add_of_pos_right (Array.size_pos_iff.mpr hmore)
  obtain ⟨offset, needed, hread⟩ :=
    (Writer.Writes.message compress hm).torn part more hbytes.symm (Nat.zero_le _) hcut
  exact ⟨offset, needed, decode_eq_error_iff.mpr hread⟩

/-- Two questions about the name `a`. -/
def askedTwice : Message :=
  let a : Label := ⟨[97], by decide, by decide, by simp⟩
  { header := { id := 1, rd := true, questionCount := 2 }
    questions := [⟨⟨[a], by decide⟩, 1, 1⟩, ⟨⟨[a], by decide⟩, 16, 1⟩] }

/-- The datagram of `askedTwice`, in which the second name is a pointer to the first. -/
def askedTwiceDatagram : Bytes :=
  #[0, 1, 1, 0, 0, 2, 0, 0, 0, 0, 0, 0, 1, 97, 0, 0, 1, 0, 1, 192, 12, 0, 16, 0, 1]

/-- The end is torn off inside the pointer. -/
theorem decode_torn_pointer :
    encode true askedTwice = .ok (askedTwiceDatagram.take 20 ++ askedTwiceDatagram.drop 20) ∧
      askedTwiceDatagram.drop 20 ≠ #[] ∧
      ∃ offset needed, decode (askedTwiceDatagram.take 20) =
        .error (.truncated offset needed (askedTwiceDatagram.take 20).size) := by
  have h : encode true askedTwice = .ok (askedTwiceDatagram.take 20 ++ askedTwiceDatagram.drop 20) :=
    eq_ok_of_toOption (by decide +kernel)
  have hmore : askedTwiceDatagram.drop 20 ≠ #[] := by decide +kernel
  exact ⟨h, hmore, decode_torn h hmore⟩

end DnsResponder
