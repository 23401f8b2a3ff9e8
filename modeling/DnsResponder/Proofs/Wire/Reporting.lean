import DnsResponder.Proofs.Wire.Trail
import DnsResponder.Wire.Decode

/-!
# What errors say

An error names places, octets and sizes. `DecodeError.Tells` spells out what each error claims
about the datagram, and the main statement is that it is so whenever the error is reported.

Two things have to be followed to where the error arises. Between the names, the position never
leaves the datagram, so octets that are missing are missing at its end. Inside a name, the chase
is somewhere on a `Way` that started where the name did: it has come by certain labels and jumped
to certain targets, and these are what it remembers. `Chase.Underway` says that, and a step keeps
it. Errors about a name are then read off the way that the last step goes.

Which places are the starts of names is told by the entries that were read before them. A pointer
also leads to a place where a name goes on, but a name that is too long is reported with the place
where its entry begins.
-/

namespace DnsResponder

/--
The walk from `start` to a place: the labels on the way, and the targets jumped to, the latest
first. Unlike a trail it need not have come to an end.
-/
inductive Way (buf : Bytes) (start : Nat) : List (List UInt8) → List Nat → Nat → Prop where
  | here : Way buf start [] [] start
  /-- The walk goes on behind a label. -/
  | label {labels : List (List UInt8)} {targets : List Nat} {pos : Nat} {octets : List UInt8}
      (way : Way buf start labels targets pos) (h : Counted octets buf pos) :
      Way buf start (labels ++ [octets]) targets (pos + 1 + octets.length)
  /-- The walk goes on at the target of a pointer. -/
  | jump {labels : List (List UInt8)} {targets : List Nat} {pos : Nat} {head low : UInt8}
      (way : Way buf start labels targets pos) (h : Stands [head, low] buf pos)
      (hmark : 192 ≤ head.toNat) (hin : pointerTarget head low < buf.size) :
      Way buf start labels (pointerTarget head low :: targets) (pointerTarget head low)

/-- The records of all three sections as the header counts them. -/
def Header.recordCount (h : Header) : Nat :=
  h.answerCount.toNat + h.authorityCount.toNat + h.additionalCount.toNat

/-- Where the datagram goes on after the header `h` and so many questions and records. -/
inductive Reached (buf : Bytes) (h : Header) : (questions records pos : Nat) → Prop where
  | header {pos : Nat} (hread : Reader.header buf 0 = .ok (h, pos)) : Reached buf h 0 0 pos
  | question {i pos stop : Nat} {q : Question} (before : Reached buf h i 0 pos)
      (hmore : i < h.questionCount.toNat) (hread : Reader.question buf pos = .ok (q, stop)) :
      Reached buf h (i + 1) 0 stop
  | record {j pos stop : Nat} {r : Record} (before : Reached buf h h.questionCount.toNat j pos)
      (hmore : j < h.recordCount) (hread : Reader.record buf pos = .ok (r, stop)) :
      Reached buf h h.questionCount.toNat (j + 1) stop

/-- The next question or record, and so the name in it, starts at `pos`. -/
def NameStart (buf : Bytes) (pos : Nat) : Prop :=
  ∃ h questions records, Reached buf h questions records pos ∧
    questions + records < h.questionCount.toNat + h.recordCount

/-- What the error says is so in `buf`, where names start at the places `IsStart`. -/
def DecodeError.Tells (buf : Bytes) (IsStart : Nat → Prop) : DecodeError → Prop
  | truncated offset needed size => size = buf.size ∧ offset ≤ size ∧ size < offset + needed
  | pointerOutOfRange offset target size =>
      size = buf.size ∧ size ≤ target ∧
        ∃ start labels targets, IsStart start ∧ Way buf start labels targets offset ∧
          ∃ head low, Stands [head, low] buf offset ∧ 192 ≤ head.toNat ∧
            pointerTarget head low = target
  | labelLength offset head =>
      buf[offset]? = some head ∧ 64 ≤ head.toNat ∧ head.toNat < 192 ∧
        ∃ start labels targets, IsStart start ∧ Way buf start labels targets offset
  | foreignLabel offset =>
      ∃ start labels targets, IsStart start ∧ Way buf start labels targets offset ∧
        ∃ octets, Counted octets buf offset ∧ ∃ o ∈ octets, ¬o < 128
  | longName offset =>
      IsStart offset ∧ ∃ labels targets pos, Way buf offset labels targets pos ∧
        maxNameLength < trailLength labels
  | pointerCycle offset =>
      ∃ start labels targets, IsStart start ∧ Way buf start labels targets offset ∧
        ∃ head low, Stands [head, low] buf offset ∧ 192 ≤ head.toNat ∧
          (pointerTarget head low ∈ targets ∨ targets.length = maxJumps)

theorem trailLength_concat (labels : List (List UInt8)) (octets : List UInt8) :
    trailLength (labels ++ [octets]) = trailLength labels + octets.length + 1 := by
  induction labels with
  | nil =>
      rw [List.nil_append, trailLength_cons, trailLength_nil]
      omega
  | cons _ labels ih =>
      rw [List.cons_append, trailLength_cons, trailLength_cons, ih]
      omega

/-! ## Names -/

namespace Chase

/-- A chase that started at `start` has come this far. -/
structure Underway (c : Chase) (buf : Bytes) (start : Nat) : Prop where
  /-- The chase remembers the labels and the targets on its way. -/
  way : Way buf start (c.name.labels.map Label.octets) c.visited c.pos
  pos_le : c.pos ≤ buf.size
  resume_le : ∀ stop, c.resume? = some stop → stop ≤ buf.size
  /-- The running length is the length of the name. -/
  length_eq : c.length = c.name.wireLength
  visited_le : c.visited.length ≤ maxJumps

variable {c c' : Chase} {buf : Bytes} {start pos : Nat}

theorem underway_start (h : pos ≤ buf.size) : (Chase.start pos).Underway buf pos where
  way := .here
  pos_le := h
  resume_le _ hresume := by cases hresume
  length_eq := rfl
  visited_le := Nat.zero_le _

namespace Underway

theorem trailLength_eq (h : c.Underway buf start) :
    trailLength (c.name.labels.map Label.octets) = c.length := by
  rw [trailLength_map_octets, h.length_eq]
  rfl

/-- Where the datagram goes on lies in the datagram, if the place next to the chase does. -/
theorem resume_getD_le (h : c.Underway buf start) (hpos : pos ≤ buf.size) :
    c.resume?.getD pos ≤ buf.size := by
  cases hresume : c.resume? with
  | none => exact hpos
  | some stop => exact h.resume_le stop hresume

/-- A step that goes on leaves the chase underway. -/
theorem step (h : c.Underway buf start) (hstep : c.step buf start = .ok (.onward c')) :
    c'.Underway buf start := by
  cases step_eq_iff.mp hstep with
  | @labelled l name hcounted hfits hname =>
      have hlabels := Name.push_eq_ok hname
      refine ⟨?_, hcounted.le_size, h.resume_le, ?_, h.visited_le⟩
      · have hway := h.way.label hcounted
        rw [past, hlabels, List.map_append]
        exact hway
      · rw [past, Name.wireLength, hlabels, wireLength_concat, h.length_eq]
        rfl
  | jumped hs hmark hin _ hspare =>
      refine ⟨h.way.jump hs hmark hin, Nat.le_of_lt hin, ?_, h.length_eq, hspare⟩
      intro stop hresume
      cases hresume
      exact h.resume_getD_le hs.le_size

/-- A step that fails tells the truth. -/
theorem tells {e : DecodeError} (h : c.Underway buf start) (hstep : c.step buf start = .error e) :
    e.Tells buf (· = start) := by
  cases step_eq_iff.mp hstep with
  | beyond hout => exact ⟨rfl, h.pos_le, Nat.lt_succ_of_le hout⟩
  | cutLabel hs _ _ hcut => exact ⟨rfl, hs.le_size, hcut⟩
  | cutPointer _ _ hcut => exact ⟨rfl, h.pos_le, Nat.lt_succ_of_le hcut⟩
  | outgrown hcounted hlong =>
      refine ⟨rfl, _, _, _, h.way.label hcounted, ?_⟩
      rwa [trailLength_concat, h.trailLength_eq]
  | foreign hcounted _ hforeign => exact ⟨start, _, _, rfl, h.way, _, hcounted, hforeign⟩
  | refused _ hfits hname =>
      -- the chase counts what the name counts, so the name has room as well
      obtain ⟨-, hlong⟩ := Name.push_eq_error_iff.mp hname
      rw [← h.length_eq] at hlong
      exact absurd hfits (Nat.not_le.mpr hlong)
  | outside hs hmark hout => exact ⟨rfl, hout, start, _, _, rfl, h.way, _, _, hs, hmark, rfl⟩
  | circular hs hmark _ hagain =>
      refine ⟨start, _, _, rfl, h.way, _, _, hs, hmark, hagain.imp_right fun hmany => ?_⟩
      exact Nat.le_antisymm h.visited_le hmany
  | unknown hs hlong hunmarked => exact ⟨hs.head, hlong, hunmarked, start, _, _, rfl, h.way⟩

/-- A chase ends in the datagram or tells the truth about it. -/
theorem run (h : c.Underway buf start) :
    (∀ n stop, c.run buf start = .ok (n, stop) → stop ≤ buf.size) ∧
      ∀ e, c.run buf start = .error e → e.Tells buf (· = start) := by
  induction c using run.induct buf start with
  | case1 c e hstep =>
      rw [run_of_error hstep]
      refine ⟨fun _ _ hok => (by cases hok), fun _ herror => ?_⟩
      cases herror
      exact h.tells hstep
  | case2 c name stop hstep =>
      rw [run_of_ended hstep]
      refine ⟨fun _ _ hok => ?_, fun _ herror => (by cases herror)⟩
      cases hok
      cases step_eq_iff.mp hstep with
      | ended hzero => exact h.resume_getD_le hzero.le_size
  | case3 c c' hstep ih =>
      rw [run_of_onward hstep]
      exact ih (h.step hstep)

end Underway

end Chase

/-! ## Readers -/

namespace DecodeError.Tells

variable {buf : Bytes} {S T : Nat → Prop} {e : DecodeError}

/-- With more places to start from, what is told is still so. -/
theorem mono (h : e.Tells buf S) (hST : ∀ pos, S pos → T pos) : e.Tells buf T := by
  cases e with
  | truncated _ _ _ => exact h
  | pointerOutOfRange _ _ _ =>
      obtain ⟨hsize, hout, start, labels, targets, hstart, hway⟩ := h
      exact ⟨hsize, hout, start, labels, targets, hST start hstart, hway⟩
  | labelLength _ _ =>
      obtain ⟨hhead, hlong, hunmarked, start, labels, targets, hstart, hway⟩ := h
      exact ⟨hhead, hlong, hunmarked, start, labels, targets, hST start hstart, hway⟩
  | foreignLabel _ =>
      obtain ⟨start, labels, targets, hstart, hway⟩ := h
      exact ⟨start, labels, targets, hST start hstart, hway⟩
  | longName _ => exact ⟨hST _ h.1, h.2⟩
  | pointerCycle _ =>
      obtain ⟨start, labels, targets, hstart, hway⟩ := h
      exact ⟨start, labels, targets, hST start hstart, hway⟩

end DecodeError.Tells

namespace Reader

variable {α β : Type}

/-- From `pos` the reader comes to a value and a place as in `post`, or to an error as in `fail`. -/
structure Ensures (r : Reader α) (buf : Bytes) (pos : Nat) (post : α → Nat → Prop)
    (fail : DecodeError → Prop) : Prop where
  value : ∀ a stop, r buf pos = .ok (a, stop) → post a stop
  error : ∀ e, r buf pos = .error e → fail e

namespace Ensures

variable {r : Reader α} {f : α → Reader β} {buf : Bytes} {pos : Nat} {post post' : α → Nat → Prop}
  {next : β → Nat → Prop} {fail fail' : DecodeError → Prop}

theorem imp (h : r.Ensures buf pos post fail)
    (hpost : ∀ a stop, r buf pos = .ok (a, stop) → post a stop → post' a stop)
    (hfail : ∀ e, fail e → fail' e) : r.Ensures buf pos post' fail' where
  value a stop hok := hpost a stop hok (h.value a stop hok)
  error e herror := hfail e (h.error e herror)

theorem pure {a : α} (h : post a pos) : (Pure.pure a : Reader α).Ensures buf pos post fail where
  value _ _ hok := by cases hok; exact h
  error _ herror := by cases herror

theorem bind (h : r.Ensures buf pos post fail)
    (k : ∀ a mid, post a mid → (f a).Ensures buf mid next fail) :
    (r >>= f).Ensures buf pos next fail where
  value b stop hok := by
    obtain ⟨a, mid, hr, hf⟩ := bind_eq_ok_iff.mp hok
    exact (k a mid (h.value a mid hr)).value b stop hf
  error e herror := by
    rcases bind_eq_error_iff.mp herror with hr | ⟨a, mid, hr, hf⟩
    · exact h.error e hr
    · exact (k a mid (h.value a mid hr)).error e hf

/-- Where each value leads from the places `P i` to the places `P (i + 1)`, all lead to `P n`. -/
theorem times {P : Nat → Nat → Prop} (n : Nat)
    (hstep : ∀ i < n, ∀ pos, P i pos →
      r.Ensures buf pos (fun _ stop => P (i + 1) stop) fail) (hpos : P 0 pos) :
    (Reader.times r n).Ensures buf pos (fun _ stop => P n stop) fail := by
  induction n generalizing P pos with
  | zero => exact pure hpos
  | succ n ih =>
      rw [times_succ]
      refine bind (hstep 0 (Nat.succ_pos n) pos hpos) fun a mid hmid => ?_
      have hrest := ih (P := fun i => P (i + 1))
        (fun i hi => hstep (i + 1) (Nat.succ_lt_succ hi)) hmid
      exact bind hrest fun as stop hstop => pure hstop

variable {S : Nat → Prop}

/-- Octets are there, or they are missing at the end of the datagram. -/
theorem bytes (n : Nat) (hpos : pos ≤ buf.size) :
    (Reader.bytes n).Ensures buf pos (fun _ stop => stop ≤ buf.size) (·.Tells buf S) where
  value bs stop hok := by
    unfold Reader.bytes at hok
    split at hok
    · cases hok
      assumption
    · cases hok
  error e herror := by
    unfold Reader.bytes at herror
    split at herror
    · cases herror
    · rename_i hout
      cases herror
      exact ⟨rfl, hpos, Nat.lt_of_not_le hout⟩

theorem u16 (hpos : pos ≤ buf.size) :
    Reader.u16.Ensures buf pos (fun _ stop => stop ≤ buf.size) (·.Tells buf S) :=
  bind (bytes 2 hpos) fun _ _ hstop => pure hstop

theorem u32 (hpos : pos ≤ buf.size) :
    Reader.u32.Ensures buf pos (fun _ stop => stop ≤ buf.size) (·.Tells buf S) :=
  bind (bytes 4 hpos) fun _ _ hstop => pure hstop

/-- What is wrong with a name is told with the place where the name starts. -/
theorem name (hpos : pos ≤ buf.size) (hstart : S pos) :
    Reader.name.Ensures buf pos (fun _ stop => stop ≤ buf.size) (·.Tells buf S) := by
  obtain ⟨hvalue, herror⟩ := (Chase.underway_start hpos).run
  refine ⟨hvalue, fun e he => (herror e he).mono ?_⟩
  rintro _ rfl
  exact hstart

theorem header : Reader.header.Ensures buf 0
    (fun h stop => Reached buf h 0 0 stop ∧ stop ≤ buf.size) (·.Tells buf S) := by
  have hread : Reader.header.Ensures buf 0 (fun _ stop => stop ≤ buf.size) (·.Tells buf S) :=
    bind (u16 (Nat.zero_le _)) fun _ _ h => bind (u16 h) fun _ _ h => bind (u16 h) fun _ _ h =>
      bind (u16 h) fun _ _ h => bind (u16 h) fun _ _ h => bind (u16 h) fun _ _ h => pure h
  exact hread.imp (fun _ _ hok hstop => ⟨.header hok, hstop⟩) fun _ h => h

theorem question (hpos : pos ≤ buf.size) (hstart : S pos) :
    Reader.question.Ensures buf pos (fun _ stop => stop ≤ buf.size) (·.Tells buf S) :=
  bind (name hpos hstart) fun _ _ h => bind (u16 h) fun _ _ h => bind (u16 h) fun _ _ h => pure h

theorem record (hpos : pos ≤ buf.size) (hstart : S pos) :
    Reader.record.Ensures buf pos (fun _ stop => stop ≤ buf.size) (·.Tells buf S) :=
  bind (name hpos hstart) fun _ _ h => bind (u16 h) fun _ _ h => bind (u16 h) fun _ _ h =>
    bind (u32 h) fun _ _ h => bind (u16 h) fun declared _ h =>
      bind (bytes declared.toNat h) fun _ _ h => pure h

variable {h : Header}

/-- Questions are read one behind the other. -/
theorem questions (hpos : Reached buf h 0 0 pos ∧ pos ≤ buf.size) :
    (Reader.times Reader.question h.questionCount.toNat).Ensures buf pos
      (fun _ stop => Reached buf h h.questionCount.toNat 0 stop ∧ stop ≤ buf.size)
      (·.Tells buf (NameStart buf)) := by
  refine times (P := fun i pos => Reached buf h i 0 pos ∧ pos ≤ buf.size) _ ?_ hpos
  rintro i hi pos ⟨hreached, hle⟩
  have hstart : NameStart buf pos := ⟨h, i, 0, hreached, by omega⟩
  exact (question hle hstart).imp
    (fun _ _ hok hstop => ⟨hreached.question hi hok, hstop⟩) fun _ htells => htells

/-- So are records, section by section: `done` records stand in front of these. -/
theorem records {done : Nat} (count : Nat) (hcount : done + count ≤ h.recordCount)
    (hpos : Reached buf h h.questionCount.toNat done pos ∧ pos ≤ buf.size) :
    (Reader.times Reader.record count).Ensures buf pos
      (fun _ stop => Reached buf h h.questionCount.toNat (done + count) stop ∧ stop ≤ buf.size)
      (·.Tells buf (NameStart buf)) := by
  refine times (P := fun j pos =>
    Reached buf h h.questionCount.toNat (done + j) pos ∧ pos ≤ buf.size) _ ?_ hpos
  rintro j hj pos ⟨hreached, hle⟩
  have hmore : done + j < h.recordCount := by omega
  have hstart : NameStart buf pos := ⟨h, _, done + j, hreached, by omega⟩
  exact (record hle hstart).imp
    (fun _ _ hok hstop => ⟨hreached.record hmore hok, hstop⟩) fun _ htells => htells

theorem message : Reader.message.Ensures buf 0 (fun _ stop => stop ≤ buf.size)
    (·.Tells buf (NameStart buf)) := by
  refine bind header fun h _ hpos => bind (questions hpos) fun _ _ hpos => ?_
  have hcount : h.recordCount =
      h.answerCount.toNat + h.authorityCount.toNat + h.additionalCount.toNat := rfl
  refine bind (records h.answerCount.toNat (by omega) hpos) fun _ _ hpos => ?_
  refine bind (records h.authorityCount.toNat (by omega) hpos) fun _ _ hpos => ?_
  exact bind (records h.additionalCount.toNat (by omega) hpos) fun _ _ hpos => pure hpos.2

end Ensures

end Reader

/-- When a datagram cannot be read, what the error says about it is so. -/
theorem tells_of_decode {buf : Bytes} {e : DecodeError} (h : decode buf = .error e) :
    e.Tells buf (NameStart buf) := by
  have hmessage : Reader.message.Ensures buf 0 _ _ := Reader.Ensures.message
  exact hmessage.error e (decode_eq_error_iff.mp h)

/-- One question, whose name is the label `a` and then a pointer back to that label. -/
def roundabout : Bytes := #[0, 1, 1, 0, 0, 1, 0, 0, 0, 0, 0, 0, 1, 97, 192, 12, 0, 1, 0, 1]

theorem tells_of_decode_roundabout :
    decode roundabout = .error (.pointerCycle 14) ∧
      (DecodeError.pointerCycle 14).Tells roundabout (NameStart roundabout) := by
  have h : decode roundabout = .error (.pointerCycle 14) := by
    have hreport : (match decode roundabout with | .error e => some e | .ok _ => none) =
        some (.pointerCycle 14) := by decide +kernel
    cases hread : decode roundabout with
    | ok m =>
        rw [hread] at hreport
        cases hreport
    | error e =>
        rw [hread] at hreport
        cases hreport
        rfl
  exact ⟨h, tells_of_decode h⟩

end DnsResponder
