import DnsResponder.Proofs.Name.Spelling
import DnsResponder.Proofs.Wire.Remembering
import DnsResponder.Proofs.Wire.RoundTrip
import DnsResponder.Proofs.Wire.Trail
import Mathlib.Algebra.GroupWithZero.Nat

/-!
# What limits a name

The limits can be told from the texts of the labels alone, with no name at hand: each text is
1 to 63 bytes of ASCII, and all of them, with an octet for each and one more at the end, take
up at most 255. `Limits` says this, and a name has just such labels. So labels make a name
exactly when they are within the limits.

Labels may also be pushed one by one, and some of them refused. Which ones are refused is
again told by the texts: `fitting` keeps a text if it is a label and there is room behind
those it has kept so far. A refused text leaves nothing behind, and a later one that is
shorter may still fit.

A name that came over the wire has labels that stand in the datagram behind the octets that
count them. When a name is written, its labels stand like this again. The octet in front of a
label is its length and cannot be taken for a terminator or for part of a pointer.
-/

namespace DnsResponder

/-! ## Labels and their texts -/

/-- The text is that of a label: ASCII, and 1 to 63 bytes long. -/
def IsLabel (s : String) : Prop :=
  (∀ c ∈ s.toList, Text.IsAscii c) ∧ 1 ≤ Text.utf8Length s.toList ∧ Text.utf8Length s.toList ≤ 63

instance (s : String) : Decidable (IsLabel s) := inferInstanceAs (Decidable (_ ∧ _ ∧ _))

namespace Label

theorem toList_text (l : Label) : l.text.toList = l.chars := String.toList_ofList

theorem utf8Length_text (l : Label) : Text.utf8Length l.text.toList = l.length := by
  rw [toList_text, utf8Length_chars]

theorem exists_text_iff {s : String} : (∃ l : Label, l.text = s) ↔ IsLabel s := by
  unfold IsLabel
  rw [← exists_chars_iff]
  constructor
  · rintro ⟨l, rfl⟩
    exact ⟨l, l.toList_text.symm⟩
  · rintro ⟨l, hl⟩
    exact ⟨l, by rw [text, hl, String.ofList_toList]⟩

theorem isLabel_text (l : Label) : IsLabel l.text := exists_text_iff.mp ⟨l, rfl⟩

end Label

/-- What labels with these texts take up on the wire: an octet more for each, and a terminator. -/
def spelledLength (texts : List String) : Nat :=
  1 + (texts.map fun s => Text.utf8Length s.toList + 1).sum

theorem spelledLength_cons (s : String) (texts : List String) :
    spelledLength (s :: texts) = Text.utf8Length s.toList + 1 + spelledLength texts := by
  unfold spelledLength
  rw [List.map_cons, List.sum_cons]
  omega

theorem wireLength_eq_spelledLength (ls : List Label) :
    wireLength ls = spelledLength (ls.map Label.text) := by
  induction ls with
  | nil => rfl
  | cons l ls ih =>
      rw [wireLength_cons, List.map_cons, spelledLength_cons, Label.utf8Length_text, ih]

/-- Labels with these texts are within the limits of a name. -/
structure Limits (texts : List String) : Prop where
  label : ∀ s ∈ texts, IsLabel s
  length_le : spelledLength texts ≤ 255

namespace Name

variable {n m : Name} {s : String} {texts : List String}

/-- The labels of the name as texts. -/
def labelTexts (n : Name) : List String := n.labels.map Label.text

theorem wireLength_eq_labelTexts (n : Name) : n.wireLength = spelledLength n.labelTexts :=
  wireLength_eq_spelledLength n.labels

theorem length_labelTexts_le (n : Name) : n.labelTexts.length ≤ 127 := by
  unfold labelTexts
  rw [List.length_map]
  exact n.length_labels_le

theorem limits_labelTexts (n : Name) : Limits n.labelTexts where
  label := by
    intro s hs
    obtain ⟨l, -, rfl⟩ := List.mem_map.mp hs
    exact l.isLabel_text
  length_le := by
    rw [← n.wireLength_eq_labelTexts]
    exact n.fits

theorem exists_map_text (h : ∀ s ∈ texts, IsLabel s) : ∃ ls : List Label, ls.map Label.text = texts := by
  induction texts with
  | nil => exact ⟨[], rfl⟩
  | cons s texts ih =>
      obtain ⟨hs, hlabels⟩ := List.forall_mem_cons.mp h
      obtain ⟨l, rfl⟩ := Label.exists_text_iff.mpr hs
      obtain ⟨ls, hls⟩ := ih hlabels
      exact ⟨l :: ls, by rw [List.map_cons, hls]⟩

/-- Within the limits there is a name, and outside them there is none. -/
theorem exists_labelTexts_iff : (∃ n : Name, n.labelTexts = texts) ↔ Limits texts := by
  constructor
  · rintro ⟨n, rfl⟩
    exact n.limits_labelTexts
  · intro h
    obtain ⟨ls, rfl⟩ := exists_map_text h.label
    have hfits := h.length_le
    rw [← wireLength_eq_spelledLength] at hfits
    exact ⟨⟨ls, hfits⟩, rfl⟩

/-! ## Pushing -/

theorem pushText_text (n : Name) (l : Label) : n.pushText l.text = n.push l := by
  have hl := Label.ofText_iff_text.mpr (rfl : l.text = l.text)
  rw [pushText_eq, hl]
  rfl

/-- A text can be pushed exactly when it is a label and there is room for it. -/
theorem exists_pushText_iff :
    (∃ m, n.pushText s = .ok m) ↔
      IsLabel s ∧ n.wireLength + Text.utf8Length s.toList + 1 ≤ 255 := by
  constructor
  · rintro ⟨m, h⟩
    obtain ⟨l, hl, hlabels⟩ := pushText_eq_ok h
    obtain rfl := Label.ofText_iff_text.mp hl
    have hfits := m.fits
    rw [hlabels, wireLength_concat] at hfits
    rw [Label.utf8Length_text]
    exact ⟨l.isLabel_text, hfits⟩
  · rintro ⟨hs, hroom⟩
    obtain ⟨l, rfl⟩ := Label.exists_text_iff.mpr hs
    rw [Label.utf8Length_text] at hroom
    have hfits : DnsResponder.wireLength (n.labels ++ [l]) ≤ maxNameLength := by
      rw [wireLength_concat]
      exact hroom
    exact ⟨_, (n.pushText_text l).trans (push_eq_of_fits hfits)⟩

/-- A text that is pushed becomes the last label. -/
theorem labelTexts_of_pushText (h : n.pushText s = .ok m) : m.labelTexts = n.labelTexts ++ [s] := by
  obtain ⟨l, hl, hlabels⟩ := pushText_eq_ok h
  obtain rfl := Label.ofText_iff_text.mp hl
  unfold labelTexts
  rw [hlabels, List.map_append, List.map_singleton]

theorem wireLength_of_pushText (h : n.pushText s = .ok m) :
    m.wireLength = n.wireLength + Text.utf8Length s.toList + 1 := by
  obtain ⟨l, hl, hlabels⟩ := pushText_eq_ok h
  obtain rfl := Label.ofText_iff_text.mp hl
  unfold wireLength
  rw [hlabels, wireLength_concat, Label.utf8Length_text]

/-- The name after pushes were tried, one after the other. -/
def pushAll (n : Name) (texts : List String) : Name := texts.foldl tryPush n

/-- The texts whose push succeeds when pushes are tried one after the other. -/
def accepted (n : Name) : List String → List String
  | [] => []
  | s :: texts =>
      match n.pushText s with
      | .ok m => s :: m.accepted texts
      | .error _ => n.accepted texts

/--
The texts that are labels for which there is room behind those that were kept before, where
`used` octets are taken up at the start.
-/
def fitting (used : Nat) : List String → List String
  | [] => []
  | s :: texts =>
      if IsLabel s ∧ used + Text.utf8Length s.toList + 1 ≤ 255 then
        s :: fitting (used + Text.utf8Length s.toList + 1) texts
      else fitting used texts

/-- The labels that were there come first, and behind them those whose push succeeded. -/
theorem labelTexts_pushAll (n : Name) (texts : List String) :
    (n.pushAll texts).labelTexts = n.labelTexts ++ n.accepted texts := by
  induction texts generalizing n with
  | nil => exact (List.append_nil _).symm
  | cons s texts ih =>
      have hall : n.pushAll (s :: texts) = (n.tryPush s).pushAll texts := rfl
      rw [hall, ih, accepted]
      cases hpush : n.pushText s with
      | error e => rw [tryPush_of_error hpush]
      | ok m =>
          rw [tryPush_of_ok hpush, labelTexts_of_pushText hpush, List.append_assoc,
            List.singleton_append]

/-- Which pushes succeed is told by the texts and by the room that the name leaves. -/
theorem accepted_eq_fitting (n : Name) (texts : List String) :
    n.accepted texts = fitting n.wireLength texts := by
  induction texts generalizing n with
  | nil => rfl
  | cons s texts ih =>
      have hiff := exists_pushText_iff (n := n) (s := s)
      rw [accepted, fitting]
      cases hpush : n.pushText s with
      | error e =>
          rw [hpush] at hiff
          rw [if_neg (mt hiff.mpr (by simp))]
          exact ih n
      | ok m =>
          rw [if_pos (hiff.mp ⟨m, hpush⟩), ← wireLength_of_pushText hpush, ← ih]

example : (root.pushAll ["www", "", "example", "a.b"]).labelTexts = ["www", "example", "a.b"] := by
  decide +kernel

/-- Labels make a name exactly when they are within the limits. -/
theorem exists_ofLabels_iff : (∃ n, ofLabels texts = .ok n) ↔ Limits texts := by
  rw [← exists_labelTexts_iff]
  exact exists_congr fun n => ofLabels_eq_ok_iff

end Name

/-! ## Reading -/

/-- The names of all questions and records. -/
def Message.names (m : Message) : List Name := m.questions.map (·.name) ++ m.records.map (·.name)

namespace Reader

variable {buf : Bytes} {pos stop : Nat}

theorem name_of_question {q : Question} (h : question buf pos = .ok (q, stop)) :
    ∃ mid, name buf pos = .ok (q.name, mid) := by
  obtain ⟨n, mid, hname, h⟩ := bind_eq_ok_iff.mp h
  obtain ⟨_, _, _, h⟩ := bind_eq_ok_iff.mp h
  obtain ⟨_, _, _, h⟩ := bind_eq_ok_iff.mp h
  cases h
  exact ⟨mid, hname⟩

theorem name_of_record {r : Record} (h : record buf pos = .ok (r, stop)) :
    ∃ mid, name buf pos = .ok (r.name, mid) := by
  obtain ⟨n, mid, hname, h⟩ := bind_eq_ok_iff.mp h
  obtain ⟨_, _, _, h⟩ := bind_eq_ok_iff.mp h
  obtain ⟨_, _, _, h⟩ := bind_eq_ok_iff.mp h
  obtain ⟨_, _, _, h⟩ := bind_eq_ok_iff.mp h
  obtain ⟨_, _, _, h⟩ := bind_eq_ok_iff.mp h
  obtain ⟨_, _, _, h⟩ := bind_eq_ok_iff.mp h
  cases h
  exact ⟨mid, hname⟩

end Reader

/-- Each name of a message was read somewhere in its datagram. -/
theorem exists_name_of_decode {d : Bytes} {m : Message} (h : decode d = .ok m) :
    ∀ n ∈ m.names, ∃ start stop, Reader.name d start = .ok (n, stop) := by
  obtain ⟨stop, h⟩ := decode_eq_ok_iff.mp h
  obtain ⟨header, _, _, h⟩ := Reader.bind_eq_ok_iff.mp h
  obtain ⟨questions, _, hquestions, h⟩ := Reader.bind_eq_ok_iff.mp h
  obtain ⟨answers, _, hanswers, h⟩ := Reader.bind_eq_ok_iff.mp h
  obtain ⟨authorities, _, hauthorities, h⟩ := Reader.bind_eq_ok_iff.mp h
  obtain ⟨additionals, _, hadditionals, h⟩ := Reader.bind_eq_ok_iff.mp h
  cases h
  intro n hn
  rcases List.mem_append.mp hn with hn | hn
  · obtain ⟨q, hq, rfl⟩ := List.mem_map.mp hn
    obtain ⟨start, stop, hread⟩ := (Reader.times_eq_ok hquestions).2 q hq
    exact ⟨start, Reader.name_of_question hread⟩
  · obtain ⟨r, hr, rfl⟩ := List.mem_map.mp hn
    have hread : ∃ start stop, Reader.record d start = .ok (r, stop) := by
      rcases List.mem_append.mp hr with hr | hr
      · rcases List.mem_append.mp hr with hr | hr
        · exact (Reader.times_eq_ok hanswers).2 r hr
        · exact (Reader.times_eq_ok hauthorities).2 r hr
      · exact (Reader.times_eq_ok hadditionals).2 r hr
    obtain ⟨start, stop, hread⟩ := hread
    exact ⟨start, Reader.name_of_record hread⟩

/-- The labels of a trail stand in the datagram behind the octets that count them. -/
theorem Trail.exists_counted {buf : Bytes} {pos jumps stop : Nat} {labels : List (List UInt8)}
    (h : Trail buf pos labels jumps stop) : ∀ octets ∈ labels, ∃ place, Counted octets buf place := by
  induction h with
  | stop _ => exact List.forall_mem_nil _
  | label h _ ih => exact List.forall_mem_cons.mpr ⟨⟨_, h⟩, ih⟩
  | jump _ _ _ _ ih => exact ih

/-- So do the labels of a name that was read. -/
theorem exists_counted_of_decode {d : Bytes} {m : Message} (h : decode d = .ok m) :
    ∀ n ∈ m.names, ∀ l ∈ n.labels, ∃ place, Counted l.octets d place := by
  intro n hn l hl
  obtain ⟨start, stop, hread⟩ := exists_name_of_decode h n hn
  obtain ⟨labels, _, _, htrail, hlabels, -, -⟩ :=
    Chase.exists_trail_of_run (c := Chase.start start) (Nat.zero_le _) hread
  refine htrail.exists_counted _ ?_
  have hmem : l.octets ∈ n.labels.map Label.octets := List.mem_map_of_mem hl
  rw [hlabels] at hmem
  exact hmem

/-! ## Writing -/

/--
The octet at `pos` is the length of a label. It is no terminator and no part of a pointer, so
a chase that comes there takes the label.
-/
structure HeadsLabel (buf : Bytes) (pos length : Nat) : Prop where
  octet : ∃ head, buf[pos]? = some head ∧ head.toNat = length ∧ 1 ≤ length ∧ length ≤ 63
  taken : ∀ (c : Chase) (origin : Nat), c.pos = pos → c.step buf origin = c.take buf origin length

theorem Counted.headsLabel {octets : List UInt8} {buf : Bytes} {pos : Nat}
    (h : Counted octets buf pos) : HeadsLabel buf pos octets.length where
  octet := by
    obtain ⟨head, hhead, -, hlength⟩ := h.exists_head
    exact ⟨head, hhead, hlength, List.length_pos_iff.mpr h.ne_nil, h.length_le⟩
  taken c origin hpos := by
    subst hpos
    exact Chase.step_of_counted h

/-- Behind the labels in front of it, each label of a name that stands in full is counted. -/
theorem Name.counted_of_stands {n : Name} {buf : Bytes} {pos : Nat} {front back : List Label}
    {l : Label} (h : Stands n.wire buf pos) (hlabels : n.labels = front ++ l :: back) :
    Counted l.octets buf (pos + (front.flatMap Label.wire).length) := by
  have hwire : n.wire = front.flatMap Label.wire ++ (l.wire ++ (back.flatMap Label.wire ++ [0])) := by
    unfold wire
    rw [hlabels, List.flatMap_append, List.flatMap_cons, List.append_assoc, List.append_assoc]
  rw [hwire] at h
  exact Chase.counted_of_stands h.right.left

/-- A name becomes a pointer, or it is written in full and each of its labels can be taken again. -/
theorem Writer.pointer_or_headsLabel (w : Writer) (compress : Bool) (n : Name) :
    (∃ target, w.table.find? n = some target ∧ (w.name compress n).bytes = w.bytes ++ pointer target) ∨
      (w.name compress n).bytes = w.bytes ++ n.wire ∧
        ∀ front l back, n.labels = front ++ l :: back →
          HeadsLabel (w.name compress n).bytes
            (w.bytes.size + (front.flatMap Label.wire).length) l.length := by
  have hbytes := (w.put_eq (.name compress n)).1
  cases htarget : w.target? (.name compress n) with
  | some target =>
      rw [htarget] at hbytes
      obtain ⟨n', hn', -, hfind⟩ := target?_eq_some_iff.mp htarget
      cases hn'
      exact .inl ⟨target, hfind, hbytes⟩
  | none =>
      rw [htarget] at hbytes
      have hfull : (w.name compress n).bytes = (w.octets n.wire).bytes :=
        hbytes.trans (bytes_octets w n.wire).symm
      rw [hfull]
      exact .inr ⟨rfl, fun front l back hlabels =>
        (Name.counted_of_stands (w.stands_octets n.wire) hlabels).headsLabel⟩

/--
The labels of a name, as texts, are within the limits, and nothing else limits them: labels
within the limits make a name. When labels are pushed one by one, those whose push succeeds
are added and the others leave nothing behind; which ones succeed is told by the texts and the
room that is left. The labels of names in a datagram that was read stand there, each behind
its length. The octet that is written in front of a label is its length, and is read as that.
-/
theorem Name.limits_hold :
    (∀ n : Name, Limits n.labelTexts ∧ n.wireLength = spelledLength n.labelTexts ∧
      n.wireLength ≤ 255 ∧ n.labelTexts.length ≤ 127) ∧
    (∀ (d : Bytes) (m : Message), decode d = .ok m →
      ∀ n ∈ m.names, ∀ l ∈ n.labels, ∃ place, Counted l.octets d place) ∧
    (∀ (n : Name) (s : String), (∀ e, n.pushText s = .error e → n.tryPush s = n) ∧
      ((∃ m, n.pushText s = .ok m) ↔
        IsLabel s ∧ n.wireLength + Text.utf8Length s.toList + 1 ≤ 255)) ∧
    (∀ (n : Name) (texts : List String),
      (n.pushAll texts).labelTexts = n.labelTexts ++ n.accepted texts ∧
      n.accepted texts = fitting n.wireLength texts) ∧
    (∀ texts, ((∃ n, ofLabels texts = .ok n) ↔ Limits texts) ∧
      ∀ n, ofLabels texts = .ok n ↔ n.labelTexts = texts) ∧
    ∀ (w : Writer) (compress : Bool) (n : Name),
      (∃ target, w.table.find? n = some target ∧
        (w.name compress n).bytes = w.bytes ++ pointer target) ∨
      (w.name compress n).bytes = w.bytes ++ n.wire ∧
        ∀ front l back, n.labels = front ++ l :: back →
          HeadsLabel (w.name compress n).bytes
            (w.bytes.size + (front.flatMap Label.wire).length) l.length := by
  exact ⟨fun n => ⟨n.limits_labelTexts, n.wireLength_eq_labelTexts, n.fits,
    n.length_labelTexts_le⟩, fun d m => exists_counted_of_decode,
    fun n s => ⟨fun e => tryPush_of_error, exists_pushText_iff⟩,
    fun n texts => ⟨n.labelTexts_pushAll texts, n.accepted_eq_fitting texts⟩,
    fun texts => ⟨exists_ofLabels_iff, fun n => ofLabels_eq_ok_iff⟩, Writer.pointer_or_headsLabel⟩

/-- A text that is too long is refused, and the names in `forwardPointer` have labels that stand there. -/
theorem Name.limits_hold_forwardPointer :
    (root.pushText (String.ofList (List.replicate 64 'a')) =
        .error (.longLabel (String.ofList (List.replicate 64 'a'))) ∧
      root.tryPush (String.ofList (List.replicate 64 'a')) = root) ∧
    decode forwardPointer = .ok forwardPointerMessage ∧
      ∀ n ∈ forwardPointerMessage.names, ∀ l ∈ n.labels,
        ∃ place, Counted l.octets forwardPointer place := by
  have hpush : root.pushText (String.ofList (List.replicate 64 'a')) =
      .error (.longLabel (String.ofList (List.replicate 64 'a'))) := by decide +kernel
  have hread : decode forwardPointer = .ok forwardPointerMessage :=
    eq_ok_of_toOption (by decide +kernel)
  exact ⟨⟨hpush, (limits_hold.2.2.1 _ _).1 _ hpush⟩, hread, limits_hold.2.1 _ _ hread⟩

end DnsResponder
