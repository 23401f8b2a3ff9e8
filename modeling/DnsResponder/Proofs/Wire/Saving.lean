import DnsResponder.Proofs.Wire.Remembering
import DnsResponder.Proofs.Wire.RoundTrip
import Mathlib.Algebra.GroupWithZero.Nat

/-!
# What pointers save

A datagram that was put together item by item falls into pieces, one for each item: octets
as they are, a name in full, or a pointer in place of a name. Where a piece begins depends on
how long all pieces before it are, and so on every decision taken before. `LaidOut` says what
the decisions are, with nothing but the pieces themselves: a name is a pointer exactly if it is
not the root, was there before, and began there for the first time within the reach of a pointer.
That is where the pointer leads. A first time is never itself a pointer, so a pointer leads to
a name in full.

A message is such a row of items. A pointer is shorter than any name that it can stand for, so
all that the two ways of writing a message differ by is counted out pointer by pointer.
-/

namespace DnsResponder

open Writer (Item)

/-- What a datagram holds for one item. -/
structure Piece where
  item : Item
  /-- Where the pointer leads, if a pointer takes the item's place. -/
  target? : Option Nat

namespace Piece

/-- The octets of the piece. -/
def octets (p : Piece) : List UInt8 := p.item.written p.target?

/-- How many octets a pointer saves. -/
def saving (p : Piece) : Nat :=
  match p.item, p.target? with
  | .name _ n, some _ => n.wireLength - 2
  | _, _ => 0

/-- The number of octets of some pieces, and so the place behind them. -/
def extent (pieces : List Piece) : Nat := (pieces.flatMap octets).length

/-- The first of the pieces for the name `n` begins at `target`. -/
def FirstAmong (pieces : List Piece) (n : Name) (target : Nat) : Prop :=
  ∃ earlier p later, pieces = earlier ++ p :: later ∧ p.item = .name true n ∧
    (∀ q ∈ earlier, q.item ≠ .name true n) ∧ extent earlier = target

end Piece

/-- The datagram `d` consists of `pieces`, one for each item, and each piece is what it has to be. -/
structure LaidOut (items : List Item) (pieces : List Piece) (d : Bytes) : Prop where
  items_eq : pieces.map Piece.item = items
  octets_eq : d.toList = pieces.flatMap Piece.octets
  /-- Pointers stand for names that are not the root and first began within reach, and lead there. -/
  target?_iff : ∀ before p after, pieces = before ++ p :: after → ∀ target,
    p.target? = some target ↔
      ∃ n, p.item = .name true n ∧ n.isRoot = false ∧ target ≤ maxPointerTarget ∧
        Piece.FirstAmong before n target

/-! ## The pieces of a datagram -/

namespace Writer

variable {w : Writer} {items : List Item} {before after : List Piece} {p : Piece} {n : Name}
  {target : Nat}

/-- The pieces that the writer writes for the items. -/
def pieces : Writer → List Item → List Piece
  | _, [] => []
  | w, item :: items => ⟨item, w.target? item⟩ :: (w.put item).pieces items

theorem map_item_pieces (w : Writer) (items : List Item) :
    (w.pieces items).map Piece.item = items := by
  induction items generalizing w with
  | nil => rfl
  | cons item items ih => rw [pieces, List.map_cons, ih]

theorem pieces_append (w : Writer) (items more : List Item) :
    w.pieces (items ++ more) = w.pieces items ++ (w.putAll items).pieces more := by
  induction items generalizing w with
  | nil => rfl
  | cons item items ih =>
      rw [List.cons_append, pieces, pieces, putAll_cons, ih]
      rfl

/-- A writer appends its pieces. -/
theorem toList_bytes_putAll (w : Writer) (items : List Item) :
    (w.putAll items).bytes.toList = w.bytes.toList ++ (w.pieces items).flatMap Piece.octets := by
  induction items generalizing w with
  | nil => simp [pieces]
  | cons item items ih =>
      rw [putAll_cons, ih, bytes_put, pieces, List.flatMap_cons, Array.toList_append,
        List.append_assoc]
      rfl

theorem extent_pieces (items : List Item) :
    Piece.extent (pieces {} items) = (putAll {} items).bytes.size := by
  rw [← Array.length_toList, toList_bytes_putAll]
  rfl

/-- A piece was written for its item by the writer that had written the pieces before it. -/
theorem exists_items_of_pieces (h : w.pieces items = before ++ p :: after) :
    ∃ items₁ items₂, items = items₁ ++ p.item :: items₂ ∧ w.pieces items₁ = before ∧
      (w.putAll items₁).target? p.item = p.target? := by
  induction items generalizing w before with
  | nil => simp [pieces] at h
  | cons item items ih =>
      rw [pieces] at h
      cases before with
      | nil =>
          obtain ⟨rfl, -⟩ := List.cons.inj h
          exact ⟨[], items, rfl, rfl, rfl⟩
      | cons q before =>
          obtain ⟨rfl, hrest⟩ := List.cons.inj h
          obtain ⟨items₁, items₂, rfl, rfl, htarget⟩ := ih hrest
          exact ⟨item :: items₁, items₂, rfl, rfl, htarget⟩

/-- A name begins for the first time where the first of its pieces does. -/
theorem firstAmong_pieces_iff :
    Piece.FirstAmong (pieces {} items) n target ↔ FirstAt {} items n target := by
  have hfresh : ∀ items₁ : List Item, (∀ q ∈ pieces {} items₁, q.item ≠ .name true n) ↔
      .name true n ∉ items₁ := by
    intro items₁
    rw [← map_item_pieces {} items₁, List.mem_map]
    simp [map_item_pieces]
  constructor
  · rintro ⟨earlier, p, later, hpieces, hitem, hnew, rfl⟩
    obtain ⟨items₁, items₂, rfl, rfl, -⟩ := exists_items_of_pieces hpieces
    exact ⟨items₁, items₂, by rw [hitem], (hfresh items₁).mp hnew, (extent_pieces items₁).symm⟩
  · rintro ⟨items₁, items₂, rfl, hnew, rfl⟩
    have hsplit := pieces_append {} items₁ (.name true n :: items₂)
    rw [pieces] at hsplit
    exact ⟨_, _, _, hsplit, rfl, (hfresh items₁).mpr hnew, extent_pieces items₁⟩

/-- What a writer leaves behind is laid out in its pieces. -/
theorem laidOut_pieces (items : List Item) :
    LaidOut items (pieces {} items) (putAll {} items).bytes := by
  refine ⟨map_item_pieces {} items, ?_, ?_⟩
  · rw [toList_bytes_putAll]
    rfl
  · intro before p after hpieces target
    obtain ⟨items₁, items₂, rfl, rfl, htarget⟩ := exists_items_of_pieces hpieces
    rw [← htarget, target?_eq_some_iff]
    simp only [find?_putAll_iff, firstAmong_pieces_iff, and_self_left]

/-- Items that bypass the table are written in full. -/
theorem toList_bytes_putAll_of_plain (w : Writer) (h : ∀ n, .name true n ∉ items) :
    (w.putAll items).bytes.toList = w.bytes.toList ++ items.flatMap Item.full := by
  induction items generalizing w with
  | nil => simp
  | cons item items ih =>
      have hnone : w.target? item = none := by
        rw [Option.eq_none_iff_forall_ne_some]
        intro target htarget
        obtain ⟨n, rfl, -⟩ := target?_eq_some_iff.mp htarget
        exact h n List.mem_cons_self
      rw [putAll_cons, ih _ fun n hmem => h n (List.mem_cons_of_mem _ hmem), bytes_put, hnone,
        List.flatMap_cons, Array.toList_append, List.append_assoc]
      rfl

end Writer

/-! ## Pointers and what they save -/

/-- A name other than the root takes up more octets than a pointer. -/
theorem Name.two_lt_wireLength {n : Name} (h : n.isRoot = false) : 2 < n.wireLength := by
  unfold Name.wireLength
  cases hlabels : n.labels with
  | nil => simp [Name.isRoot, hlabels] at h
  | cons l ls =>
      have hpos := l.length_pos
      have hrest := one_le_wireLength ls
      rw [wireLength_cons]
      omega

namespace LaidOut

variable {items : List Item} {pieces before after : List Piece} {p : Piece} {d : Bytes} {target : Nat}

/-- A pointer leads backwards, to the first piece for its name, where the name stands in full. -/
theorem target_full (h : LaidOut items pieces d) (hpieces : pieces = before ++ p :: after)
    (htarget : p.target? = some target) :
    target < Piece.extent before ∧ ∃ n earlier q later, p.item = .name true n ∧
      before = earlier ++ q :: later ∧ q.item = .name true n ∧ Piece.extent earlier = target ∧
      q.target? = none ∧ Stands n.wire d target := by
  obtain ⟨n, hitem, -, -, earlier, q, later, rfl, hq, hnew, rfl⟩ :=
    (h.target?_iff before p after hpieces target).mp htarget
  rw [List.append_assoc, List.cons_append] at hpieces
  -- before its first piece the name has no piece that another pointer could lead to
  have hfull : q.target? = none := by
    rw [Option.eq_none_iff_forall_ne_some]
    intro target' htarget'
    obtain ⟨n', hq', -, -, earlier', q', later', rfl, hq'', -⟩ :=
      (h.target?_iff earlier q _ hpieces target').mp htarget'
    obtain rfl : n' = n := by simpa [hq'] using hq
    exact hnew q' (by simp) hq''
  have hoctets : q.octets = n.wire := by
    rw [Piece.octets, hfull, hq]
    rfl
  refine ⟨?_, n, earlier, q, later, hitem, rfl, hq, rfl, hfull, ?_⟩
  · rw [Piece.extent, Piece.extent, List.flatMap_append, List.flatMap_cons, hoctets, Name.wire]
    simp only [List.length_append, List.length_singleton]
    omega
  · refine ⟨earlier.flatMap Piece.octets, (later ++ p :: after).flatMap Piece.octets, ?_, rfl⟩
    rw [h.octets_eq, hpieces, List.flatMap_append, List.flatMap_cons, hoctets, List.append_assoc]

/-- A piece is shorter than its item in full by what it saves, and that is something for every pointer. -/
theorem length_octets_add_saving (h : LaidOut items pieces d) (hp : p ∈ pieces) :
    p.octets.length + p.saving = p.item.full.length ∧ (0 < p.saving ↔ p.target?.isSome) := by
  cases htarget : p.target? with
  | none =>
      have hsaving : p.saving = 0 := by simp [Piece.saving, htarget]
      rw [hsaving, Piece.octets, htarget]
      exact ⟨rfl, by simp⟩
  | some target =>
      obtain ⟨before, after, hpieces⟩ := List.append_of_mem hp
      obtain ⟨n, hitem, hroot, -⟩ := (h.target?_iff before p after hpieces target).mp htarget
      have hlong := Name.two_lt_wireLength hroot
      have hoctets : p.octets.length = 2 := by
        rw [Piece.octets, htarget]
        exact length_bigEndian 2 _
      have hfull : p.item.full.length = n.wireLength := by
        rw [hitem]
        exact n.length_wire
      have hsaving : p.saving = n.wireLength - 2 := by simp [Piece.saving, htarget, hitem]
      rw [hoctets, hsaving, hfull]
      exact ⟨by omega, by simp; omega⟩

/-- A datagram is shorter than its items in full by what its pieces save. -/
theorem size_add_saving (h : LaidOut items pieces d) :
    d.size + (pieces.map Piece.saving).sum = (items.flatMap Item.full).length := by
  have key : ∀ ps : List Piece, (∀ p ∈ ps, p ∈ pieces) →
      (ps.flatMap Piece.octets).length + (ps.map Piece.saving).sum =
        ((ps.map Piece.item).flatMap Item.full).length := by
    intro ps hps
    induction ps with
    | nil => rfl
    | cons p ps ih =>
        have hp := (h.length_octets_add_saving (hps p List.mem_cons_self)).1
        have hrest := ih fun q hq => hps q (List.mem_cons_of_mem p hq)
        simp only [List.flatMap_cons, List.map_cons, List.sum_cons, List.length_append]
        omega
  have hall := key pieces fun _ hp => hp
  rwa [h.items_eq, ← h.octets_eq, Array.length_toList] at hall

/-- Something is saved as soon as there is one pointer. -/
theorem saving_pos_iff (h : LaidOut items pieces d) :
    0 < (pieces.map Piece.saving).sum ↔ ∃ p ∈ pieces, p.target?.isSome := by
  rw [List.sum_pos_iff_exists_pos_nat]
  constructor
  · rintro ⟨s, hs, hpos⟩
    obtain ⟨p, hp, rfl⟩ := List.mem_map.mp hs
    exact ⟨p, hp, (h.length_octets_add_saving hp).2.mp hpos⟩
  · rintro ⟨p, hp, hsome⟩
    exact ⟨p.saving, List.mem_map_of_mem hp, (h.length_octets_add_saving hp).2.mpr hsome⟩

end LaidOut

/-! ## Messages -/

/-- The octets of a header. -/
def Header.wire (h : Header) : List UInt8 :=
  bigEndian 2 h.id.toNat ++ bigEndian 2 (UInt16.ofNat h.flags).toNat ++
    bigEndian 2 h.questionCount.toNat ++ bigEndian 2 h.answerCount.toNat ++
    bigEndian 2 h.authorityCount.toNat ++ bigEndian 2 h.additionalCount.toNat

/-- A question as items. -/
def Question.items (compress : Bool) (q : Question) : List Item :=
  [.name compress q.name, .octets (bigEndian 2 q.type.toNat ++ bigEndian 2 q.class_.toNat)]

/-- A record as items. -/
def Record.items (compress : Bool) (r : Record) : List Item :=
  [.name compress r.name,
    .octets (bigEndian 2 r.type.toNat ++ bigEndian 2 r.class_.toNat ++ bigEndian 4 r.ttl.toNat ++
      bigEndian 2 r.declared.toNat ++ r.data.toList)]

/-- A message as items: its header, and for each question and each record a name and what follows it. -/
def Message.items (compress : Bool) (m : Message) : List Item :=
  .octets m.header.wire ::
    (m.questions.flatMap (Question.items compress) ++ m.records.flatMap (Record.items compress))

namespace Writer

theorem octets_octets (w : Writer) (os ps : List UInt8) :
    (w.octets os).octets ps = w.octets (os ++ ps) := by
  have hbytes : ((w.octets os).octets ps).bytes = (w.octets (os ++ ps)).bytes := by
    simp [bytes_octets]
  exact congrArg (Writer.mk · w.table) hbytes

/-- Writing things one after the other is putting their items one after the other. -/
theorem foldl_eq_putAll {α : Type} {write : Writer → α → Writer} {itemsOf : α → List Item}
    (hwrite : ∀ w a, write w a = w.putAll (itemsOf a)) (as : List α) (w : Writer) :
    as.foldl write w = w.putAll (as.flatMap itemsOf) := by
  induction as generalizing w with
  | nil => rfl
  | cons a as ih => rw [List.foldl_cons, ih, hwrite, List.flatMap_cons, putAll_append]

/-- Writing a message is putting its items. -/
theorem message_eq_putAll (compress : Bool) (w : Writer) (m : Message) :
    Writer.message compress w m = w.putAll (m.items compress) := by
  have hheader : w.header m.header = w.put (.octets m.header.wire) := by
    simp only [Writer.header, Writer.u16, octets_octets]
    rfl
  have hquestion : ∀ (w : Writer) q, w.question compress q = w.putAll (q.items compress) := by
    intro w q
    simp only [Writer.question, Writer.u16, octets_octets]
    rfl
  have hrecord : ∀ (w : Writer) r, w.record compress r = w.putAll (r.items compress) := by
    intro w r
    simp only [Writer.record, Writer.u16, Writer.u32, data_eq_octets, octets_octets]
    rfl
  unfold Writer.message Message.items
  rw [foldl_eq_putAll hquestion, foldl_eq_putAll hrecord, hheader, putAll_cons, putAll_append]

end Writer

namespace Message

/-- In full, a message has the same octets in either way of writing it. -/
theorem flatMap_full_items (compress : Bool) (m : Message) :
    (m.items compress).flatMap Item.full = (m.items false).flatMap Item.full := by
  simp only [items, List.flatMap_cons, List.flatMap_append, List.flatMap_assoc]
  rfl

theorem name_true_not_mem_items (m : Message) (n : Name) : .name true n ∉ m.items false := by
  simp [items, Question.items, Record.items]

end Message

/--
A message written with pointers is laid out in pieces as `LaidOut` says, and each pointer in it
leads backwards, to the first place of its name, where the name stands in full. Without pointers
the message can be written too. It is then longer by what each pointer saves, so never shorter,
and just as long only where there is no pointer.
-/
theorem encode_layout {m : Message} {d : Bytes} (h : encode true m = .ok d) :
    ∃ pieces plain, LaidOut (m.items true) pieces d ∧
      (∀ before p after target, pieces = before ++ p :: after → p.target? = some target →
        target < Piece.extent before ∧ ∃ n earlier q later, p.item = .name true n ∧
          before = earlier ++ q :: later ∧ q.item = .name true n ∧
          Piece.extent earlier = target ∧ q.target? = none ∧ Stands n.wire d target) ∧
      encode false m = .ok plain ∧ plain.size = d.size + (pieces.map Piece.saving).sum ∧
      d.size ≤ plain.size ∧ (d.size < plain.size ↔ ∃ p ∈ pieces, p.target?.isSome) := by
  obtain ⟨hm, rfl⟩ := encode_eq_ok_iff.mp h
  have hlayout := Writer.laidOut_pieces (m.items true)
  rw [← Writer.message_eq_putAll] at hlayout
  have hplain : (Writer.message false {} m).bytes.size =
      (Writer.message true {} m).bytes.size +
        ((Writer.pieces {} (m.items true)).map Piece.saving).sum := by
    rw [hlayout.size_add_saving, m.flatMap_full_items, Writer.message_eq_putAll,
      ← Array.length_toList, Writer.toList_bytes_putAll_of_plain _ m.name_true_not_mem_items]
    rfl
  refine ⟨_, _, hlayout, ?_, encode_eq_ok_iff.mpr ⟨hm, rfl⟩, hplain, ?_, ?_⟩
  · intro before p after target hpieces htarget
    exact hlayout.target_full hpieces htarget
  · rw [hplain]
    exact Nat.le_add_right _ _
  · rw [hplain, ← hlayout.saving_pos_iff]
    omega

/-- The second question's name is a pointer to the first's. -/
theorem encode_layout_askedTwice :
    encode true askedTwice = .ok askedTwiceDatagram ∧
      ∃ pieces plain, LaidOut (askedTwice.items true) pieces askedTwiceDatagram ∧
        encode false askedTwice = .ok plain ∧
        plain.size = askedTwiceDatagram.size + (pieces.map Piece.saving).sum ∧
        (askedTwiceDatagram.size < plain.size ↔ ∃ p ∈ pieces, p.target?.isSome) := by
  have h : encode true askedTwice = .ok askedTwiceDatagram := eq_ok_of_toOption (by decide +kernel)
  obtain ⟨pieces, plain, hlayout, -, hplain, hsize, -, hlt⟩ := encode_layout h
  exact ⟨h, pieces, plain, hlayout, hplain, hsize, hlt⟩

end DnsResponder
