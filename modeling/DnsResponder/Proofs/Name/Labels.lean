import DnsResponder.Name.Dotted
import Mathlib.Data.List.Forall2

/-!
# The labels that text spells

Dotted text that is read as a name gives one label for each piece between its dots, and
a label holds the very octets of its piece. So a name that was read from text and a
name that came over the wire are equal exactly when pieces and labels agree octet by
octet. A label that holds a dot agrees with no piece.
-/

namespace DnsResponder

/-- The octets in which a piece of text is stored and sent. -/
def Text.utf8 (s : String) : List UInt8 := s.toUTF8.data.toList

/-- Text is stored character by character. -/
theorem Text.utf8_eq_flatMap (s : String) : utf8 s = s.toList.flatMap String.utf8EncodeChar := by
  have hbytes : s.toUTF8 = (s.toList.flatMap String.utf8EncodeChar).toByteArray :=
    String.utf8Encode_toList.symm
  unfold utf8
  rw [hbytes, List.data_toByteArray]

/-- ASCII text is stored as one octet for each character. -/
theorem Text.utf8_of_isAscii {s : String} (h : ∀ c ∈ s.toList, IsAscii c) :
    utf8 s = s.toList.map octet := by
  have key : ∀ cs : List Char, (∀ c ∈ cs, IsAscii c) →
      cs.flatMap String.utf8EncodeChar = cs.map octet := by
    intro cs hcs
    induction cs with
    | nil => rfl
    | cons c cs ih =>
        have hsize : utf8Length [c] = [c].length := utf8Length_of_isAscii fun d hd =>
          hcs d (List.mem_cons.mpr (.inl (List.mem_singleton.mp hd)))
        -- a character below 128 is its own encoding
        have hone : String.utf8EncodeChar c = [octet c] := String.utf8EncodeChar_eq_singleton hsize
        rw [List.flatMap_cons, hone, ih fun d hd => hcs d (List.mem_cons_of_mem c hd), List.map_cons,
          List.singleton_append]
  rw [utf8_eq_flatMap, key s.toList h]

/-- Octets are those of the characters that they stand for. -/
theorem Text.map_octet_char (os : List UInt8) : (os.map char).map octet = os := by
  rw [List.map_map]
  exact List.map_id'' octet_char os

/-- ASCII characters are those that their octets stand for. -/
theorem Text.map_char_octet {cs : List Char} (h : ∀ c ∈ cs, IsAscii c) :
    (cs.map octet).map char = cs := by
  rw [List.map_map]
  calc cs.map (char ∘ octet)
      = cs.map id := List.map_congr_left fun c hc => char_octet (h c hc)
    _ = cs := List.map_id _

namespace Dotted

/--
The pieces that stand for labels: those between the dots once a closing dot is dropped.
The root has none.
-/
def parts (s : String) : List String :=
  match dropClosingDot s.toList with
  | [] => []
  | body => (pieces body).map String.ofList

theorem dot_not_mem_of_mem_parts {s p : String} (h : p ∈ parts s) : '.' ∉ p.toList := by
  unfold parts at h
  split at h
  · cases h
  · obtain ⟨cs, hcs, rfl⟩ := List.mem_map.mp h
    rw [String.toList_ofList]
    exact not_mem_of_mem_pieces hcs

end Dotted

/-! ## Labels -/

/-- Labels with the same octets are the same label. -/
theorem Label.octets_injective : Function.Injective octets := by
  intro l k h
  obtain ⟨octets, _, _, _⟩ := l
  obtain ⟨octets', _, _, _⟩ := k
  cases h
  rfl

/-- Text that is read as a label is ASCII, and the label holds its octets. -/
theorem Label.of_ofText {s : String} {l : Label} (h : ofText s = .ok l) :
    (∀ c ∈ s.toList, Text.IsAscii c) ∧ l.octets = s.toList.map Text.octet := by
  unfold ofText at h
  dsimp only at h
  split at h
  · cases h
  · split at h
    · cases h
    · split at h
      · rename_i hascii
        cases h
        exact ⟨by simpa using hascii, rfl⟩
      · cases h

theorem Label.octets_of_ofText {s : String} {l : Label} (h : ofText s = .ok l) :
    l.octets = Text.utf8 s := by
  obtain ⟨hascii, hoctets⟩ := of_ofText h
  rw [hoctets, Text.utf8_of_isAscii hascii]

/-- A label read from text without a dot holds no dot. -/
theorem Label.dot_not_mem_of_ofText {s : String} {l : Label} (h : ofText s = .ok l)
    (hdot : '.' ∉ s.toList) : Text.octet '.' ∉ l.octets := by
  obtain ⟨hascii, hoctets⟩ := of_ofText h
  rw [hoctets]
  intro hmem
  obtain ⟨c, hc, heq⟩ := List.mem_map.mp hmem
  have hchar := congrArg Text.char heq
  rw [Text.char_octet (hascii c hc), Text.char_octet (by decide)] at hchar
  exact hdot (hchar ▸ hc)

/-! ## Lengths -/

theorem one_le_wireLength (ls : List Label) : 1 ≤ wireLength ls := by
  cases ls with
  | nil => exact Nat.le_refl 1
  | cons l ls => rw [wireLength_cons]; omega

/-- Labels put behind others share their terminator. -/
theorem wireLength_append (ls ks : List Label) :
    wireLength (ls ++ ks) + 1 = wireLength ls + wireLength ks := by
  induction ls with
  | nil => rw [List.nil_append, wireLength_nil, Nat.add_comm]
  | cons l ls ih =>
      rw [List.cons_append, wireLength_cons, wireLength_cons]
      omega

/-- The front of a name that fits does. -/
theorem fits_of_append {ls ks : List Label} (h : wireLength (ls ++ ks) ≤ maxNameLength) :
    wireLength ls ≤ maxNameLength := by
  have hsum := wireLength_append ls ks
  have hone := one_le_wireLength ks
  omega

namespace Name

/-! ## Names -/

/-- Names with the same octets label by label are the same name. -/
theorem eq_iff_map_octets {n m : Name} :
    n = m ↔ n.labels.map Label.octets = m.labels.map Label.octets := by
  refine ⟨fun h => ?_, fun h => ?_⟩
  · subst h
    rfl
  · have hlabels := Label.octets_injective.list_map h
    obtain ⟨labels, _⟩ := n
    obtain ⟨labels', _⟩ := m
    cases hlabels
    rfl

/-- A name with a label added that still fits. -/
theorem push_eq_of_fits {n : Name} {l : Label}
    (h : DnsResponder.wireLength (n.labels ++ [l]) ≤ maxNameLength) :
    n.push l = .ok ⟨n.labels ++ [l], h⟩ := by
  have hl : n.wireLength + l.length + 1 ≤ maxNameLength := by rwa [wireLength_concat] at h
  unfold push
  rw [dif_pos hl]

theorem pushText_eq_ok {n m : Name} {s : String} (h : n.pushText s = .ok m) :
    ∃ l, Label.ofText s = .ok l ∧ m.labels = n.labels ++ [l] := by
  rw [pushText_eq] at h
  rcases hl : Label.ofText s with e | l
  · rw [hl] at h; cases h
  · rw [hl] at h
    exact ⟨l, rfl, push_eq_ok h⟩

/-- A name built from texts has one label for each, read from it. -/
theorem forall₂_of_ofLabels {texts : List String} {n : Name} (h : ofLabels texts = .ok n) :
    List.Forall₂ (fun s l => Label.ofText s = .ok l) texts n.labels := by
  -- pushing goes on from any name, so the induction is not about the root alone
  have key : ∀ (texts : List String) (n m : Name), texts.foldlM pushText n = .ok m →
      ∃ ls, m.labels = n.labels ++ ls ∧
        List.Forall₂ (fun s l => Label.ofText s = .ok l) texts ls := by
    intro texts
    induction texts with
    | nil =>
        intro n m h
        cases h
        exact ⟨[], (List.append_nil _).symm, .nil⟩
    | cons s texts ih =>
        intro n m h
        rw [List.foldlM_cons] at h
        rcases hs : n.pushText s with e | n'
        · rw [hs] at h; cases h
        · rw [hs] at h
          obtain ⟨l, hl, hn'⟩ := pushText_eq_ok hs
          obtain ⟨ls, hm, hall⟩ := ih n' m h
          refine ⟨l :: ls, ?_, .cons hl hall⟩
          rw [hm, hn', List.append_assoc, List.singleton_append]
  obtain ⟨ls, hn, hall⟩ := key texts root n h
  rw [hn]
  exact hall

/-- Text that is read as a name spells its labels one by one. -/
theorem forall₂_of_ofText {s : String} {n : Name} (h : ofText s = .ok n) :
    List.Forall₂ (fun s l => Label.ofText s = .ok l) (Dotted.parts s) n.labels := by
  unfold ofText at h
  unfold Dotted.parts
  cases hbody : Dotted.dropClosingDot s.toList with
  | nil =>
      rw [hbody] at h
      cases h
      exact .nil
  | cons c cs =>
      rw [hbody] at h
      dsimp only at h ⊢
      rcases hl : ofLabels ((Dotted.pieces (c :: cs)).map String.ofList) with e | m
      · rw [hl] at h; cases h
      · rw [hl] at h
        cases h
        exact forall₂_of_ofLabels hl

/-- The labels of a name that was read hold the octets of the pieces it was read from. -/
theorem map_octets_of_ofText {s : String} {n : Name} (h : ofText s = .ok n) :
    n.labels.map Label.octets = (Dotted.parts s).map Text.utf8 := by
  have key : ∀ {texts : List String} {ls : List Label},
      List.Forall₂ (fun s l => Label.ofText s = .ok l) texts ls →
        ls.map Label.octets = texts.map Text.utf8 := by
    intro texts ls hall
    induction hall with
    | nil => rfl
    | cons hl _ ih => rw [List.map_cons, List.map_cons, ih, Label.octets_of_ofText hl]
  exact key (forall₂_of_ofText h)

/-- A name that was read from text has no label that holds a dot. -/
theorem dot_not_mem_of_ofText {s : String} {n : Name} (h : ofText s = .ok n) :
    ∀ l ∈ n.labels, Text.octet '.' ∉ l.octets := by
  have key : ∀ {texts : List String} {ls : List Label},
      List.Forall₂ (fun s l => Label.ofText s = .ok l) texts ls →
        (∀ t ∈ texts, '.' ∉ t.toList) → ∀ l ∈ ls, Text.octet '.' ∉ l.octets := by
    intro texts ls hall hdot
    induction hall with
    | nil => exact List.forall_mem_nil _
    | cons hl _ ih =>
        obtain ⟨hfirst, hrest⟩ := List.forall_mem_cons.mp hdot
        exact List.forall_mem_cons.mpr ⟨Label.dot_not_mem_of_ofText hl hfirst, ih hrest⟩
  exact key (forall₂_of_ofText h) fun _ => Dotted.dot_not_mem_of_mem_parts

end Name

end DnsResponder
