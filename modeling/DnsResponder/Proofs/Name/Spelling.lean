import DnsResponder.Proofs.Name.Labels

/-!
# Which text is a name

A label is its text: from the text of a label that very label is read again, and no other
text gives it. So a name is read from a text exactly when its labels, each as text, are
the parts of it, and what remains to be said is of which texts the parts are labels.

Reading cuts at every dot, and writing puts a dot between any two labels. A name that has
a dot inside a label is therefore written like another one, and only the other one is read
again. Dots inside labels are the only thing that is lost.
-/

namespace DnsResponder

namespace Dotted

/-! ## Pieces -/

theorem join_eq_intercalate (ps : List (List Char)) : join ps = ['.'].intercalate ps := by
  induction ps with
  | nil => rfl
  | cons p ps ih =>
      cases ps with
      | nil => simp [join]
      | cons q qs => rw [join, ih, List.intercalate_cons_cons, List.append_assoc, List.singleton_append]

/-- The pieces are what splitting at the dots gives. -/
theorem pieces_eq_splitOn (cs : List Char) : pieces cs = cs.splitOn '.' := by
  have hsplit := List.splitOn_intercalate '.' (fun p hp => not_mem_of_mem_pieces hp) (pieces_ne_nil cs)
  rw [← join_eq_intercalate, join_pieces] at hsplit
  exact hsplit.symm

/-- Behind a closing dot stands one more piece, an empty one. -/
theorem pieces_concat_dot (cs : List Char) : pieces (cs ++ ['.']) = pieces cs ++ [[]] := by
  induction cs with
  | nil => rfl
  | cons c cs ih =>
      obtain ⟨p, ps, h⟩ := List.exists_cons_of_ne_nil (pieces_ne_nil cs)
      rw [List.cons_append, pieces_cons, pieces_cons, ih, h, List.cons_append, cut, cut]
      split
      · rfl
      · rfl

/-- A closing dot is dropped, and nothing else. -/
theorem dropClosingDot_cases (cs : List Char) :
    cs = dropClosingDot cs ++ ['.'] ∨ cs = dropClosingDot cs ∧ cs.getLast? ≠ some '.' := by
  unfold dropClosingDot
  split
  · rename_i hlast
    exact .inl (List.dropLast_append_getLast? '.' hlast).symm
  · rename_i hlast
    exact .inr ⟨rfl, hlast⟩

/-- Pieces of which none is empty and none holds a dot do not end with one when joined. -/
theorem dropClosingDot_join {ps : List (List Char)} (hne : [] ∉ ps) (hdot : ∀ p ∈ ps, '.' ∉ p) :
    dropClosingDot (join ps) = join ps := by
  rcases dropClosingDot_cases (join ps) with hclosed | ⟨hopen, -⟩
  · cases ps with
    | nil => rfl
    | cons p ps =>
        -- else the last piece would be the empty one behind that dot
        have hpieces := congrArg pieces hclosed
        rw [pieces_concat_dot, pieces_join (List.cons_ne_nil p ps) hdot] at hpieces
        rw [hpieces] at hne
        exact absurd (List.mem_append_right _ List.mem_cons_self) hne
  · exact hopen.symm

theorem mem_join_of_mem {ps : List (List Char)} {p : List Char} {c : Char} (hp : p ∈ ps)
    (hc : c ∈ p) : c ∈ join ps := by
  induction ps with
  | nil => cases hp
  | cons q ps ih =>
      cases ps with
      | nil =>
          obtain rfl := List.mem_singleton.mp hp
          exact hc
      | cons r ps =>
          rcases List.mem_cons.mp hp with rfl | hp
          · exact List.mem_append_left _ hc
          · exact List.mem_append_right _ (List.mem_cons_of_mem _ (ih hp))

theorem mem_of_mem_join {ps : List (List Char)} {c : Char} (hc : c ∈ join ps) :
    c = '.' ∨ ∃ p ∈ ps, c ∈ p := by
  induction ps with
  | nil => cases hc
  | cons q ps ih =>
      cases ps with
      | nil => exact .inr ⟨q, List.mem_cons_self, hc⟩
      | cons r ps =>
          rcases List.mem_append.mp hc with hc | hc
          · exact .inr ⟨q, List.mem_cons_self, hc⟩
          · rcases List.mem_cons.mp hc with rfl | hc
            · exact .inl rfl
            · rcases ih hc with hdot | ⟨p, hp, hc⟩
              · exact .inl hdot
              · exact .inr ⟨p, List.mem_cons_of_mem q hp, hc⟩

/-- What stands between the dots of a text. Empty text spells the root, so nothing stands there. -/
def spelt (body : List Char) : List (List Char) := if body = [] then [] else body.splitOn '.'

/-- The text spells a name other than the root. No closing dot is left in it. -/
structure IsName (body : List Char) : Prop where
  ascii : ∀ c ∈ body, Text.IsAscii c
  length_le : Text.utf8Length body ≤ 253
  pieces : ∀ p ∈ body.splitOn '.', 1 ≤ Text.utf8Length p ∧ Text.utf8Length p ≤ 63

end Dotted

/-! ## Labels -/

namespace Label

theorem isAscii_of_mem_chars {l : Label} : ∀ c ∈ l.chars, Text.IsAscii c := by
  intro c hc
  obtain ⟨o, ho, rfl⟩ := List.mem_map.mp hc
  exact Text.isAscii_char (l.ascii o ho)

theorem utf8Length_chars (l : Label) : Text.utf8Length l.chars = l.length := by
  rw [Text.utf8Length_of_isAscii isAscii_of_mem_chars]
  exact List.length_map _

theorem octets_eq (l : Label) : l.octets = l.chars.map Text.octet :=
  (Text.map_octet_char l.octets).symm

theorem chars_injective : Function.Injective chars := by
  intro l k h
  apply octets_injective
  rw [octets_eq, octets_eq, h]

theorem chars_of_ofText {s : String} {l : Label} (h : ofText s = .ok l) : l.chars = s.toList := by
  obtain ⟨hascii, hoctets⟩ := of_ofText h
  unfold chars
  rw [hoctets, Text.map_char_octet hascii]

theorem exists_ofText {s : String} (hne : s.toList ≠ []) (hlen : Text.utf8Length s.toList ≤ maxLabelLength)
    (hascii : ∀ c ∈ s.toList, Text.IsAscii c) : ∃ l, ofText s = .ok l := by
  unfold ofText
  dsimp only
  rw [dif_neg hne, dif_neg (Nat.not_lt_of_le hlen), dif_pos (by simpa using hascii)]
  exact ⟨_, rfl⟩

/-- The characters are those of a label exactly when they are ASCII and 1 to 63 of them. -/
theorem exists_chars_iff {cs : List Char} :
    (∃ l : Label, l.chars = cs) ↔
      (∀ c ∈ cs, Text.IsAscii c) ∧ 1 ≤ Text.utf8Length cs ∧ Text.utf8Length cs ≤ 63 := by
  constructor
  · rintro ⟨l, rfl⟩
    rw [utf8Length_chars]
    exact ⟨isAscii_of_mem_chars, l.length_pos, l.length_le⟩
  · rintro ⟨hascii, hpos, hlen⟩
    have hne : cs ≠ [] := by
      rintro rfl
      exact absurd hpos (by decide)
    have hs : (String.ofList cs).toList = cs := String.toList_ofList
    obtain ⟨l, hl⟩ : ∃ l, ofText (String.ofList cs) = .ok l :=
      exists_ofText (by rwa [hs]) (by rwa [hs]) (by rwa [hs])
    exact ⟨l, (chars_of_ofText hl).trans hs⟩

/-- A label is read from its own text and from no other. -/
theorem ofText_iff_text {s : String} {l : Label} : ofText s = .ok l ↔ l.text = s := by
  constructor
  · intro h
    unfold text
    rw [chars_of_ofText h, String.ofList_toList]
  · rintro rfl
    have hs : l.text.toList = l.chars := String.toList_ofList
    obtain ⟨hascii, hpos, hlen⟩ := exists_chars_iff.mp ⟨l, rfl⟩
    obtain ⟨k, hk⟩ : ∃ k, ofText l.text = .ok k := by
      refine exists_ofText ?_ (by rwa [hs]) (by rwa [hs])
      rw [hs]
      rintro hnone
      rw [hnone] at hpos
      exact absurd hpos (by decide)
    have hsame : k = l := chars_injective ((chars_of_ofText hk).trans hs)
    rw [hk, hsame]

end Label

/-! ## Names -/

namespace Name

variable {n : Name} {s : String}

theorem eq_of_labels {n m : Name} (h : n.labels = m.labels) : n = m :=
  eq_iff_map_octets.mpr (congrArg _ h)

/-- Pushing the texts of labels that still fit adds these labels. -/
theorem foldlM_pushText {ls : List Label} :
    ∀ {n m : Name}, m.labels = n.labels ++ ls → (ls.map Label.text).foldlM pushText n = .ok m := by
  induction ls with
  | nil =>
      intro n m h
      rw [List.append_nil] at h
      exact congrArg _ (eq_of_labels h.symm)
  | cons l ls ih =>
      intro n m h
      have hsplit : m.labels = (n.labels ++ [l]) ++ ls := by
        rw [h, List.append_assoc, List.singleton_append]
      have hfits : DnsResponder.wireLength (n.labels ++ [l]) ≤ maxNameLength :=
        fits_of_append (hsplit ▸ m.fits)
      have hpush : n.pushText l.text = .ok ⟨n.labels ++ [l], hfits⟩ := by
        have hlabel := Label.ofText_iff_text.mpr (rfl : l.text = l.text)
        rw [pushText_eq, hlabel]
        exact push_eq_of_fits hfits
      rw [List.map_cons, List.foldlM_cons, hpush]
      exact ih hsplit

/-- A name is built from the texts of its labels and from no others. -/
theorem ofLabels_eq_ok_iff {texts : List String} :
    ofLabels texts = .ok n ↔ n.labels.map Label.text = texts := by
  constructor
  · intro h
    have hlabels : List.Forall₂ (fun s l => Label.text l = s) texts n.labels :=
      (forall₂_of_ofLabels h).imp fun _ _ => Label.ofText_iff_text.mp
    rw [← List.forall₂_eq_eq_eq, List.forall₂_map_left_iff]
    exact hlabels.flip
  · rintro rfl
    exact foldlM_pushText rfl

/-- A name is read from text exactly when its labels stand between the dots of that text. -/
theorem ofText_iff_spelt :
    ofText s = .ok n ↔
      n.labels.map Label.chars = Dotted.spelt (Dotted.dropClosingDot s.toList) := by
  unfold ofText Dotted.spelt
  cases Dotted.dropClosingDot s.toList with
  | nil =>
      rw [if_pos rfl]
      constructor
      · intro h
        cases h
        rfl
      · intro h
        exact congrArg _ (eq_of_labels (List.map_eq_nil_iff.mp h).symm)
  | cons c cs =>
      have htexts : n.labels.map Label.text = (n.labels.map Label.chars).map String.ofList :=
        List.map_map.symm
      have hinjective : Function.Injective (List.map String.ofList) :=
        Function.Injective.list_map fun _ _ => String.ofList_injective
      rw [if_neg (List.cons_ne_nil c cs), ← Dotted.pieces_eq_splitOn, ← hinjective.eq_iff, ← htexts,
        ← ofLabels_eq_ok_iff]
      dsimp only
      cases ofLabels ((Dotted.pieces (c :: cs)).map String.ofList) with
      | error e => simp [Except.mapError]
      | ok m => simp [Except.mapError]

/-! ## Length and spelling -/

/-- Labels take up two octets more on the wire than in writing. -/
theorem wireLength_eq_join {ls : List Label} (h : ls ≠ []) :
    DnsResponder.wireLength ls = Text.utf8Length (Dotted.join (ls.map Label.chars)) + 2 := by
  induction ls with
  | nil => exact absurd rfl h
  | cons l ls ih =>
      cases ls with
      | nil =>
          have hjoin : Dotted.join ([l].map Label.chars) = l.chars := rfl
          rw [hjoin, wireLength_cons, wireLength_nil, Label.utf8Length_chars]
      | cons m ms =>
          have hdot : Text.utf8Length ['.'] = 1 := rfl
          have hjoin : Dotted.join ((l :: m :: ms).map Label.chars) =
              l.chars ++ (['.'] ++ Dotted.join ((m :: ms).map Label.chars)) := rfl
          rw [hjoin, wireLength_cons, ih (List.cons_ne_nil m ms), Text.utf8Length_append,
            Text.utf8Length_append, hdot, Label.utf8Length_chars]
          omega

theorem isAscii_of_mem_chars : ∀ c ∈ n.chars, Text.IsAscii c := by
  unfold chars
  split
  · exact List.forall_mem_singleton.mpr (by decide)
  · intro c hc
    rcases Dotted.mem_of_mem_join hc with rfl | ⟨p, hp, hc⟩
    · decide
    · obtain ⟨l, -, rfl⟩ := List.mem_map.mp hp
      exact Label.isAscii_of_mem_chars c hc

/-- Text that is read is empty or has a label for each piece. -/
theorem root_or_pieces (h : ofText s = .ok n) :
    let body := Dotted.dropClosingDot s.toList
    (body = [] ∧ n.labels = []) ∨
      body ≠ [] ∧ n.labels ≠ [] ∧ n.labels.map Label.chars = Dotted.pieces body := by
  have hlabels := ofText_iff_spelt.mp h
  unfold Dotted.spelt at hlabels
  split at hlabels
  · rename_i hroot
    exact .inl ⟨hroot, List.map_eq_nil_iff.mp hlabels⟩
  · rename_i hbody
    rw [← Dotted.pieces_eq_splitOn] at hlabels
    refine .inr ⟨hbody, fun hnone => ?_, hlabels⟩
    rw [hnone] at hlabels
    exact Dotted.pieces_ne_nil _ hlabels.symm

/-- A name that is read is written as the text from which it was read, but for a closing dot. -/
theorem chars_of_ofText (h : ofText s = .ok n) :
    n.chars =
      if Dotted.dropClosingDot s.toList = [] then ['.'] else Dotted.dropClosingDot s.toList := by
  unfold chars
  rcases root_or_pieces h with ⟨hroot, hnone⟩ | ⟨hbody, hne, hlabels⟩
  · rw [if_pos hnone, if_pos hroot]
  · rw [if_neg hne, if_neg hbody, hlabels, Dotted.join_pieces]

theorem wireLength_of_ofText (h : ofText s = .ok n) :
    n.wireLength =
      if Dotted.dropClosingDot s.toList = [] then 1
      else Text.utf8Length (Dotted.dropClosingDot s.toList) + 2 := by
  unfold wireLength
  rcases root_or_pieces h with ⟨hroot, hnone⟩ | ⟨hbody, hne, hlabels⟩
  · rw [hnone, if_pos hroot, wireLength_nil]
  · rw [wireLength_eq_join hne, hlabels, Dotted.join_pieces, if_neg hbody]

/-- Pieces are those of labels when each is short enough, not empty, and ASCII. -/
theorem exists_map_chars {ps : List (List Char)}
    (h : ∀ p ∈ ps, (∀ c ∈ p, Text.IsAscii c) ∧ 1 ≤ Text.utf8Length p ∧ Text.utf8Length p ≤ 63) :
    ∃ ls : List Label, ls.map Label.chars = ps := by
  induction ps with
  | nil => exact ⟨[], rfl⟩
  | cons p ps ih =>
      obtain ⟨hp, hps⟩ := List.forall_mem_cons.mp h
      obtain ⟨l, hl⟩ := Label.exists_chars_iff.mpr hp
      obtain ⟨ls, hls⟩ := ih hps
      exact ⟨l :: ls, by rw [List.map_cons, hl, hls]⟩

/-- Text that spells a name is put together from labels that fit into one. -/
theorem exists_labels_of_isName {body : List Char} (h : Dotted.IsName body) :
    ∃ ls, DnsResponder.wireLength ls ≤ maxNameLength ∧ ls.map Label.chars = Dotted.spelt body := by
  have hjoin : Dotted.join (body.splitOn '.') = body := by
    rw [← Dotted.pieces_eq_splitOn, Dotted.join_pieces]
  obtain ⟨ls, hls⟩ : ∃ ls : List Label, ls.map Label.chars = body.splitOn '.' := by
    refine exists_map_chars fun p hp => ⟨fun c hc => h.ascii c ?_, h.pieces p hp⟩
    exact hjoin ▸ Dotted.mem_join_of_mem hp hc
  have hne : ls ≠ [] := by
    rintro rfl
    rw [← Dotted.pieces_eq_splitOn] at hls
    exact Dotted.pieces_ne_nil body hls.symm
  have hmax : DnsResponder.wireLength ls ≤ 255 := by
    have hlength := h.length_le
    rw [wireLength_eq_join hne, hls, hjoin]
    omega
  have hbody : body ≠ [] := by
    rintro rfl
    exact absurd (h.pieces [] List.mem_cons_self).1 (by decide)
  refine ⟨ls, hmax, ?_⟩
  unfold Dotted.spelt
  rw [if_neg hbody, hls]

/-- The texts that are read as names. -/
theorem exists_ofText_iff :
    (∃ n, ofText s = .ok n) ↔
      Dotted.dropClosingDot s.toList = [] ∨ Dotted.IsName (Dotted.dropClosingDot s.toList) := by
  constructor
  · rintro ⟨n, h⟩
    have hchars := chars_of_ofText h
    have hlength := wireLength_of_ofText h
    rcases root_or_pieces h with ⟨hroot, -⟩ | ⟨hbody, -, hlabels⟩
    · exact .inl hroot
    · rw [if_neg hbody] at hchars hlength
      refine .inr ⟨hchars ▸ isAscii_of_mem_chars, ?_, fun p hp => ?_⟩
      · have hmax : n.wireLength ≤ 255 := n.fits
        omega
      · rw [← Dotted.pieces_eq_splitOn, ← hlabels] at hp
        obtain ⟨l, -, rfl⟩ := List.mem_map.mp hp
        exact (Label.exists_chars_iff.mp ⟨l, rfl⟩).2
  · rintro (hroot | hbody)
    · refine ⟨root, ofText_iff_spelt.mpr ?_⟩
      rw [hroot]
      rfl
    · obtain ⟨ls, hfits, hls⟩ := exists_labels_of_isName hbody
      exact ⟨⟨ls, hfits⟩, ofText_iff_spelt.mpr hls⟩

/-- The text of a name spells its labels, if none of them holds a dot. -/
theorem spelt_chars (h : ∀ l ∈ n.labels, '.' ∉ l.chars) :
    Dotted.spelt (Dotted.dropClosingDot n.chars) = n.labels.map Label.chars := by
  have hdot : ∀ p ∈ n.labels.map Label.chars, '.' ∉ p := by
    intro p hp
    obtain ⟨l, hl, rfl⟩ := List.mem_map.mp hp
    exact h l hl
  have hempty : [] ∉ n.labels.map Label.chars := by
    intro hp
    obtain ⟨l, -, hl⟩ := List.mem_map.mp hp
    exact absurd (Label.exists_chars_iff.mp ⟨l, hl⟩).2.1 (by decide)
  unfold chars
  split
  · rename_i hroot
    rw [hroot]
    rfl
  · rename_i hne
    have hmap : n.labels.map Label.chars ≠ [] := by simpa using hne
    have hpieces := Dotted.pieces_join hmap hdot
    rw [Dotted.dropClosingDot_join hempty hdot]
    unfold Dotted.spelt
    rw [if_neg ?_, ← Dotted.pieces_eq_splitOn, hpieces]
    intro hnone
    rw [hnone, Dotted.pieces_nil] at hpieces
    exact hempty (hpieces ▸ List.mem_cons_self)

/--
Text, without a closing dot, is a name exactly when it is empty or ASCII, of at most 253
bytes and cut by its dots into pieces of 1 to 63 bytes. The labels are then these pieces,
and the name is written as that text. A name is read from the text in which it is written
exactly when no label holds a dot.
-/
theorem ofText_corresponds :
    (∀ s : String, ∃ body,
      (s.toList = body ++ ['.'] ∨ s.toList = body ∧ body.getLast? ≠ some '.') ∧
      ((∃ n, ofText s = .ok n) ↔ body = [] ∨ Dotted.IsName body) ∧
      ∀ n, ofText s = .ok n →
        n.labels.map Label.chars = (if body = [] then [] else body.splitOn '.') ∧
        n.wireLength = (if body = [] then 1 else Text.utf8Length body + 2) ∧
        n.text = (if body = [] then "." else String.ofList body)) ∧
    ∀ n : Name, ofText n.text = .ok n ↔ ∀ l ∈ n.labels, '.' ∉ l.chars := by
  refine ⟨fun s => ⟨Dotted.dropClosingDot s.toList, ?_, exists_ofText_iff, fun n h => ?_⟩,
    fun n => ?_⟩
  · rcases Dotted.dropClosingDot_cases s.toList with hclosed | ⟨hopen, hlast⟩
    · exact .inl hclosed
    · exact .inr ⟨hopen, hopen ▸ hlast⟩
  · refine ⟨ofText_iff_spelt.mp h, wireLength_of_ofText h, ?_⟩
    unfold text
    rw [chars_of_ofText h]
    split
    · rfl
    · rfl
  · have hchars : n.text.toList = n.chars := String.toList_ofList
    constructor
    · intro h l hl hdot
      refine dot_not_mem_of_ofText h l hl ?_
      rw [l.octets_eq]
      exact List.mem_map_of_mem hdot
    · intro h
      exact ofText_iff_spelt.mpr (by rw [hchars, spelt_chars h])

end Name

end DnsResponder
