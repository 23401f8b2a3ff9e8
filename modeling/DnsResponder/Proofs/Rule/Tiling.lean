import DnsResponder.Proofs.Name.Labels
import DnsResponder.Proofs.Rule.Cutting
import DnsResponder.Proofs.Rule.Moving

/-!
# Tokens tile their source

Tokens and the blanks between them make up the whole source. No character is lost between
two tokens and none is in two of them, so a rule cannot come to mean something else without
an error. Besides, every token is as long as it can be. What may go wrong there happens at
its two ends: the token before it could have gone on, or it could go on itself.

The end is settled by the cut itself. The beginning is settled by the cut before it, which
left a *seam* in the source: a place where no run of text goes on and no dash meets a `>`.
A blank makes a seam too, so there is one wherever a token starts.
-/

namespace DnsResponder

/-! ## Seams -/

/-- Between the two pieces of source no run of text goes on, and no dash meets a `>`. -/
structure Seam (before rest : List Char) : Prop where
  text : ∀ b ∈ before.getLast?, isTextChar b = true → ∀ ch ∈ rest.head?, isTextChar ch = false
  arrow : before.getLast? = some '-' → rest.head? ≠ some '>'

theorem isTextChar_of_isBlank {b : Char} (h : isBlank b = true) : isTextChar b = false :=
  (ends_of_isBlank h (by decide : Token.Kind.text ≠ .comment)).text

theorem Seam.start (rest : List Char) : Seam [] rest where
  text _ hb := by cases hb
  arrow h := by cases h

/-- A character that is neither text nor a dash leaves a seam behind it. -/
theorem Seam.of_last {before rest : List Char} {b : Char} (h : before.getLast? = some b)
    (htext : isTextChar b = false) (hdash : b ≠ '-') : Seam before rest where
  text d hd hdtext := by
    obtain rfl : b = d := Option.some.inj (h.symm.trans hd)
    rw [htext] at hdtext
    cases hdtext
  arrow hlast := absurd (Option.some.inj (h.symm.trans hlast)) hdash

/-- So does whatever stands in front of a character that is neither text nor `>`. -/
theorem Seam.of_head {before rest : List Char}
    (h : ∀ ch ∈ rest.head?, isTextChar ch = false ∧ ch ≠ '>') : Seam before rest where
  text _ _ _ ch hch := (h ch hch).1
  arrow _ hhead := (h '>' hhead).2 rfl

theorem head?_dropWhile_stop {p : Char → Bool} {cs : List Char} :
    ∀ ch ∈ (cs.dropWhile p).head?, p ch = false := by
  intro ch hch
  have hnot := List.head?_dropWhile_not p cs
  rw [Option.mem_def.mp hch] at hnot
  simpa using hnot

theorem getLast?_append_of_some {before part : List Char} {b : Char} (h : part.getLast? = some b) :
    (before ++ part).getLast? = some b := by
  rw [List.getLast?_append, h, Option.some_or]

theorem seam_of_blanks {before gap rest : List Char} (h : Seam before (gap ++ rest))
    (hgap : ∀ b ∈ gap, isBlank b = true) : Seam (before ++ gap) rest := by
  cases hlast : gap.getLast? with
  | none =>
      obtain rfl := List.getLast?_eq_none_iff.mp hlast
      rwa [List.append_nil]
  | some b =>
      have hb := hgap b (List.mem_of_getLast? hlast)
      refine .of_last (getLast?_append_of_some hlast) (isTextChar_of_isBlank hb) ?_
      rintro rfl
      cases hb

/-- Behind a token there is a seam, whatever stands in front of it. -/
theorem Lexed.seam {ch : Char} {cs : List Char} {l : Lexeme} (h : Lexed ch cs l)
    (before : List Char) : Seam (before ++ l.chars) l.rest := by
  cases h with
  | arrow => exact .of_last (getLast?_append_of_some rfl) rfl (by decide)
  | dash hhead =>
      refine ⟨fun b hb htext => ?_, fun _ => hhead⟩
      obtain rfl : '-' = b := Option.some.inj ((getLast?_append_of_some rfl).symm.trans hb)
      cases htext
  | angle => exact .of_last (getLast?_append_of_some rfl) rfl (by decide)
  | comment =>
      refine .of_head fun b hb => ?_
      have hend : isLineEnd b = true := by simpa using head?_dropWhile_stop b hb
      have hends := ends_of_isLineEnd .comment hend
      exact ⟨hends.text, hends.arrow⟩
  | text htext =>
      refine ⟨fun _ _ _ => head?_dropWhile_stop, fun hlast => ?_⟩
      -- a run of text does not end with a dash
      rw [List.getLast?_append_of_ne_nil before (List.cons_ne_nil ch _)] at hlast
      have hmem : '-' = ch ∨ isTextChar '-' = true :=
        (List.mem_cons.mp (List.mem_of_getLast? hlast)).imp_right List.mem_takeWhile_imp
      rcases hmem with rfl | hdash
      · cases htext
      · cases hdash
  | invalid hdash hangle hhash htext =>
      exact .of_last (getLast?_append_of_some rfl) htext hdash

/-! ## Tokens where they stand -/

/--
`part` is what a token of the kind holds where `before` and `after` stand around it. It
cannot be longer on either side.
-/
inductive Token.Kind.Covers (before after : List Char) : Token.Kind → List Char → Prop where
  | text {part : List Char} : part ≠ [] → (∀ c ∈ part, isTextChar c = true) →
      (∀ b ∈ before.getLast?, isTextChar b = false) →
      (∀ b ∈ after.head?, isTextChar b = false) → Covers before after .text part
  | comment {body : List Char} : (∀ c ∈ body, isLineEnd c = false) →
      (∀ b ∈ after.head?, isLineEnd b = true) → Covers before after .comment ('#' :: body)
  | arrow : Covers before after .arrow ['-', '>']
  | angle : before.getLast? ≠ some '-' → Covers before after .arrow ['>']
  | dash : after.head? ≠ some '>' → Covers before after .dash ['-']
  /-- The character starts no other token. -/
  | invalid {c : Char} : c ≠ '-' → c ≠ '>' → c ≠ '#' → isTextChar c = false → isBlank c = false →
      Covers before after .invalid [c]

/-- The token holds `part`, where `before` and `after` stand around it. -/
structure Token.Stands (t : Token) (before part after : List Char) : Prop where
  covers : Token.Kind.Covers before after t.kind part
  start : t.start = Text.utf8Length before
  stop : t.stop = Text.utf8Length (before ++ part)
  /-- Of a comment the `#` is left out. -/
  value : t.value = String.ofList (if t.kind = .comment then part.tail else part)

theorem Lexed.covers {ch : Char} {cs before : List Char} {l : Lexeme} (h : Lexed ch cs l)
    (hseam : Seam before (ch :: cs)) (hch : isBlank ch = false) :
    Token.Kind.Covers before l.rest l.kind l.chars := by
  cases h with
  | arrow => exact .arrow
  | dash hhead => exact .dash hhead
  | angle => exact .angle fun hlast => hseam.arrow hlast rfl
  | comment =>
      refine .comment (fun c hc => ?_) fun b hb => ?_
      · simpa using List.mem_takeWhile_imp hc
      · simpa using head?_dropWhile_stop b hb
  | text htext =>
      refine .text (List.cons_ne_nil ch _) ?_ (fun b hb => ?_) head?_dropWhile_stop
      · exact List.forall_mem_cons.mpr ⟨htext, fun c hc => List.mem_takeWhile_imp hc⟩
      · by_contra hbtext
        rw [hseam.text b hb (by simpa using hbtext) ch rfl] at htext
        cases htext
  | invalid hdash hangle hhash htext => exact .invalid hdash hangle hhash htext hch

/-! ## Tilings -/

/-- Behind `before`, tokens and the blanks between them make up what is left of the source. -/
inductive Tiled : List Char → List Char → List Token → Prop where
  | blanks {before rest : List Char} : (∀ b ∈ rest, isBlank b = true) → Tiled before rest []
  | token {before gap part rest : List Char} {t : Token} {ts : List Token} :
      (∀ b ∈ gap, isBlank b = true) → t.Stands (before ++ gap) part rest →
      Tiled (before ++ gap ++ part) rest ts → Tiled before (gap ++ part ++ rest) (t :: ts)

theorem Cursor.tiled_tokens (c : Cursor) :
    ∀ before, c.offset = Text.utf8Length before → Seam before c.rest →
      Tiled before c.rest c.tokens := by
  induction c using tokens.induct with
  | case1 c hend =>
      intro before _ _
      rw [tokens, if_pos hend]
      rcases c.ahead with ⟨hblank, -⟩ | ⟨bs, ch, cs, hbs, hch, hrest⟩
      · exact .blanks hblank
      · rw [next_of_ahead hbs hch hrest] at hend
        exact absurd hend (lexeme_kind_ne_eof ch cs)
  | case2 c hend ih =>
      intro before hoffset hseam
      rw [tokens, if_neg hend]
      rcases c.ahead with ⟨-, hend'⟩ | ⟨bs, ch, cs, hbs, hch, hrest⟩
      · exact absurd hend' hend
      · have hlexed := lexed_lexeme ch cs
        have hsplit : c.rest = bs ++ (lexeme ch cs).chars ++ (lexeme ch cs).rest := by
          rw [hrest, List.append_assoc, lexeme_chars_append_rest]
        rw [next_of_ahead hbs hch hrest] at ih ⊢
        rw [hrest] at hseam
        rw [hsplit]
        refine .token hbs ⟨hlexed.covers (seam_of_blanks hseam hbs) hch, ?_, ?_, rfl⟩ (ih _ ?_ ?_)
        · rw [hoffset, Text.utf8Length_append]
        · rw [hoffset, Text.utf8Length_append, Text.utf8Length_append]
        · unfold past
          dsimp only
          rw [hoffset, ← Text.utf8Length_append, List.append_assoc]
        · exact hlexed.seam (before ++ bs)

theorem Token.Kind.Covers.ne_nil {before after part : List Char} {kind : Token.Kind}
    (h : kind.Covers before after part) : part ≠ [] := by
  cases h with
  | text hne => exact hne
  | _ => exact List.cons_ne_nil _ _

theorem Token.Stands.start_lt_stop {t : Token} {before part after : List Char}
    (h : t.Stands before part after) : t.start < t.stop := by
  have hlength := Text.length_le_utf8Length part
  have hpos := List.length_pos_iff.mpr h.covers.ne_nil
  rw [h.start, h.stop, Text.utf8Length_append]
  omega

namespace Tiled

variable {before rest : List Char} {ts : List Token}

/-- Each token stands somewhere in the source. -/
theorem exists_stands (h : Tiled before rest ts) :
    ∀ t ∈ ts, ∃ front part back, before ++ rest = front ++ part ++ back ∧ t.Stands front part back := by
  induction h with
  | blanks _ => exact List.forall_mem_nil _
  | token hgap hstands _ ih =>
      refine List.forall_mem_cons.mpr ⟨⟨_, _, _, ?_, hstands⟩, fun t ht => ?_⟩
      · simp only [List.append_assoc]
      · obtain ⟨front, part, back, hsource, ht⟩ := ih t ht
        refine ⟨front, part, back, ?_, ht⟩
        rw [← hsource]
        simp only [List.append_assoc]

/-- A token ends before the next one starts. -/
theorem ordered (h : Tiled before rest ts) :
    (∀ t ∈ ts, Text.utf8Length before ≤ t.start) ∧ ts.Pairwise (·.stop ≤ ·.start) := by
  induction h with
  | blanks _ => exact ⟨List.forall_mem_nil _, .nil⟩
  | token hgap hstands _ ih =>
      obtain ⟨hbehind, hordered⟩ := ih
      have hstart := hstands.start
      have hlt := hstands.start_lt_stop
      rw [← hstands.stop] at hbehind
      rw [Text.utf8Length_append] at hstart
      refine ⟨List.forall_mem_cons.mpr ⟨by omega, fun t ht => ?_⟩, .cons hbehind hordered⟩
      have hle := hbehind t ht
      omega

end Tiled

/-! ### What is left between tokens -/

theorem Text.length_flatMap_utf8 (cs : List Char) :
    (cs.flatMap String.utf8EncodeChar).length = Text.utf8Length cs := by
  induction cs with
  | nil => rfl
  | cons c cs ih =>
      rw [List.flatMap_cons, List.length_append, String.length_utf8EncodeChar, ih,
        Text.utf8Length_cons]

/-- The bytes that stand for blanks. -/
def blankOctets : List UInt8 := [0x20, 0x09, 0x0D, 0x0A]

theorem mem_blankOctets {cs : List Char} (h : ∀ c ∈ cs, isBlank c = true) {o : UInt8}
    (ho : o ∈ cs.flatMap String.utf8EncodeChar) : o ∈ blankOctets := by
  have hblanks : [' ', '\t', '\r', '\n'].all fun c =>
      (String.utf8EncodeChar c).all (blankOctets.contains ·) := by decide
  obtain ⟨c, hc, ho⟩ := List.mem_flatMap.mp ho
  have hmem : c ∈ [' ', '\t', '\r', '\n'] := by simpa [isBlank, or_assoc] using h c hc
  exact List.contains_iff_mem.mp (List.all_eq_true.mp (List.all_eq_true.mp hblanks c hmem) o ho)

/-- A byte that is in no token stands for a blank. -/
theorem Tiled.mem_blankOctets {before rest : List Char} {ts : List Token}
    (h : Tiled before rest ts) :
    ∀ (i : Nat) (o : UInt8), (rest.flatMap String.utf8EncodeChar)[i]? = some o →
      (∀ t ∈ ts, ¬(t.start ≤ Text.utf8Length before + i ∧ Text.utf8Length before + i < t.stop)) →
      o ∈ blankOctets := by
  induction h with
  | blanks hblank =>
      intro i o ho _
      exact DnsResponder.mem_blankOctets hblank (List.mem_of_getElem? ho)
  | @token before gap part rest t ts hgap hstands _ ih =>
      intro i o ho hout
      obtain ⟨hfirst, hbehind⟩ := List.forall_mem_cons.mp hout
      have hstart := hstands.start
      have hstop := hstands.stop
      rw [Text.utf8Length_append] at hstart hstop
      rw [Text.utf8Length_append] at hstop
      rw [List.append_assoc, List.flatMap_append, List.flatMap_append] at ho
      rcases Nat.lt_or_ge i (Text.utf8Length gap) with hi | hi
      · rw [List.getElem?_append_left (by rwa [Text.length_flatMap_utf8])] at ho
        exact DnsResponder.mem_blankOctets hgap (List.mem_of_getElem? ho)
      · -- what is not in the gap is not in the token either, so it is behind both
        have hpart : Text.utf8Length gap + Text.utf8Length part ≤ i := by omega
        rw [List.getElem?_append_right (by rwa [Text.length_flatMap_utf8]),
          List.getElem?_append_right (by rw [Text.length_flatMap_utf8, Text.length_flatMap_utf8]; omega),
          Text.length_flatMap_utf8, Text.length_flatMap_utf8] at ho
        refine ih _ o ho fun u hu => ?_
        have hnot := hbehind u hu
        rw [Text.utf8Length_append, Text.utf8Length_append]
        omega

/-! ### Arrows -/

/-- A token that holds the dash of a `->` is that arrow, or a comment around it. -/
theorem Token.Stands.of_arrow {t : Token} {before after p q y : List Char}
    (h : t.Stands before (p ++ '-' :: q) after) (hangle : '>' :: y = q ++ after) :
    let o := Text.utf8Length (before ++ p)
    (t.kind = .comment ∧ t.start ≤ o ∧ o + 2 ≤ t.stop) ∨ t = ⟨.arrow, o, o + 2, "->"⟩ := by
  intro o
  have hdash : '-' ∈ p ++ '-' :: q := List.mem_append_right p List.mem_cons_self
  obtain ⟨kind, start, stop, value⟩ := t
  obtain ⟨hcovers, hstart, hstop, hvalue⟩ := h
  dsimp only at hcovers hstart hstop hvalue ⊢
  generalize hpart : p ++ '-' :: q = part at hcovers hstop hvalue hdash
  cases hcovers with
  | text _ htext _ _ => exact absurd (htext '-' hdash) (by decide)
  | comment _ hafter =>
      -- the comment does not end between the dash and the `>`
      cases q with
      | nil =>
          obtain rfl : '>' :: y = after := hangle
          exact absurd (hafter '>' rfl) (by decide)
      | cons d q =>
          obtain ⟨rfl, -⟩ := List.cons.inj hangle
          have htwo : stop = Text.utf8Length ((before ++ p) ++ ['-', '>'] ++ q) := by
            rw [hstop, ← hpart, List.append_assoc, List.append_assoc]
            rfl
          have hpair : Text.utf8Length ['-', '>'] = 2 := rfl
          rw [Text.utf8Length_append, Text.utf8Length_append, hpair] at htwo
          have hle : start ≤ o := by
            rw [hstart, show o = _ from Text.utf8Length_append before p]
            exact Nat.le_add_right _ _
          exact .inl ⟨rfl, hle, by omega⟩
  | arrow =>
      obtain rfl : p = [] := by
        cases p with
        | nil => rfl
        | cons d p => simp [List.append_eq_singleton_iff] at hpart
      right
      have ho : o = Text.utf8Length before := by
        show Text.utf8Length (before ++ []) = _
        rw [List.append_nil]
      rw [hstart, hstop, hvalue, ho, Text.utf8Length_append]
      rfl
  | angle _ => simp [List.append_eq_cons_iff] at hpart
  | dash hhead =>
      obtain ⟨-, rfl⟩ : p = [] ∧ q = [] := by simpa [List.append_eq_cons_iff] using hpart
      obtain rfl : '>' :: y = after := hangle
      exact absurd rfl hhead
  | invalid hne _ _ _ _ =>
      rw [List.mem_singleton] at hdash
      exact absurd hdash.symm hne

/-- A `->` in the source is one arrow, or part of a comment. -/
theorem Tiled.of_arrow {before rest : List Char} {ts : List Token} (h : Tiled before rest ts) :
    ∀ x y, rest = x ++ '-' :: '>' :: y →
      let o := Text.utf8Length (before ++ x)
      (∃ t ∈ ts, t.kind = .comment ∧ t.start ≤ o ∧ o + 2 ≤ t.stop) ∨ ⟨.arrow, o, o + 2, "->"⟩ ∈ ts := by
  induction h with
  | blanks hblank =>
      intro x y hsource
      have hdash : isBlank '-' = true := hblank '-' (by simp [hsource])
      cases hdash
  | @token before gap part rest t ts hgap hstands _ ih =>
      intro x y hsource o
      rcases append_eq_append_cons hsource with ⟨ds, hds, hangle⟩ | ⟨ds, rfl, hrest⟩
      · rcases append_eq_append_cons hds with ⟨es, rfl, -⟩ | ⟨p, rfl, rfl⟩
        · have hdash : isBlank '-' = true := hgap '-' (by simp)
          cases hdash
        · have ho : o = Text.utf8Length (before ++ gap ++ p) := by
            rw [List.append_assoc]
          rcases hstands.of_arrow hangle with hcomment | rfl
          · rw [← ho] at hcomment
            exact .inl ⟨t, List.mem_cons_self, hcomment⟩
          · right
            rw [← ho]
            exact List.mem_cons_self
      · have ho : o = Text.utf8Length (before ++ gap ++ part ++ ds) := by
          simp only [List.append_assoc, o]
        rw [ho]
        rcases ih ds y hrest with ⟨u, hu, hcomment⟩ | harrow
        · exact .inl ⟨u, List.mem_cons_of_mem t hu, hcomment⟩
        · exact .inr (List.mem_cons_of_mem t harrow)

/-! ## One token after the other -/

namespace Cursor

/-- The place from which token `n` is taken, where the next one is token 0. -/
def after (c : Cursor) : Nat → Cursor
  | 0 => c
  | n + 1 => c.next.2.after n

/-- Taking tokens one by one gives all of them in order, and then the end again and again. -/
theorem Fits.next_after (n : Nat) :
    ∀ {c : Cursor}, c.Fits → (c.after n).next.1 = c.tokens[n]?.getD c.ending := by
  induction n with
  | zero =>
      intro c hfits
      show c.next.1 = _
      rw [tokens]
      split
      · rename_i hend
        exact (hfits.next_of_end hend).1
      · rfl
  | succ n ih =>
      intro c hfits
      have hreach := c.reaches_next
      rw [after, ih (hfits.of_reaches hreach), ending_of_reaches hreach, tokens.eq_def c]
      split
      · rename_i hend
        rw [tokens, if_pos (hfits.next_of_end hend).2]
        rfl
      · rfl

end Cursor

/--
Tokens and the blanks between them make up the source. Each token stands between two
characters of it, holds what stands there and is as long as its kind allows; no two
overlap, and every byte outside them is a blank. A `->` outside a comment is one arrow.
Taken one by one, behind the last of them comes the end of the source, however often it is
asked for.
-/
theorem tokens_tile (source : String) :
    let tokens := (Cursor.ofText source).tokens
    (∀ t ∈ tokens, t.start < t.stop ∧ ∃ before part after,
      source.toList = before ++ part ++ after ∧ t.Stands before part after) ∧
    tokens.Pairwise (·.stop ≤ ·.start) ∧
    (∀ (i : Nat) (o : UInt8), (Text.utf8 source)[i]? = some o →
      (∀ t ∈ tokens, ¬(t.start ≤ i ∧ i < t.stop)) → o ∈ blankOctets) ∧
    (∀ before after, source.toList = before ++ '-' :: '>' :: after →
      let o := Text.utf8Length before
      (∃ t ∈ tokens, t.kind = .comment ∧ t.start ≤ o ∧ o + 2 ≤ t.stop) ∨
        ⟨.arrow, o, o + 2, "->"⟩ ∈ tokens) ∧
    ∀ n, ((Cursor.ofText source).after n).next.1 =
      let size := Text.utf8Length source.toList
      tokens[n]?.getD ⟨.eof, size, size, ""⟩ := by
  intro tokens
  have htiled : Tiled [] source.toList tokens :=
    (Cursor.ofText source).tiled_tokens [] rfl (.start source.toList)
  refine ⟨fun t ht => ?_, htiled.ordered.2, fun i o ho hout => ?_, htiled.of_arrow,
    fun n => (Cursor.fits_ofText source).next_after n⟩
  · obtain ⟨before, part, after, hsource, hstands⟩ := htiled.exists_stands t ht
    exact ⟨hstands.start_lt_stop, before, part, after, hsource, hstands⟩
  · rw [Text.utf8_eq_flatMap] at ho
    refine htiled.mem_blankOctets i o ho fun t ht => ?_
    rw [Text.utf8Length_nil, Nat.zero_add]
    exact hout t ht

example : (Cursor.ofText "é- >#->\n->.").tokens =
    [⟨.invalid, 0, 2, "é"⟩, ⟨.dash, 2, 3, "-"⟩, ⟨.arrow, 4, 5, ">"⟩, ⟨.comment, 5, 8, "->"⟩,
      ⟨.arrow, 9, 11, "->"⟩, ⟨.text, 11, 12, "."⟩] := by decide +kernel

end DnsResponder
