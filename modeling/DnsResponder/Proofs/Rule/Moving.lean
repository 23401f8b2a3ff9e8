import DnsResponder.Proofs.Rule.Source

/-!
# Words that are moved

What a parser makes of a source depends on its words and on nothing else. Blanks,
comments and the places of the words show in one way only: an error says where the word
stands that it is about. So if the same words stand at other places, the same table comes
out, or the same error with the other places in it.

This is said of two runs at a time. Two parsers are *alike* when on two such rows of words
they do the same. Every combinator makes alike parsers from alike parsers, and the grammar
is alike to itself.
-/

namespace DnsResponder

namespace RuleError

mutual

/-- The same complaint about words at other places. -/
def relocate (move : Nat → Nat) : RuleError → RuleError
  | unknownMnemonic category token offset => unknownMnemonic category token (move offset)
  | badIpv4 literal offset => badIpv4 literal (move offset)
  | ipv6 literal offset => ipv6 literal (move offset)
  | unusableType mnemonic offset => unusableType mnemonic (move offset)
  | badName text cause offset => badName text cause (move offset)
  | mismatch expected found text offset => mismatch expected found text (move offset)
  | noAlternative errors => noAlternative (relocateAll move errors)
  | noProgress offset => noProgress (move offset)
  | custom text => custom text

/-- The same complaints about words at other places. -/
def relocateAll (move : Nat → Nat) : List RuleError → List RuleError
  | [] => []
  | e :: es => e.relocate move :: relocateAll move es

end

mutual

/-- The places that a complaint names. -/
def offsets : RuleError → List Nat
  | unknownMnemonic _ _ offset => [offset]
  | badIpv4 _ offset => [offset]
  | ipv6 _ offset => [offset]
  | unusableType _ offset => [offset]
  | badName _ _ offset => [offset]
  | mismatch _ _ _ offset => [offset]
  | noAlternative errors => offsetsOf errors
  | noProgress offset => [offset]
  | custom _ => []

/-- The places that complaints name. -/
def offsetsOf : List RuleError → List Nat
  | [] => []
  | e :: es => e.offsets ++ offsetsOf es

end

theorem relocateAll_eq_map (move : Nat → Nat) (es : List RuleError) :
    relocateAll move es = es.map (relocate move) := by
  induction es with
  | nil => rfl
  | cons e es ih => rw [relocateAll, ih, List.map_cons]

mutual

theorem offsets_relocate (move : Nat → Nat) (e : RuleError) :
    (e.relocate move).offsets = e.offsets.map move := by
  cases e with
  | noAlternative errors => exact offsetsOf_relocateAll move errors
  | _ => rfl

theorem offsetsOf_relocateAll (move : Nat → Nat) (es : List RuleError) :
    offsetsOf (relocateAll move es) = (offsetsOf es).map move := by
  cases es with
  | nil => rfl
  | cons e es =>
      rw [relocateAll, offsetsOf, offsetsOf, offsets_relocate, offsetsOf_relocateAll,
        List.map_append]

end

end RuleError

/-! ## Rows of words -/

/-- What a token shows, wherever it stands. -/
def Token.face (t : Token) : Token.Kind × String := (t.kind, t.value)

/-- `u` is the token `t` at another place, the one to which `move` takes it. -/
structure Token.Moved (move : Nat → Nat) (t u : Token) : Prop where
  face : u.face = t.face
  start : u.start = move t.start

theorem Token.kind_of_face {t u : Token} (h : u.face = t.face) : u.kind = t.kind :=
  congrArg Prod.fst h

theorem Token.value_of_face {t u : Token} (h : u.face = t.face) : u.value = t.value :=
  congrArg Prod.snd h

namespace Token.Moved

variable {move : Nat → Nat} {t u : Token}

theorem kind (h : Token.Moved move t u) : u.kind = t.kind := kind_of_face h.face

theorem value (h : Token.Moved move t u) : u.value = t.value := value_of_face h.face

end Token.Moved

namespace Cursor

/-- The token that stands for the end of the source. -/
def ending (c : Cursor) : Token := ⟨.eof, c.size, c.size, ""⟩

/-- The words ahead, and the end of the source behind them. -/
def row (c : Cursor) : List Token := c.words ++ [c.ending]

/-- The words ahead of `d` are those ahead of `c`, moved. -/
structure Moved (move : Nat → Nat) (c d : Cursor) : Prop where
  fits : c.Fits
  fits' : d.Fits
  row : List.Forall₂ (Token.Moved move) c.row d.row

variable {move : Nat → Nat} {c d : Cursor}

/-- Where the end of the source is ahead, its token is found again and again. -/
theorem Fits.next_of_end (h : c.Fits) (hend : c.next.1.kind = .eof) :
    c.next.1 = c.ending ∧ c.next.2.next.1.kind = .eof := by
  have hrest := skipBlanks_rest_of_end hend
  have hoffset : c.skipBlanks.offset = c.size := by
    have hfits := h.of_reaches c.reaches_skipBlanks
    unfold Fits at hfits
    rwa [hrest, Text.utf8Length_nil, Nat.add_zero, c.reaches_skipBlanks.size] at hfits
  have hagain : c.skipBlanks.skipBlanks.rest = [] := by
    show c.skipBlanks.rest.dropWhile isBlank = []
    rw [hrest, List.dropWhile_nil]
  rw [next_of_nothing hrest, hoffset]
  dsimp only
  rw [next_of_nothing hagain]
  exact ⟨rfl, rfl⟩

theorem ending_of_reaches (h : c.Reaches d) : d.ending = c.ending := by
  unfold ending
  rw [h.size]

theorem row_skipComments (c : Cursor) : c.skipComments.row = c.row := by
  unfold row
  rw [words_skipComments, ending_of_reaches c.reaches_skipComments]

/-- Behind the comments stands the first token of the row, be it a word or the end. -/
theorem row_of_word (h : c.skipComments.next.1.kind ≠ .eof) :
    c.row = c.skipComments.next.1 :: c.skipComments.next.2.row := by
  unfold row
  rw [words_eq_cons h, List.cons_append,
    ending_of_reaches (c.reaches_skipComments.trans c.skipComments.reaches_next)]

theorem Fits.row_of_end (h : c.Fits) (hend : c.skipComments.next.1.kind = .eof) :
    c.row = [c.skipComments.next.1] ∧ c.skipComments.next.2.row = c.row := by
  have hreach := c.reaches_skipComments
  obtain ⟨hfirst, hagain⟩ := (h.of_reaches hreach).next_of_end hend
  unfold row
  rw [words_eq_nil hend, words_of_end hagain, hfirst, ending_of_reaches hreach,
    ending_of_reaches (hreach.trans c.skipComments.reaches_next)]
  exact ⟨rfl, rfl⟩

theorem Fits.row_eq_cons (h : c.Fits) : ∃ rest, c.row = c.skipComments.next.1 :: rest := by
  by_cases hend : c.skipComments.next.1.kind = .eof
  · exact ⟨[], (h.row_of_end hend).1⟩
  · exact ⟨_, row_of_word hend⟩

theorem Moved.skipComments (h : c.Moved move d) : c.skipComments.Moved move d.skipComments where
  fits := h.fits.of_reaches c.reaches_skipComments
  fits' := h.fits'.of_reaches d.reaches_skipComments
  row := by
    rw [row_skipComments, row_skipComments]
    exact h.row

/-- The tokens ahead of both places are the same but for their places, and so is what follows. -/
theorem Moved.next (h : c.Moved move d) :
    Token.Moved move c.skipComments.next.1 d.skipComments.next.1 ∧
      c.skipComments.next.2.Moved move d.skipComments.next.2 := by
  have hfits := h.fits.of_reaches (c.reaches_skipComments.trans c.skipComments.reaches_next)
  have hfits' := h.fits'.of_reaches (d.reaches_skipComments.trans d.skipComments.reaches_next)
  have hrow := h.row
  by_cases hend : c.skipComments.next.1.kind = .eof
  · obtain ⟨hc, hc'⟩ := h.fits.row_of_end hend
    by_cases hend' : d.skipComments.next.1.kind = .eof
    · obtain ⟨hd, hd'⟩ := h.fits'.row_of_end hend'
      rw [hc, hd, List.forall₂_cons] at hrow
      exact ⟨hrow.1, hfits, hfits', by rw [hc', hd']; exact h.row⟩
    · rw [hc, row_of_word hend', List.forall₂_cons] at hrow
      exact absurd (hrow.1.kind.trans hend) hend'
  · rw [row_of_word hend] at hrow
    by_cases hend' : d.skipComments.next.1.kind = .eof
    · rw [(h.fits'.row_of_end hend').1, List.forall₂_cons] at hrow
      exact absurd (hrow.1.kind.symm.trans hend') hend
    · rw [row_of_word hend', List.forall₂_cons] at hrow
      exact ⟨hrow.1, hfits, hfits', hrow.2⟩

end Cursor

/-! ## Alike parsers -/

namespace Parser

variable {α β γ δ : Type} {move : Nat → Nat}

/-- Both are values related by `V`, or both are the same complaint about moved words. -/
inductive Agree (move : Nat → Nat) (V : α → β → Prop) :
    Except RuleError α → Except RuleError β → Prop where
  | ok {a : α} {b : β} : V a b → Agree move V (.ok a) (.ok b)
  | error (e : RuleError) : Agree move V (.error e) (.error (e.relocate move))

theorem agree_eq_iff {x y : Except RuleError α} :
    Agree move Eq x y ↔ y = x.mapError (·.relocate move) := by
  constructor
  · rintro (⟨rfl⟩ | ⟨e⟩)
    · rfl
    · rfl
  · rintro rfl
    cases x with
    | ok a => exact .ok rfl
    | error e => exact .error e

/--
On the same words at other places, `q` does what `p` does: both succeed, and the same
words are left again, or both fail with the same complaint.
-/
def Alike (move : Nat → Nat) (V : α → β → Prop) (p : Parser α) (q : Parser β) : Prop :=
  ∀ c d : Cursor, c.Moved move d →
    (∃ a b c' d', p c = (.ok a, c') ∧ q d = (.ok b, d') ∧ V a b ∧ c'.Moved move d') ∨
      ∃ e c' d', p c = (.error e, c') ∧ q d = (.error (e.relocate move), d')

namespace Alike

variable {V V' : α → β → Prop} {W : γ → δ → Prop} {p : Parser α} {q : Parser β}

theorem mono (h : Alike move V p q) (hV : ∀ a b, V a b → V' a b) : Alike move V' p q := by
  intro c d hmoved
  rcases h c d hmoved with ⟨a, b, c', d', hp, hq, hab, hbehind⟩ | hfail
  · exact .inl ⟨a, b, c', d', hp, hq, hV a b hab, hbehind⟩
  · exact .inr hfail

theorem expect (kind : Token.Kind) :
    Alike move (Token.Moved move) (Parser.expect kind) (Parser.expect kind) := by
  intro c d hmoved
  obtain ⟨hfirst, hbehind⟩ := hmoved.next
  by_cases hkind : c.skipComments.next.1.kind = kind
  · have hkind' : d.skipComments.next.1.kind = kind := hfirst.kind.trans hkind
    exact .inl ⟨_, _, _, _, expect_eq_ok_iff.mpr ⟨rfl, hkind⟩, expect_eq_ok_iff.mpr ⟨rfl, hkind'⟩,
      hfirst, hbehind⟩
  · have hkind' : d.skipComments.next.1.kind ≠ kind := fun h => hkind (hfirst.kind.symm.trans h)
    refine .inr ⟨_, _, d.skipComments.next.2, expect_of_ne hkind, (expect_of_ne hkind').trans ?_⟩
    dsimp only
    rw [hfirst.kind, hfirst.value, hfirst.start]
    rfl

theorem fail (e : RuleError) : Alike move V (Parser.fail e) (Parser.fail (e.relocate move)) :=
  fun c d _ => .inr ⟨e, c, d, rfl, rfl⟩

theorem tryMap {f : α → Except RuleError γ} {g : β → Except RuleError δ} (h : Alike move V p q)
    (hfg : ∀ a b, V a b → Agree move W (f a) (g b)) :
    Alike move W (Parser.tryMap f p) (Parser.tryMap g q) := by
  intro c d hmoved
  unfold Parser.tryMap
  rcases h c d hmoved with ⟨a, b, c', d', hp, hq, hV, hbehind⟩ | ⟨e, c', d', hp, hq⟩
  · rw [hp, hq]
    dsimp only [Except.bind]
    have hagree := hfg a b hV
    generalize f a = x, g b = y at hagree
    cases hagree with
    | ok hW => exact .inl ⟨_, _, _, _, rfl, rfl, hW, hbehind⟩
    | error e => exact .inr ⟨e, _, _, rfl, rfl⟩
  · rw [hp, hq]
    exact .inr ⟨e, _, _, rfl, rfl⟩

theorem map {f : α → γ} {g : β → δ} (h : Alike move V p q) (hfg : ∀ a b, V a b → W (f a) (g b)) :
    Alike move W (Parser.map f p) (Parser.map g q) :=
  h.tryMap fun a b hV => .ok (hfg a b hV)

/-- A word is read alike by a change that complains of a moved word as it does of the word. -/
theorem text {f : Token → Except RuleError γ}
    (hf : ∀ t u, Token.Moved move t u → f u = (f t).mapError (·.relocate move)) :
    Alike move Eq (Parser.tryMap f (Parser.expect .text)) (Parser.tryMap f (Parser.expect .text)) :=
  (expect .text).tryMap fun t u htu => agree_eq_iff.mpr (hf t u htu)

theorem andThen {f : α → Parser γ} {g : β → Parser δ} (h : Alike move V p q)
    (hfg : ∀ a b, V a b → Alike move W (f a) (g b)) :
    Alike move W (Parser.andThen f p) (Parser.andThen g q) := by
  intro c d hmoved
  unfold Parser.andThen
  rcases h c d hmoved with ⟨a, b, c', d', hp, hq, hV, hbehind⟩ | ⟨e, c', d', hp, hq⟩
  · rw [hp, hq]
    exact hfg a b hV c' d' hbehind
  · rw [hp, hq]
    exact .inr ⟨e, _, _, rfl, rfl⟩

theorem pair {r : Parser γ} {s : Parser δ} (h : Alike move V p q) (hrs : Alike move W r s) :
    Alike move (fun x y => V x.1 y.1 ∧ W x.2 y.2) (Parser.pair p r) (Parser.pair q s) :=
  h.andThen fun _ _ hV => hrs.map fun _ _ hW => ⟨hV, hW⟩

theorem pair_eq {p : Parser α} {r : Parser γ} (h : Alike move Eq p p) (hr : Alike move Eq r r) :
    Alike move Eq (Parser.pair p r) (Parser.pair p r) :=
  (h.pair hr).mono fun _ _ ⟨hfst, hsnd⟩ => Prod.ext hfst hsnd

/-- Alternatives fail alike too, each with its own complaint, and nothing has been used up then. -/
theorem firstOf {ps : List (Parser α)} {qs : List (Parser β)}
    (h : List.Forall₂ (Alike move V) ps qs) {c d : Cursor} (hmoved : c.Moved move d) :
    ∀ failed failed' : Array RuleError, failed'.toList = failed.toList.map (·.relocate move) →
      (∃ a b c' d', Parser.firstOf c failed ps = (.ok a, c') ∧
          Parser.firstOf d failed' qs = (.ok b, d') ∧ V a b ∧ c'.Moved move d') ∨
        ∃ e c' d', Parser.firstOf c failed ps = (.error e, c') ∧
          Parser.firstOf d failed' qs = (.error (e.relocate move), d') := by
  induction h with
  | nil =>
      intro failed failed' hfailed
      refine .inr ⟨_, _, d, rfl, ?_⟩
      unfold Parser.firstOf
      rw [hfailed, ← RuleError.relocateAll_eq_map]
      rfl
  | @cons p q ps qs hpq _ ih =>
      intro failed failed' hfailed
      unfold Parser.firstOf
      rcases hpq c d hmoved with ⟨a, b, c', d', hp, hq, hV, hbehind⟩ | ⟨e, c', d', hp, hq⟩
      · rw [hp, hq]
        exact .inl ⟨_, _, _, _, rfl, rfl, hV, hbehind⟩
      · rw [hp, hq]
        refine ih (failed.push e) (failed'.push (e.relocate move)) ?_
        rw [Array.toList_push, Array.toList_push, hfailed, List.map_append, List.map_singleton]

theorem oneOf {ps : List (Parser α)} {qs : List (Parser β)}
    (h : List.Forall₂ (Alike move V) ps qs) : Alike move V (Parser.oneOf ps) (Parser.oneOf qs) :=
  fun _ _ hmoved => firstOf h hmoved #[] #[] rfl

/-- A repetition stops at the same word, and reads the same values before it. -/
theorem repeatFrom {p : Parser α} {R : List Token → α → Prop} (stop : Token.Kind)
    (h : Alike move Eq p p) (hreads : Reads p R)
    (hne : ∀ {ts : List Token} {a : α}, R ts a → ts ≠ []) (acc acc' : Array α) {c d : Cursor}
    (hmoved : c.Moved move d) :
    (∃ as c' d', Parser.repeatFrom p stop acc c = (.ok (acc.toList ++ as), c') ∧
        Parser.repeatFrom p stop acc' d = (.ok (acc'.toList ++ as), d') ∧ c'.Moved move d') ∨
      ∃ e c' d', Parser.repeatFrom p stop acc c = (.error e, c') ∧
        Parser.repeatFrom p stop acc' d = (.error (e.relocate move), d') := by
  have hhere := hmoved.skipComments
  rw [Parser.repeatFrom, Parser.repeatFrom.eq_def p stop acc' d]
  dsimp only
  have hpeek : d.skipComments.peek.kind = c.skipComments.peek.kind := hmoved.next.1.kind
  rw [hpeek]
  by_cases hstop : c.skipComments.peek.kind = stop
  · rw [if_pos hstop, if_pos hstop]
    exact .inl ⟨[], _, _, by rw [List.append_nil], by rw [List.append_nil], hhere⟩
  · rw [if_neg hstop, if_neg hstop]
    rcases h _ _ hhere with ⟨a, b, c', d', hp, hq, rfl, hbehind⟩ | ⟨e, c', d', hp, hq⟩
    · have hless := hreads.remaining_lt hne hhere.fits hp
      have hless' := hreads.remaining_lt hne hhere.fits' hq
      have hbound := Nat.lt_of_lt_of_le hless c.remaining_skipComments_le
      rw [hp, hq]
      dsimp only
      rw [if_pos hless, if_pos hless']
      rcases repeatFrom stop h hreads hne (acc.push a) (acc'.push a) hbehind with
        ⟨as, c'', d'', hc, hd, hend⟩ | hfail
      · refine .inl ⟨a :: as, c'', d'', ?_, ?_, hend⟩
        · rw [hc, Array.toList_push, List.append_assoc]
          rfl
        · rw [hd, Array.toList_push, List.append_assoc]
          rfl
      · exact .inr hfail
    · rw [hp, hq]
      exact .inr ⟨e, _, _, rfl, rfl⟩
termination_by c.remaining

end Alike

end Parser

/-! ## The grammar -/

namespace Grammar

open DnsResponder.Parser

variable {move : Nat → Nat}

section Words

variable {t u : Token}

theorem typeOf_moved (h : Token.Moved move t u) :
    typeOf u = (typeOf t).mapError (·.relocate move) := by
  unfold typeOf
  rw [h.value, h.start]
  cases RecordType.ofMnemonic? t.value with
  | none => rfl
  | some type => rfl

theorem classOf_moved (h : Token.Moved move t u) :
    classOf u = (classOf t).mapError (·.relocate move) := by
  unfold classOf
  rw [h.value, h.start]
  cases RecordClass.ofMnemonic? t.value with
  | none => rfl
  | some class_ => rfl

theorem nameOf_moved (h : Token.Moved move t u) :
    nameOf u = (nameOf t).mapError (·.relocate move) := by
  unfold nameOf
  rw [h.value, h.start]
  cases Name.ofText t.value with
  | error e => rfl
  | ok n => rfl

theorem ipv4Of_moved (h : Token.Moved move t u) :
    ipv4Of u = (ipv4Of t).mapError (·.relocate move) := by
  unfold ipv4Of
  rw [h.value, h.start]
  cases Ipv4.ofChars? t.value.toList with
  | none => rfl
  | some x => rfl

end Words

theorem alike_recordType : Alike move Eq recordType recordType :=
  .text fun _ _ => typeOf_moved

theorem alike_recordClass : Alike move Eq recordClass recordClass :=
  .text fun _ _ => classOf_moved

theorem alike_domainName : Alike move Eq domainName domainName :=
  .text fun _ _ => nameOf_moved

/-- The type in front of a value may stand elsewhere as well, and its place is in one complaint. -/
theorem alike_value (type : RecordType) (offset : Nat) :
    Alike move Eq (value type offset) (value type (move offset)) := by
  cases type
  case a => exact .text fun _ _ => ipv4Of_moved
  case aaaa =>
    refine .text fun t u h => ?_
    rw [h.value, h.start]
    rfl
  case cname => exact (Alike.expect .text).map fun t u h => by rw [h.value]
  case txt => exact (Alike.expect .text).map fun t u h => by rw [h.value]
  all_goals exact .fail _

theorem alike_typedValue : Alike move Eq typedValue typedValue := by
  refine (Alike.expect .text).andThen fun t u h => ?_
  rw [typeOf_moved h]
  cases typeOf t with
  | error e => exact .fail e
  | ok type =>
      have hvalue : Alike move Eq (value type t.start) (value type (move t.start)) :=
        alike_value type t.start
      rw [← h.start] at hvalue
      exact hvalue.map fun _ _ heq => congrArg _ heq

theorem alike_response : Alike move Eq response response := by
  have hrefusal : Alike move Eq refusal refusal := (Alike.expect .dash).map fun _ _ _ => rfl
  have hfound : Alike move Eq found found :=
    (alike_typedValue.pair_eq alike_recordClass).map fun _ _ heq => by rw [heq]
  exact .oneOf (.cons hrefusal (.cons hfound .nil))

theorem alike_rule : Alike move Eq rule rule := by
  have hsubject : Alike move Eq subject subject :=
    (alike_recordType.pair_eq alike_domainName).pair_eq alike_recordClass
  refine (hsubject.pair ((Alike.expect .arrow).pair alike_response)).map ?_
  rintro ⟨s, a, r⟩ ⟨s', a', r'⟩ ⟨hs, -, hr⟩
  obtain rfl : s = s' := hs
  obtain rfl : r = r' := hr
  rfl

end Grammar

namespace RuleTable

/-- The same words at other places give the same table, or the same complaint with other places. -/
theorem ofText_of_moved {move : Nat → Nat} {source other : String}
    (h : (Cursor.ofText source).Moved move (Cursor.ofText other)) :
    ofText other = (ofText source).mapError (·.relocate move) := by
  rw [ofText_eq, ofText_eq]
  rcases Parser.Alike.repeatFrom .eof Grammar.alike_rule Grammar.reads_rule
      ne_nil_of_spelt #[] #[] h with ⟨rules, c, d, hc, hd, -⟩ | ⟨e, c, d, hc, hd⟩
  · rw [hc, hd]
    rfl
  · rw [hc, hd]
    rfl

/-- The places that are named when the source is refused. -/
def namedPlaces (source : String) : List Nat :=
  match ofText source with
  | .ok _ => []
  | .error e => e.offsets

theorem exists_error_of_namedPlaces {source : String} (h : namedPlaces source ≠ []) :
    ∃ e, ofText source = .error e ∧ e.offsets = namedPlaces source := by
  unfold namedPlaces at h ⊢
  cases hsource : ofText source with
  | error e => exact ⟨e, rfl, rfl⟩
  | ok table =>
      rw [hsource] at h
      exact absurd rfl h

end RuleTable

end DnsResponder
