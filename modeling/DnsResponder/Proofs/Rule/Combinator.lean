import DnsResponder.Proofs.Rule.Words
import DnsResponder.Rule.Grammar
import Mathlib.Data.Fin.VecNotation
import Mathlib.Data.List.Forall2

/-!
# One cursor

A parser can be run with a single cursor that is moved forward and never copied. A choice
then notes the offset at which it began and rewinds to it before each alternative, and a
repetition notes its offset before each round and asks afterwards whether it is still the
same. Nothing in this says that the run comes to an end, or that a choice goes back to where
it was: rewinding clamps, and a round that went back would count as progress.

Both are so, because no parser that is put together from the combinators goes back. So a
cursor that stands between two characters is always moved to such a place, further on or the
same. From there a choice finds its place again, and each round of a repetition leaves less
of the source. Every run therefore comes to one end, and it is the one that the parser
answers.
-/

namespace DnsResponder

namespace Cursor

/-! ## Places between characters -/

/-- The place between two pieces of a source. -/
def between (before rest : List Char) : Cursor :=
  ⟨before ++ rest, Text.utf8Length (before ++ rest), Text.utf8Length before, rest⟩

/-- The cursor stands between two characters of its source. -/
def Sound (c : Cursor) : Prop := ∃ before, c = between before c.rest

theorem sound_between (before rest : List Char) : (between before rest).Sound := ⟨before, rfl⟩

/-- What is reached from a place is a place with more of the source behind it. -/
theorem between_of_reaches {before rest : List Char} {d : Cursor}
    (h : (between before rest).Reaches d) :
    ∃ passed, rest = passed ++ d.rest ∧ d = between (before ++ passed) d.rest := by
  obtain ⟨passed, hrest, hoffset⟩ := h.passed
  have hsource := h.source
  have hsize := h.size
  obtain ⟨source, size, offset, rest'⟩ := d
  dsimp only [between] at hsource hsize hoffset hrest
  refine ⟨passed, hrest, ?_⟩
  unfold between
  rw [hsource, hsize, hoffset, hrest, List.append_assoc, Text.utf8Length_append before passed]

variable {c d : Cursor}

theorem Sound.of_reaches (h : c.Sound) (hr : c.Reaches d) : d.Sound := by
  obtain ⟨before, hc⟩ := h
  rw [hc] at hr
  obtain ⟨passed, -, hd⟩ := between_of_reaches hr
  exact ⟨before ++ passed, hd⟩

theorem Sound.fits (h : c.Sound) : c.Fits := by
  obtain ⟨before, hc⟩ := h
  rw [hc]
  exact (Text.utf8Length_append before c.rest).symm

theorem seek_append (before rest : List Char) (offset : Nat) :
    seek (offset + Text.utf8Length before) offset (before ++ rest) =
      (offset + Text.utf8Length before, rest) := by
  induction before generalizing offset with
  | nil =>
      cases rest with
      | nil => rfl
      | cons ch cs =>
          have hpos := ch.utf8Size_pos
          rw [List.nil_append, seek, if_neg (by rw [Text.utf8Length_nil]; omega)]
          rfl
  | cons ch cs ih =>
      rw [List.cons_append, seek, Text.utf8Length_cons, if_pos (by omega), ← Nat.add_assoc, ih]

/-- From anywhere in a source, rewinding to a place between two characters leads there. -/
theorem Sound.rewind_eq_of_source (h : c.Sound) (hsource : d.source = c.source)
    (hsize : d.size = c.size) : d.rewind c.offset = c := by
  obtain ⟨before, hc⟩ := h
  have hseek := seek_append before c.rest 0
  rw [Nat.zero_add] at hseek
  have hsplit : d.source = before ++ c.rest := hsource.trans (congrArg source hc)
  have hoffset : c.offset = Text.utf8Length before := congrArg offset hc
  unfold rewind
  rw [hsplit, hoffset, hseek]
  dsimp only
  rw [hsize, ← hsplit, hsource, ← hoffset]

theorem Sound.rewind_eq (h : c.Sound) (hr : c.Reaches d) : d.rewind c.offset = c :=
  h.rewind_eq_of_source hr.source hr.size

/-- Of a place that is reached it is enough to ask whether its offset is another one. -/
theorem Fits.remaining_lt_iff (h : c.Fits) (hr : c.Reaches d) :
    d.remaining < c.remaining ↔ d.offset ≠ c.offset := by
  have hd := h.of_reaches hr
  obtain ⟨passed, -, hoffset⟩ := hr.passed
  unfold Fits at h hd
  unfold remaining
  rw [hr.size] at hd ⊢
  omega

end Cursor

namespace Parser

variable {α β : Type}

/-! ## Running -/

/-- What running a parser may come to: from which place, with which result, and where it stops. -/
abbrev Behaviour (α : Type) : Type := Cursor → Except RuleError α × Cursor → Prop

/-- The cursor is moved past the comments ahead, one by one. -/
inductive Skips : Cursor → Cursor → Prop where
  | stays {c : Cursor} : c.next.1.kind ≠ .comment → Skips c c
  | passes {c d : Cursor} : c.next.1.kind = .comment → Skips c.next.2 d → Skips c d

/-- Comments are skipped and a token is taken, of the given kind or not. -/
inductive Expects (kind : Token.Kind) : Behaviour Token where
  | takes {c d : Cursor} : Skips c d → d.next.1.kind = kind →
      Expects kind c (.ok d.next.1, d.next.2)
  | refuses {c d : Cursor} : Skips c d → d.next.1.kind ≠ kind →
      Expects kind c
        (.error (.mismatch kind d.next.1.kind d.next.1.value d.next.1.start), d.next.2)

/-- The value is changed where the cursor stands. -/
inductive Changes (f : α → Except RuleError β) (E : Behaviour α) : Behaviour β where
  | intro {c d : Cursor} {x : Except RuleError α} : E c (x, d) → Changes f E c (x.bind f, d)

/-- A parser that the first value picks goes on where the cursor stands. -/
inductive Continues (F : α → Behaviour β) (E : Behaviour α) : Behaviour β where
  | fails {c d : Cursor} {e : RuleError} : E c (.error e, d) → Continues F E c (.error e, d)
  | goesOn {c d : Cursor} {a : α} {r : Except RuleError β × Cursor} :
      E c (.ok a, d) → F a d r → Continues F E c r

/-- Parsers run one after the other, behind the values in the array. -/
def Collects (acc : Array α) : List (Behaviour α) → Behaviour (List α)
  | [] => fun c r => r = (.ok acc.toList, c)
  | E :: Es => Continues (fun a => Collects (acc.push a) Es) E

/-- What comes next, for an error, goes on from where the failure has left the cursor. -/
inductive Recovers (F : RuleError → Behaviour α) (E : Behaviour α) : Behaviour α where
  | succeeds {c d : Cursor} {a : α} : E c (.ok a, d) → Recovers F E c (.ok a, d)
  | goesOn {c d : Cursor} {e : RuleError} {r : Except RuleError α × Cursor} :
      E c (.error e, d) → F e d r → Recovers F E c r

/--
Alternatives are tried in turn, and before each the cursor is rewound from where the last
one left it.
-/
def Tries (start : Nat) (failed : Array RuleError) : List (Behaviour α) → Behaviour α
  | [], c, r => r = (.error (.noAlternative failed.toList), c.rewind start)
  | E :: Es, c, r => Recovers (fun e => Tries start (failed.push e) Es) E (c.rewind start) r

/--
Rounds are made up to the stop token. Of a round it is only asked whether the offset has
changed.
-/
inductive Repeats (E : Behaviour α) (stop : Token.Kind) : Array α → Behaviour (List α) where
  | stops {acc : Array α} {c here : Cursor} : Skips c here → here.peek.kind = stop →
      Repeats E stop acc c (.ok acc.toList, here)
  | fails {acc : Array α} {c here d : Cursor} {e : RuleError} :
      Skips c here → here.peek.kind ≠ stop → E here (.error e, d) →
      Repeats E stop acc c (.error e, d)
  | stuck {acc : Array α} {c here d : Cursor} {a : α} :
      Skips c here → here.peek.kind ≠ stop → E here (.ok a, d) → d.offset = here.offset →
      Repeats E stop acc c (.error (.noProgress here.peek.start), d)
  | goesOn {acc : Array α} {c here d : Cursor} {a : α} {r : Except RuleError (List α) × Cursor} :
      Skips c here → here.peek.kind ≠ stop → E here (.ok a, d) → d.offset ≠ here.offset →
      Repeats E stop (acc.push a) d r → Repeats E stop acc c r

/-! ## Realizing -/

/--
From a place in a source the runs come to what the parser answers and to nothing else, and
the parser does not go back.
-/
structure Realizes (E : Behaviour α) (p : Parser α) : Prop where
  runs_iff : ∀ {c : Cursor}, c.Sound → ∀ r, E c r ↔ r = p c
  reaches : ∀ c : Cursor, c.Reaches (p c).2

section Realizes

variable {E : Behaviour α} {p : Parser α}

theorem Realizes.sound (h : Realizes E p) {c : Cursor} (hc : c.Sound) : (p c).2.Sound :=
  hc.of_reaches (h.reaches c)

theorem skips_iff {c d : Cursor} : Skips c d ↔ d = c.skipComments := by
  constructor
  · intro h
    induction h with
    | stays h => rw [Cursor.skipComments, if_neg h]
    | passes h _ ih => rw [Cursor.skipComments, if_pos h, ih]
  · rintro rfl
    fun_induction Cursor.skipComments c with
    | case1 c h ih => exact .passes h ih
    | case2 c h => exact .stays h

theorem realizes_skipComments :
    Realizes (fun c r => Skips c r.2 ∧ r.1 = .ok ()) skipComments where
  runs_iff _ r := by rw [skips_iff, and_comm, skipComments, Prod.ext_iff]
  reaches c := c.reaches_skipComments

theorem realizes_expect (kind : Token.Kind) : Realizes (Expects kind) (expect kind) where
  runs_iff {c} _ r := by
    unfold expect
    dsimp only
    constructor
    · intro h
      cases h with
      | takes hs hk =>
          obtain rfl := skips_iff.mp hs
          rw [if_pos hk]
      | refuses hs hk =>
          obtain rfl := skips_iff.mp hs
          rw [if_neg hk]
    · rintro rfl
      split
      · rename_i hk
        exact .takes (skips_iff.mpr rfl) hk
      · rename_i hk
        exact .refuses (skips_iff.mpr rfl) hk
  reaches c := by
    unfold expect
    dsimp only
    split <;> exact c.reaches_skipComments.trans c.skipComments.reaches_next

theorem realizes_stay (x : Except RuleError α) :
    Realizes (fun c r => r = (x, c)) (fun c => (x, c)) where
  runs_iff _ _ := Iff.rfl
  reaches := Cursor.Reaches.refl

theorem Realizes.tryMap (h : Realizes E p) (f : α → Except RuleError β) :
    Realizes (Changes f E) (tryMap f p) where
  runs_iff {c} hc r := by
    constructor
    · rintro ⟨hE⟩
      have hE := (h.runs_iff hc _).mp hE
      unfold Parser.tryMap
      rw [← hE]
    · rintro rfl
      exact .intro ((h.runs_iff hc _).mpr rfl)
  reaches := h.reaches

theorem Realizes.andThen (h : Realizes E p) {F : α → Behaviour β} {f : α → Parser β}
    (hf : ∀ a, Realizes (F a) (f a)) : Realizes (Continues F E) (andThen f p) where
  runs_iff {c} hc r := by
    have hruns := h.runs_iff hc
    have hsound := h.sound hc
    unfold Parser.andThen
    -- the first parser's answer decides on either side
    generalize p c = answer at hruns hsound
    obtain ⟨x, d⟩ := answer
    cases x with
    | error e =>
        refine ⟨fun hr => ?_, fun hr => hr ▸ .fails ((hruns _).mpr rfl)⟩
        cases hr with
        | fails hE =>
            cases (hruns _).mp hE
            rfl
        | goesOn hE _ => cases (hruns _).mp hE
    | ok a =>
        have hnext := (hf a).runs_iff hsound r
        refine ⟨fun hr => ?_, fun hr => .goesOn ((hruns _).mpr rfl) (hnext.mpr hr)⟩
        cases hr with
        | fails hE => cases (hruns _).mp hE
        | goesOn hE hF =>
            cases (hruns _).mp hE
            exact hnext.mp hF
  reaches c := by
    have hreach := h.reaches c
    unfold Parser.andThen
    generalize p c = answer at hreach
    obtain ⟨x, d⟩ := answer
    cases x with
    | error e => exact hreach
    | ok a => exact hreach.trans ((hf a).reaches d)

theorem realizes_sequenceFrom {Es : List (Behaviour α)} {ps : List (Parser α)}
    (h : List.Forall₂ Realizes Es ps) (acc : Array α) :
    Realizes (Collects acc Es) (sequenceFrom acc ps) := by
  induction h generalizing acc with
  | nil => exact realizes_stay (.ok acc.toList)
  | cons hE _ ih => exact hE.andThen fun a => ih (acc.push a)

/-! Wherever the alternatives have led, the cursor is rewound to where the choice began. -/

theorem tries_iff {start : Cursor} (hstart : start.Sound) {Es : List (Behaviour α)}
    {ps : List (Parser α)} (h : List.Forall₂ Realizes Es ps) (failed : Array RuleError)
    {c : Cursor} (hc : start.Reaches c) (r : Except RuleError α × Cursor) :
    Tries start.offset failed Es c r ↔ r = firstOf start failed ps := by
  induction h generalizing failed c with
  | nil => rw [Tries, firstOf, hstart.rewind_eq hc]
  | @cons E p Es ps hE _ ih =>
      have hruns := hE.runs_iff hstart
      have hreach := hE.reaches start
      rw [Tries, firstOf, hstart.rewind_eq hc]
      generalize p start = answer at hruns hreach
      obtain ⟨x, d⟩ := answer
      cases x with
      | ok a =>
          refine ⟨fun hr => ?_, fun hr => hr ▸ .succeeds ((hruns _).mpr rfl)⟩
          cases hr with
          | succeeds hE => exact (hruns _).mp hE
          | goesOn hE _ => cases (hruns _).mp hE
      | error e =>
          have hnext := ih (failed.push e) hreach
          refine ⟨fun hr => ?_, fun hr => .goesOn ((hruns _).mpr rfl) (hnext.mpr hr)⟩
          cases hr with
          | succeeds hE => cases (hruns _).mp hE
          | goesOn hE hF =>
              cases (hruns _).mp hE
              exact hnext.mp hF

theorem reaches_firstOf {start : Cursor} {Es : List (Behaviour α)} {ps : List (Parser α)}
    (h : List.Forall₂ Realizes Es ps) (failed : Array RuleError) :
    start.Reaches (firstOf start failed ps).2 := by
  induction h generalizing failed with
  | nil => exact .refl start
  | @cons E p Es ps hE _ ih =>
      have hreach := hE.reaches start
      rw [firstOf]
      generalize p start = answer at hreach
      obtain ⟨x, d⟩ := answer
      cases x with
      | ok a => exact hreach
      | error e => exact ih (failed.push e)

theorem realizes_oneOf {Es : List (Behaviour α)} {ps : List (Parser α)}
    (h : List.Forall₂ Realizes Es ps) :
    Realizes (fun c => Tries c.offset #[] Es c) (oneOf ps) where
  runs_iff hc r := tries_iff hc h #[] (.refl _) r
  reaches _ := reaches_firstOf h #[]

/-! Each round either leaves less of the source or has not moved the cursor. -/

theorem Realizes.reaches_repeatFrom (h : Realizes E p) (stop : Token.Kind) (acc : Array α)
    (c : Cursor) : c.Reaches (repeatFrom p stop acc c).2 := by
  have hround {c d : Cursor} {x : Except RuleError α} (hp : p c.skipComments = (x, d)) :
      c.Reaches d := by
    have hreach := c.reaches_skipComments.trans (h.reaches c.skipComments)
    rwa [hp] at hreach
  fun_induction repeatFrom p stop acc c with
  | case1 acc c here hstop => exact c.reaches_skipComments
  | case2 acc c here hstop e d hp => exact hround hp
  | case3 acc c here hstop a d hp hless ih => exact (hround hp).trans ih
  | case4 acc c here hstop a d hp hless => exact hround hp

/-- From a place in a source, less is left of it exactly when the offset has changed. -/
theorem Realizes.remaining_lt_iff (h : Realizes E p) {c d : Cursor} {x : Except RuleError α}
    (hc : c.Sound) (hp : p c = (x, d)) : d.remaining < c.remaining ↔ d.offset ≠ c.offset := by
  have hreach := h.reaches c
  rw [hp] at hreach
  exact hc.fits.remaining_lt_iff hreach

theorem Realizes.repeats_iff (h : Realizes E p) (stop : Token.Kind) {acc : Array α} {c : Cursor}
    (hc : c.Sound) (r : Except RuleError (List α) × Cursor) :
    Repeats E stop acc c r ↔ r = repeatFrom p stop acc c := by
  have hhere {c : Cursor} (hc : c.Sound) : c.skipComments.Sound :=
    hc.of_reaches c.reaches_skipComments
  constructor
  · intro hr
    induction hr with
    | stops hs hk =>
        obtain rfl := skips_iff.mp hs
        rw [repeatFrom, if_pos hk]
    | fails hs hk hE =>
        obtain rfl := skips_iff.mp hs
        have hp := (h.runs_iff (hhere hc) _).mp hE
        rw [repeatFrom, if_neg hk, ← hp]
    | stuck hs hk hE hoff =>
        obtain rfl := skips_iff.mp hs
        have hp := (h.runs_iff (hhere hc) _).mp hE
        have hless := mt (h.remaining_lt_iff (hhere hc) hp.symm).mp (not_not.mpr hoff)
        rw [repeatFrom, if_neg hk, ← hp]
        exact (if_neg hless).symm
    | goesOn hs hk hE hoff _ ih =>
        obtain rfl := skips_iff.mp hs
        have hp := (h.runs_iff (hhere hc) _).mp hE
        have hless := (h.remaining_lt_iff (hhere hc) hp.symm).mpr hoff
        have hd := h.sound (hhere hc)
        rw [← hp] at hd
        rw [ih hd]
        conv_rhs => rw [repeatFrom, if_neg hk, ← hp]
        exact (if_pos hless).symm
  · rintro rfl
    fun_induction repeatFrom p stop acc c with
    | case1 acc c here hstop => exact .stops (skips_iff.mpr rfl) hstop
    | case2 acc c here hstop e d hp =>
        exact .fails (skips_iff.mpr rfl) hstop ((h.runs_iff (hhere hc) _).mpr hp.symm)
    | case3 acc c here hstop a d hp hless ih =>
        have hd := h.sound (hhere hc)
        rw [hp] at hd
        exact .goesOn (skips_iff.mpr rfl) hstop ((h.runs_iff (hhere hc) _).mpr hp.symm)
          ((h.remaining_lt_iff (hhere hc) hp).mp hless) (ih hd)
    | case4 acc c here hstop a d hp hless =>
        exact .stuck (skips_iff.mpr rfl) hstop ((h.runs_iff (hhere hc) _).mpr hp.symm)
          (not_not.mp (mt (h.remaining_lt_iff (hhere hc) hp).mpr hless))

theorem Realizes.repeatUntil (h : Realizes E p) (stop : Token.Kind) :
    Realizes (Repeats E stop #[]) (repeatUntil p stop) where
  runs_iff hc r := h.repeats_iff stop hc r
  reaches c := h.reaches_repeatFrom stop #[] c

/-- What holds of the members of two families holds of the lists of their members. -/
theorem forall₂_ofFn {n : Nat} {Es : Fin n → Behaviour α} {ps : Fin n → Parser α}
    (h : ∀ i, Realizes (Es i) (ps i)) :
    List.Forall₂ Realizes (List.ofFn Es) (List.ofFn ps) := by
  rw [List.forall₂_iff_get]
  refine ⟨by rw [List.length_ofFn, List.length_ofFn], fun i h₁ h₂ => ?_⟩
  rw [List.get_eq_getElem, List.get_eq_getElem, List.getElem_ofFn, List.getElem_ofFn]
  exact h _

/-- One of a family of alternatives is the first to succeed, or every one of them fails. -/
theorem firstOf_ofFn {n : Nat} (ps : Fin n → Parser α) (start : Cursor)
    (failed : Array RuleError) :
    (∃ i a d, ps i start = (.ok a, d) ∧ (∀ j < i, ∃ e d', ps j start = (.error e, d')) ∧
      firstOf start failed (List.ofFn ps) = (.ok a, d)) ∨
    ∃ es : Fin n → RuleError, (∀ i, ∃ d, ps i start = (.error (es i), d)) ∧
      firstOf start failed (List.ofFn ps) =
        (.error (.noAlternative (failed.toList ++ List.ofFn es)), start) := by
  induction n generalizing failed with
  | zero =>
      refine .inr ⟨Fin.elim0, fun i => i.elim0, ?_⟩
      rw [List.ofFn_zero, List.ofFn_zero, firstOf, List.append_nil]
  | succ n ih =>
      rw [List.ofFn_succ, firstOf]
      cases hp : ps 0 start with | mk x d
      cases x with
      | ok a => exact .inl ⟨0, a, d, hp, fun j hj => absurd hj (Fin.not_lt_zero j), rfl⟩
      | error e =>
          obtain ⟨i, a, d', hi, hbefore, hr⟩ | ⟨es, hes, hr⟩ :=
            ih (fun i => ps i.succ) (failed.push e)
          · refine .inl ⟨i.succ, a, d', hi, fun j hj => ?_, hr⟩
            cases j using Fin.cases with
            | zero => exact ⟨e, d, hp⟩
            | succ j => exact hbefore j (Fin.succ_lt_succ_iff.mp hj)
          · refine .inr ⟨Fin.cons e es, fun i => ?_, ?_⟩
            · cases i using Fin.cases with
              | zero => exact ⟨d, hp⟩
              | succ i => exact hes i
            · rw [Array.toList_push, List.append_assoc, List.singleton_append] at hr
              rw [List.ofFn_succ]
              exact hr

end Realizes

end Parser

/-- A parser as it is put together. -/
inductive Combinator : Type → Type 1 where
  | expect (kind : Token.Kind) : Combinator Token
  | skipComments : Combinator Unit
  | succeed {α : Type} (value : α) : Combinator α
  | fail {α : Type} (error : RuleError) : Combinator α
  | oneOf {α : Type} {n : Nat} (alternatives : Fin n → Combinator α) : Combinator α
  | sequence {α : Type} {n : Nat} (parsers : Fin n → Combinator α) : Combinator (List α)
  | pair {α β : Type} (p : Combinator α) (q : Combinator β) : Combinator (α × β)
  | map {α β : Type} (f : α → β) (p : Combinator α) : Combinator β
  | tryMap {α β : Type} (f : α → Except RuleError β) (p : Combinator α) : Combinator β
  | andThen {α β : Type} (f : α → Combinator β) (p : Combinator α) : Combinator β
  | repeatUntil {α : Type} (p : Combinator α) (stop : Token.Kind) : Combinator (List α)

namespace Combinator

/-- The parser that is put together. -/
def parser : {α : Type} → Combinator α → Parser α
  | _, expect kind => Parser.expect kind
  | _, skipComments => Parser.skipComments
  | _, succeed value => Parser.succeed value
  | _, fail error => Parser.fail error
  | _, oneOf alternatives => Parser.oneOf (List.ofFn fun i => (alternatives i).parser)
  | _, sequence parsers => Parser.sequence (List.ofFn fun i => (parsers i).parser)
  | _, pair p q => Parser.pair p.parser q.parser
  | _, map f p => Parser.map f p.parser
  | _, tryMap f p => Parser.tryMap f p.parser
  | _, andThen f p => Parser.andThen (fun a => (f a).parser) p.parser
  | _, repeatUntil p stop => Parser.repeatUntil p.parser stop

open DnsResponder.Parser in
/-- How it is run with one cursor. -/
def Runs : {α : Type} → Combinator α → Behaviour α
  | _, expect kind => Expects kind
  | _, skipComments => fun c r => Skips c r.2 ∧ r.1 = .ok ()
  | _, succeed value => fun c r => r = (.ok value, c)
  | _, fail error => fun c r => r = (.error error, c)
  | _, oneOf alternatives =>
      fun c => Tries c.offset #[] (List.ofFn fun i => (alternatives i).Runs) c
  | _, sequence parsers => Collects #[] (List.ofFn fun i => (parsers i).Runs)
  | _, pair p q => Continues (fun a => Changes (fun b => .ok (a, b)) q.Runs) p.Runs
  | _, map f p => Changes (fun a => .ok (f a)) p.Runs
  | _, tryMap f p => Changes f p.Runs
  | _, andThen f p => Continues (fun a => (f a).Runs) p.Runs
  | _, repeatUntil p stop => Repeats p.Runs stop #[]

/-- Whatever is put together, its runs come to what its parser answers. -/
theorem realizes {α : Type} (p : Combinator α) : Parser.Realizes p.Runs p.parser := by
  induction p with
  | expect kind => exact Parser.realizes_expect kind
  | skipComments => exact Parser.realizes_skipComments
  | succeed value => exact Parser.realizes_stay (.ok value)
  | fail error => exact Parser.realizes_stay (.error error)
  | oneOf alternatives ih => exact Parser.realizes_oneOf (Parser.forall₂_ofFn ih)
  | sequence parsers ih => exact Parser.realizes_sequenceFrom (Parser.forall₂_ofFn ih) #[]
  | pair p q ihp ihq => exact ihp.andThen fun a => ihq.tryMap fun b => .ok (a, b)
  | map f p ih => exact ih.tryMap fun a => .ok (f a)
  | tryMap f p ih => exact ih.tryMap f
  | andThen f p ihf ihp => exact ihp.andThen ihf
  | repeatUntil p stop ih => exact ih.repeatUntil stop

/-- A run from a place in a source ends at a place of that source, further on or the same. -/
theorem exists_passed {α : Type} (p : Combinator α) (before rest : List Char) :
    ∃ passed ahead, rest = passed ++ ahead ∧
      (p.parser (Cursor.between before rest)).2 = Cursor.between (before ++ passed) ahead := by
  obtain ⟨passed, hrest, hend⟩ :=
    Cursor.between_of_reaches (p.realizes.reaches (Cursor.between before rest))
  exact ⟨passed, _, hrest, hend⟩

/--
A choice answers what the first of its alternatives that succeeds from where it began
answers alone. When none does, it lists what each of them complains of alone, and the cursor
is back.
-/
theorem runs_oneOf {α : Type} {n : Nat} (alternatives : Fin n → Combinator α) {c : Cursor}
    (hc : c.Sound) :
    (∃ i a d, (alternatives i).Runs c (.ok a, d) ∧
      (∀ j < i, ∃ e d', (alternatives j).Runs c (.error e, d')) ∧
      (oneOf alternatives).Runs c (.ok a, d)) ∨
    ∃ es : Fin n → RuleError, (∀ i, ∃ d, (alternatives i).Runs c (.error (es i), d)) ∧
      (oneOf alternatives).Runs c (.error (.noAlternative (List.ofFn es)), c) := by
  have halone (i : Fin n) {r} (h : (alternatives i).parser c = r) : (alternatives i).Runs c r :=
    ((alternatives i).realizes.runs_iff hc r).mpr h.symm
  have hchoice {r} (h : Parser.firstOf c #[] (List.ofFn fun i => (alternatives i).parser) = r) :
      (oneOf alternatives).Runs c r := ((oneOf alternatives).realizes.runs_iff hc r).mpr h.symm
  obtain ⟨i, a, d, hi, hbefore, hr⟩ | ⟨es, hes, hr⟩ :=
    Parser.firstOf_ofFn (fun i => (alternatives i).parser) c #[]
  · refine .inl ⟨i, a, d, halone i hi, fun j hj => ?_, hchoice hr⟩
    obtain ⟨e, d', hj⟩ := hbefore j hj
    exact ⟨e, d', halone j hj⟩
  · refine .inr ⟨es, fun i => ?_, hchoice hr⟩
    obtain ⟨d, hi⟩ := hes i
    exact ⟨d, halone i hi⟩

/-! ## The grammar of rule source

It is put together in this way, so with one cursor it comes to the same end.
-/

/-- Some way of putting a parser together gives this one. -/
def Gives {α : Type} (p : Parser α) : Prop := ∃ t : Combinator α, t.parser = p

section Gives

variable {α β : Type} {p : Parser α} {q : Parser β}

theorem gives_expect (kind : Token.Kind) : Gives (Parser.expect kind) := ⟨expect kind, rfl⟩

theorem gives_fail (e : RuleError) : Gives (Parser.fail (α := α) e) := ⟨fail e, rfl⟩

theorem Gives.pair (hp : Gives p) (hq : Gives q) : Gives (Parser.pair p q) := by
  obtain ⟨t, rfl⟩ := hp
  obtain ⟨u, rfl⟩ := hq
  exact ⟨t.pair u, rfl⟩

theorem Gives.tryMap (hp : Gives p) (f : α → Except RuleError β) : Gives (Parser.tryMap f p) := by
  obtain ⟨t, rfl⟩ := hp
  exact ⟨t.tryMap f, rfl⟩

theorem Gives.map (hp : Gives p) (f : α → β) : Gives (Parser.map f p) := hp.tryMap _

theorem Gives.andThen (hp : Gives p) {f : α → Parser β} (hf : ∀ a, Gives (f a)) :
    Gives (Parser.andThen f p) := by
  obtain ⟨t, rfl⟩ := hp
  choose u hu using hf
  exact ⟨t.andThen u, congrArg (Parser.andThen · t.parser) (funext hu)⟩

theorem Gives.oneOf {p' : Parser α} (hp : Gives p) (hp' : Gives p') :
    Gives (Parser.oneOf [p, p']) := by
  obtain ⟨t, rfl⟩ := hp
  obtain ⟨u, rfl⟩ := hp'
  exact ⟨.oneOf ![t, u], rfl⟩

theorem Gives.repeatUntil (hp : Gives p) (stop : Token.Kind) :
    Gives (Parser.repeatUntil p stop) := by
  obtain ⟨t, rfl⟩ := hp
  exact ⟨t.repeatUntil stop, rfl⟩

end Gives

theorem gives_value (type : RecordType) (offset : Nat) : Gives (Grammar.value type offset) := by
  cases type with
  | a => exact (gives_expect .text).tryMap _
  | aaaa => exact (gives_expect .text).tryMap _
  | cname => exact (gives_expect .text).map _
  | txt => exact (gives_expect .text).map _
  | _ => exact gives_fail _

/-- The grammar of rule source is one of the parsers that are put together. -/
theorem gives_rules : Gives Grammar.rules := by
  have htype : Gives Grammar.recordType := (gives_expect .text).tryMap _
  have hclass : Gives Grammar.recordClass := (gives_expect .text).tryMap _
  have hsubject : Gives Grammar.subject :=
    (htype.pair ((gives_expect .text).tryMap _)).pair hclass
  have hvalue : Gives Grammar.typedValue := by
    refine (gives_expect .text).andThen fun token => ?_
    split
    · exact (gives_value _ token.start).map _
    · exact gives_fail _
  have hresponse : Gives Grammar.response :=
    ((gives_expect .dash).map _).oneOf ((hvalue.pair hclass).map _)
  have hrule : Gives Grammar.rule := (hsubject.pair ((gives_expect .arrow).pair hresponse)).map _
  exact ((hrule.repeatUntil .eof).pair (gives_expect .eof)).map _

/-- Run with one cursor, the grammar of rule source reads from every source what it answers. -/
theorem exists_runs_rules : ∃ t : Combinator RuleTable, ∀ (text : String) r,
    t.Runs (Cursor.ofText text) r ↔ r = Grammar.rules (Cursor.ofText text) := by
  obtain ⟨t, ht⟩ := gives_rules
  refine ⟨t, fun text r => ?_⟩
  rw [← ht]
  exact t.realizes.runs_iff (Cursor.sound_between [] text.toList) r

/--
From every place in every source, a run comes to exactly one end, whether it succeeds or
not. It ends at a place further on in the source or where it began. A choice does what the
first of its alternatives that succeeds does alone, or goes back and lists what each of them
complains of.
-/
theorem comes_to_one_end {α : Type} (p : Combinator α) (before rest : List Char) :
    let c := Cursor.between before rest
    (∀ r, p.Runs c r ↔ r = p.parser c) ∧
    (∃ passed ahead, rest = passed ++ ahead ∧
      (p.parser c).2 = Cursor.between (before ++ passed) ahead) ∧
    c.offset ≤ (p.parser c).2.offset ∧ (p.parser c).2.offset ≤ c.size ∧
    ∀ (n : Nat) (alternatives : Fin n → Combinator α),
      (∃ i a d, (alternatives i).Runs c (.ok a, d) ∧
        (∀ j < i, ∃ e d', (alternatives j).Runs c (.error e, d')) ∧
        (oneOf alternatives).Runs c (.ok a, d)) ∨
      ∃ es : Fin n → RuleError, (∀ i, ∃ d, (alternatives i).Runs c (.error (es i), d)) ∧
        (oneOf alternatives).Runs c (.error (.noAlternative (List.ofFn es)), c) := by
  intro c
  have hc : c.Sound := Cursor.sound_between before rest
  have hreach := p.realizes.reaches c
  have hend := hc.fits.of_reaches hreach
  unfold Cursor.Fits at hend
  rw [hreach.size] at hend
  refine ⟨p.realizes.runs_iff hc, p.exists_passed before rest, ?_, ?_,
    fun n alternatives => runs_oneOf alternatives hc⟩
  · obtain ⟨passed, -, hoffset⟩ := hreach.passed
    omega
  · omega

end Combinator

end DnsResponder
