import DnsResponder.Proofs.Rule.Scanning
import Mathlib.Order.Bounds.Basic

/-!
# A bare offset

A tokenizer that keeps nothing but an offset can be used in five ways. It takes a token, or
looks at it and goes back, or asks for one as long as there are any; it passes comments; and
its offset can be set to any number at all. A number that is inside a character, or beyond the
end, would be the end of it: the source cannot be cut there.

So a number that is set is first brought back to the last place between two characters that is
not beyond it. Then the offset is that of a `Cursor` however it is used, and the tokenizer
answers what the cursor answers. All that a cursor knows of its place is told by its offset, so
to go back to an offset is to go back to the cursor.
-/

namespace DnsResponder

namespace Text

/-- The last boundary up to byte `n`, looked for backwards. -/
def stepBack? (cs : List Char) : Nat → Option Nat
  | 0 => if IsBoundary cs 0 then some 0 else none
  | n + 1 => if IsBoundary cs (n + 1) then some (n + 1) else stepBack? cs n

/-- The way back ends, at the beginning if not before. -/
theorem exists_stepBack (cs : List Char) (n : Nat) :
    ∃ o, stepBack? cs n = some o ∧ IsGreatest {o | IsBoundary cs o ∧ o ≤ n} o := by
  have hzero : IsBoundary cs 0 := ⟨[], cs, rfl, rfl⟩
  induction n with
  | zero => exact ⟨0, if_pos hzero, ⟨hzero, Nat.le_refl 0⟩, fun o ho => ho.2⟩
  | succ n ih =>
      rw [stepBack?]
      by_cases hn : IsBoundary cs (n + 1)
      · exact ⟨n + 1, if_pos hn, ⟨hn, Nat.le_refl _⟩, fun o ho => ho.2⟩
      · obtain ⟨o, hback, ⟨ho, hle⟩, hgreatest⟩ := ih
        refine ⟨o, by rw [if_neg hn, hback], ⟨ho, by omega⟩, fun m hm => hgreatest ⟨hm.1, ?_⟩⟩
        have hne : m ≠ n + 1 := by
          rintro rfl
          exact hn hm.1
        have hle := hm.2
        omega

end Text

/-- The last boundary that is not beyond `target`. -/
def rewindTo? (source : List Char) (target : Nat) : Option Nat :=
  Text.stepBack? source (min target (Text.utf8Length source))

namespace Cursor

/-! ## Going back -/

variable {c : Cursor}

theorem seek_spec (target : Nat) (cs : List Char) :
    ∀ offset ≤ target, ∃ before rest, cs = before ++ rest ∧
      seek target offset cs = (offset + Text.utf8Length before, rest) ∧
      offset + Text.utf8Length before ≤ target ∧
      ∀ ch ∈ rest.head?, target < offset + Text.utf8Length before + ch.utf8Size := by
  induction cs with
  | nil =>
      intro offset hle
      exact ⟨[], [], rfl, rfl, hle, fun ch hch => by cases hch⟩
  | cons ch cs ih =>
      intro offset hle
      rw [seek]
      by_cases hfits : offset + ch.utf8Size ≤ target
      · obtain ⟨before, rest, hcs, hseek, hbefore, hrest⟩ := ih _ hfits
        rw [Nat.add_assoc] at hseek hbefore
        refine ⟨ch :: before, rest, by rw [hcs]; rfl, by rw [if_pos hfits, hseek]; rfl, hbefore, ?_⟩
        intro d hd
        have hlt := hrest d hd
        rw [Text.utf8Length_cons]
        omega
      · refine ⟨[], ch :: cs, rfl, by rw [if_neg hfits]; rfl, hle, ?_⟩
        intro d hd
        cases hd
        exact Nat.lt_of_not_le hfits

/-- Rewinding leads between two characters, of which the one ahead ends beyond the target. -/
theorem exists_rewind (c : Cursor) (target : Nat) :
    ∃ before rest, c.source = before ++ rest ∧
      c.rewind target = { c with offset := Text.utf8Length before, rest } ∧
      Text.utf8Length before ≤ target ∧
      ∀ ch ∈ rest.head?, target < Text.utf8Length before + ch.utf8Size := by
  obtain ⟨before, rest, hsource, hseek, hle, hhead⟩ := seek_spec target c.source 0 (Nat.zero_le _)
  rw [Nat.zero_add] at hseek hle hhead
  refine ⟨before, rest, hsource, ?_, hle, hhead⟩
  rw [rewind, hseek]

theorem isGreatest_rewind (c : Cursor) (target : Nat) :
    IsGreatest {o | Text.IsBoundary c.source o ∧ o ≤ target} (c.rewind target).offset := by
  obtain ⟨before, rest, hsource, hrewind, hle, hhead⟩ := c.exists_rewind target
  rw [hrewind]
  refine ⟨⟨⟨before, rest, hsource, rfl⟩, hle⟩, ?_⟩
  rintro o ⟨⟨as, bs, hsplit, rfl⟩, hole⟩
  have hboth := hsource.symm.trans hsplit
  rcases List.append_eq_append_iff.mp hboth with ⟨ds, has, hrest⟩ | ⟨ds, hbefore, -⟩
  · cases ds with
    | nil => rw [has, List.append_nil]
    | cons d ds =>
        -- a boundary further on has the character ahead behind it
        have hlt := hhead d (by rw [hrest]; rfl)
        rw [has, Text.utf8Length_append, Text.utf8Length_cons] at hole
        omega
  · rw [hbefore, Text.utf8Length_append]
    exact Nat.le_add_right _ _

theorem rewindTo?_eq (c : Cursor) (target : Nat) :
    rewindTo? c.source target = some (c.rewind target).offset := by
  obtain ⟨o, hback, hgreatest⟩ :=
    Text.exists_stepBack c.source (min target (Text.utf8Length c.source))
  -- no boundary is beyond the end, so nothing is lost by stopping there
  have hset : {o | Text.IsBoundary c.source o ∧ o ≤ min target (Text.utf8Length c.source)} =
      {o | Text.IsBoundary c.source o ∧ o ≤ target} := by
    ext o
    constructor
    · rintro ⟨ho, hle⟩
      exact ⟨ho, Nat.le_trans hle (Nat.min_le_left _ _)⟩
    · rintro ⟨ho, hle⟩
      exact ⟨ho, Nat.le_min.mpr ⟨hle, ho.le⟩⟩
  rw [hset] at hgreatest
  rw [rewindTo?, hback, hgreatest.unique (c.isGreatest_rewind target)]

theorem Sound.isBoundary (h : c.Sound) : Text.IsBoundary c.source c.offset := by
  obtain ⟨before, hc⟩ := h
  rw [hc]
  exact ⟨before, c.rest, rfl, rfl⟩

theorem Sound.size_eq (h : c.Sound) : c.size = Text.utf8Length c.source := by
  obtain ⟨before, hc⟩ := h
  rw [hc]
  rfl

theorem Sound.rewind (h : c.Sound) (target : Nat) : (c.rewind target).Sound := by
  obtain ⟨before, rest, hsource, hrewind, -, -⟩ := c.exists_rewind target
  refine ⟨before, ?_⟩
  rw [hrewind, h.size_eq, hsource]
  rfl

end Cursor

/-! ## Uses -/

/-- The ways in which a tokenizer is used. -/
inductive Use where
  | next
  | peek
  /-- The next token, as far as there is one. -/
  | item
  | skipComments
  | rewind (target : Nat)
deriving DecidableEq, Repr

namespace Cursor

variable {c : Cursor}

/-- The token that a use answers with, if it answers with any, and the place where it ends. -/
def use (c : Cursor) : Use → Option Token × Cursor
  | .next => (some c.next.1, c.next.2)
  | .peek => (some c.peek, c)
  | .item => c.next?
  | .skipComments => (none, c.skipComments)
  | .rewind target => (none, c.rewind target)

/-- One use after the other. -/
def uses (c : Cursor) : List Use → List (Option Token × Cursor)
  | [] => []
  | u :: us => c.use u :: (c.use u).2.uses us

theorem use_source (c : Cursor) (u : Use) : (c.use u).2.source = c.source := by
  cases u with
  | next => exact c.reaches_next.source
  | peek => rfl
  | item => exact c.reaches_next.source
  | skipComments => exact c.reaches_skipComments.source
  | rewind target => rfl

theorem Sound.use (h : c.Sound) (u : Use) : (c.use u).2.Sound := by
  cases u with
  | next => exact h.of_reaches c.reaches_next
  | peek => exact h
  | item => exact h.of_reaches c.reaches_next
  | skipComments => exact h.of_reaches c.reaches_skipComments
  | rewind target => exact h.rewind target

/-- However a place is used, it is a place of the same source. -/
theorem sound_of_uses {us : List Use} (h : c.Sound) {r : Option Token × Cursor}
    (hr : r ∈ c.uses us) : r.2.Sound ∧ r.2.source = c.source := by
  induction us generalizing c with
  | nil => cases hr
  | cons u us ih =>
      rcases List.mem_cons.mp hr with rfl | hr
      · exact ⟨h.use u, c.use_source u⟩
      · obtain ⟨hsound, hsource⟩ := ih (h.use u) hr
        exact ⟨hsound, hsource.trans (c.use_source u)⟩

end Cursor

/-- A bare offset is moved past the comments ahead, one by one. -/
inductive Passes (source : List Char) : Nat → Nat → Prop where
  | stays {pos stop : Nat} {t : Token} : scan? source pos = some (t, stop) → t.kind ≠ .comment →
      Passes source pos pos
  | passes {pos stop stop' : Nat} {t : Token} : scan? source pos = some (t, stop) →
      t.kind = .comment → Passes source stop stop' → Passes source pos stop'

/-- What a use of a bare offset may come to. -/
inductive Scans (source : List Char) : Use → Nat → Option Token × Nat → Prop where
  | next {pos stop : Nat} {t : Token} : scan? source pos = some (t, stop) →
      Scans source .next pos (some t, stop)
  /-- The offset is saved, and put back when the token is known. -/
  | peek {pos stop : Nat} {t : Token} : scan? source pos = some (t, stop) →
      Scans source .peek pos (some t, pos)
  | item {pos stop : Nat} {t : Token} : scan? source pos = some (t, stop) →
      Scans source .item pos (if t.kind = .eof then none else some t, stop)
  | skipComments {pos stop : Nat} : Passes source pos stop →
      Scans source .skipComments pos (none, stop)
  | rewind {pos target stop : Nat} : rewindTo? source target = some stop →
      Scans source (.rewind target) pos (none, stop)

/-- What a row of uses may come to. -/
inductive ScansAll (source : List Char) : List Use → Nat → List (Option Token × Nat) → Prop where
  | nil {pos : Nat} : ScansAll source [] pos []
  | cons {u : Use} {us : List Use} {pos stop : Nat} {t? : Option Token}
      {rs : List (Option Token × Nat)} : Scans source u pos (t?, stop) →
      ScansAll source us stop rs → ScansAll source (u :: us) pos ((t?, stop) :: rs)

namespace Cursor

variable {c : Cursor}

theorem Sound.scan?_iff (h : c.Sound) {t : Token} {stop : Nat} :
    DnsResponder.scan? c.source c.offset = some (t, stop) ↔ t = c.next.1 ∧ stop = c.next.2.offset := by
  rw [h.scan?, Option.some.injEq, Prod.mk.injEq, eq_comm, eq_comm (a := c.next.2.offset)]

theorem Sound.passes (h : c.Sound) : Passes c.source c.offset c.skipComments.offset := by
  fun_induction skipComments c with
  | case1 c hk ih =>
      have hrest := ih (h.of_reaches c.reaches_next)
      rw [c.reaches_next.source] at hrest
      exact .passes h.scan? hk hrest
  | case2 c hk => exact .stays h.scan? hk

theorem offset_of_passes {source : List Char} {pos stop : Nat} (hp : Passes source pos stop) :
    ∀ {c : Cursor}, c.Sound → c.source = source → c.offset = pos → stop = c.skipComments.offset := by
  induction hp with
  | stays hscan hk =>
      rintro c hc rfl rfl
      obtain ⟨rfl, rfl⟩ := hc.scan?_iff.mp hscan
      rw [skipComments, if_neg hk]
  | passes hscan hk _ ih =>
      rintro c hc rfl rfl
      obtain ⟨rfl, rfl⟩ := hc.scan?_iff.mp hscan
      rw [skipComments, if_pos hk]
      exact ih (hc.of_reaches c.reaches_next) c.reaches_next.source rfl

/-- The offset of a place is used as the place is, and no cut fails on the way. -/
theorem Sound.scans_iff (h : c.Sound) (u : Use) (r : Option Token × Nat) :
    Scans c.source u c.offset r ↔ r = ((c.use u).1, (c.use u).2.offset) := by
  constructor
  · intro hr
    cases hr with
    | next hscan =>
        obtain ⟨rfl, rfl⟩ := h.scan?_iff.mp hscan
        rfl
    | peek hscan =>
        obtain ⟨rfl, rfl⟩ := h.scan?_iff.mp hscan
        rfl
    | item hscan =>
        obtain ⟨rfl, rfl⟩ := h.scan?_iff.mp hscan
        rfl
    | skipComments hp =>
        obtain rfl := offset_of_passes hp h rfl rfl
        rfl
    | rewind hrewind =>
        cases hrewind.symm.trans (c.rewindTo?_eq _)
        rfl
  · rintro rfl
    cases u with
    | next => exact .next h.scan?
    | peek => exact .peek h.scan?
    | item => exact .item h.scan?
    | skipComments => exact .skipComments h.passes
    | rewind target => exact .rewind (c.rewindTo?_eq target)

theorem Sound.scansAll_iff (us : List Use) :
    ∀ {c : Cursor}, c.Sound → ∀ rs,
      ScansAll c.source us c.offset rs ↔ rs = (c.uses us).map fun r => (r.1, r.2.offset) := by
  induction us with
  | nil =>
      intro c _ rs
      constructor
      · intro hrs
        cases hrs
        rfl
      · rintro rfl
        exact .nil
  | cons u us ih =>
      intro c hc rs
      have hrest := ih (hc.use u)
      rw [c.use_source u] at hrest
      constructor
      · intro hrs
        cases hrs with
        | cons hu hus =>
            cases (hc.scans_iff u _).mp hu
            rw [uses, List.map_cons, (hrest _).mp hus]
      · rintro rfl
        exact .cons ((hc.scans_iff u _).mpr rfl) ((hrest _).mpr rfl)

/-- A token ends where the place behind it is. -/
theorem stop_of_next (c : Cursor) : c.next.1.stop = c.next.2.offset := by
  unfold next
  dsimp only
  split
  · rfl
  · rfl

/-- What holds wherever a tokenizer may stand in its source. -/
structure Valid (source : List Char) (c : Cursor) : Prop where
  boundary : Text.IsBoundary source c.offset
  le_size : c.offset ≤ Text.utf8Length source
  /-- To peek is to know what will be taken next, and nothing else. -/
  peek : (c.use .peek).2 = c ∧ ((c.use .peek).2.use .next).1 = (c.use .peek).1
  /-- A token is left behind, and nothing beyond it. -/
  forwards : c.next.1.kind ≠ .eof → c.offset < c.next.2.offset ∧ c.next.2.offset = c.next.1.stop
  rewind : ∀ target, IsGreatest {o | Text.IsBoundary source o ∧ o ≤ target} (c.rewind target).offset

theorem Sound.valid (h : c.Sound) : c.Valid c.source where
  boundary := h.isBoundary
  le_size := h.isBoundary.le
  peek := ⟨rfl, rfl⟩
  forwards hend := by
    obtain ⟨hstart, hlt⟩ := start_of_next hend
    exact ⟨Nat.lt_of_le_of_lt hstart hlt, c.stop_of_next.symm⟩
  rewind := c.isGreatest_rewind

/--
However a tokenizer is used, its offset stays between two characters of the source. So a bare
offset is enough: no cut fails, and it answers what the cursor answers. Whatever has been seen
is seen again as it was, by rewinding to where it was seen.
-/
theorem uses_stay_valid (source : String) (us : List Use) :
    let start := ofText source
    let places := start :: (start.uses us).map Prod.snd
    (∀ rs, ScansAll source.toList us 0 rs ↔ rs = (start.uses us).map fun r => (r.1, r.2.offset)) ∧
      ∀ c ∈ places, c.Valid source.toList ∧ ∀ d ∈ places, d.rewind c.offset = c := by
  intro start places
  have hstart : start.Sound := sound_between [] source.toList
  have hplaces : ∀ c ∈ places, c.Sound ∧ c.source = source.toList := by
    intro c hc
    rcases List.mem_cons.mp hc with rfl | hc
    · exact ⟨hstart, rfl⟩
    · obtain ⟨r, hr, rfl⟩ := List.mem_map.mp hc
      exact sound_of_uses hstart hr
  refine ⟨Sound.scansAll_iff us hstart, fun c hc => ?_⟩
  obtain ⟨hsound, hsource⟩ := hplaces c hc
  refine ⟨hsource ▸ hsound.valid, fun d hd => ?_⟩
  obtain ⟨hsound', hsource'⟩ := hplaces d hd
  refine hsound.rewind_eq_of_source (hsource'.trans hsource.symm) ?_
  rw [hsound'.size_eq, hsound.size_eq, hsource', hsource]

/-- A target inside the first character leads in front of it, and one beyond the end to the end. -/
theorem uses_stay_valid_insideCharacter :
    let us : List Use := [.next, .peek, .skipComments, .rewind 1, .item, .rewind 99, .next]
    let places := ofText "é# x\n->" :: ((ofText "é# x\n->").uses us).map Prod.snd
    places.map offset = [0, 2, 2, 5, 0, 2, 8, 8] ∧
      ∀ c ∈ places, c.Valid "é# x\n->".toList ∧ ∀ d ∈ places, d.rewind c.offset = c :=
  ⟨by decide +kernel, (uses_stay_valid "é# x\n->" _).2⟩

end Cursor

end DnsResponder
