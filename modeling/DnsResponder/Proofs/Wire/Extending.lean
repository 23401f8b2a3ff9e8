import DnsResponder.Proofs.Wire.Chasing
import DnsResponder.Wire.Decode

/-!
# More octets behind a datagram

A reader looks at some octets of a datagram and decides. What it decided by octets that
it saw, it decides in the same way when more octets follow, wherever in the datagram
its names led it. Only one thing can make a difference: that it ran into the end.

There are two ways to run into the end. Octets were wanted that were not there, or a
pointer led outside. Both errors name the size of the datagram, and all others are
*settled*. `Firm` says of anything computed from a datagram that it outlasts whatever is
appended unless it ran into the end, and that the error then names the size. It holds of
a step of a chase, way by way, and so of a run; it holds where octets are cut out; and
it is kept when readers are put in a row. So it holds of the decoder.
-/

namespace DnsResponder

namespace DecodeError

/-- The end of the datagram has nothing to do with the error. -/
def Settled : DecodeError → Prop
  | truncated .. | pointerOutOfRange .. => False
  | pointerCycle _ | labelLength .. | foreignLabel _ | longName _ => True

/-- The size of the datagram, where the error names it. -/
def size? : DecodeError → Option Nat
  | truncated _ _ size | pointerOutOfRange _ _ size => some size
  | _ => none

end DecodeError

/-- A success, or an error that the end of the datagram has nothing to do with. -/
def SettledResult {α : Type} (result : Except DecodeError α) : Prop :=
  ∀ e, result = .error e → e.Settled

theorem settledResult_ok {α : Type} (a : α) : SettledResult (.ok a) := by
  intro e h
  cases h

theorem settledResult_error_iff {α : Type} {e : DecodeError} :
    SettledResult (.error e : Except DecodeError α) ↔ e.Settled := by
  constructor
  · intro h
    exact h e rfl
  · rintro h _ ⟨⟩
    exact h

/-- What `f` makes of `buf` depends on the end of `buf` only where the error says so. -/
structure Firm {α : Type} (f : Bytes → Except DecodeError α) (buf : Bytes) : Prop where
  append : ∀ more, SettledResult (f buf) → f (buf ++ more) = f buf
  size : ∀ e, f buf = .error e → ¬e.Settled → e.size? = some buf.size

theorem size_le_size_append (buf more : Bytes) : buf.size ≤ (buf ++ more).size := by
  rw [Array.size_append]
  exact Nat.le_add_right _ _

namespace Chase

variable {c : Chase} {buf : Bytes} {origin : Nat}

/-- A way that a step can go in a datagram can be gone in a longer one, unless it ends at the end. -/
theorem Goes.append_right {result : Except DecodeError Outcome} (h : c.Goes buf origin result)
    (more : Bytes) (hsettled : SettledResult result) : c.Goes (buf ++ more) origin result := by
  have hsize := size_le_size_append buf more
  cases h with
  | ended h => exact .ended (h.append_right more)
  | labelled h hfits hname => exact .labelled (h.append_right more) hfits hname
  | jumped h hmark hin hnew hroom =>
      exact .jumped (h.append_right more) hmark (Nat.lt_of_lt_of_le hin hsize) hnew hroom
  | outgrown h hlong => exact .outgrown (h.append_right more) hlong
  | foreign h hfits hforeign => exact .foreign (h.append_right more) hfits hforeign
  | refused h hfits hname => exact .refused (h.append_right more) hfits hname
  | circular h hmark hin hagain =>
      exact .circular (h.append_right more) hmark (Nat.lt_of_lt_of_le hin hsize) hagain
  | unknown h hlong hunmarked => exact .unknown (h.append_right more) hlong hunmarked
  | beyond _ => exact (hsettled _ rfl).elim
  | cutLabel _ _ _ _ => exact (hsettled _ rfl).elim
  | cutPointer _ _ _ => exact (hsettled _ rfl).elim
  | outside _ _ _ => exact (hsettled _ rfl).elim

/-- An error that is not settled says how long the datagram is. -/
theorem Goes.size?_eq {e : DecodeError} (h : c.Goes buf origin (.error e)) (hopen : ¬e.Settled) :
    e.size? = some buf.size := by
  cases h with
  | beyond _ => rfl
  | cutLabel _ _ _ _ => rfl
  | cutPointer _ _ _ => rfl
  | outside _ _ _ => rfl
  | outgrown _ _ => exact absurd trivial hopen
  | foreign _ _ _ => exact absurd trivial hopen
  | refused _ _ _ => exact absurd trivial hopen
  | circular _ _ _ _ => exact absurd trivial hopen
  | unknown _ _ _ => exact absurd trivial hopen

theorem firm_step (c : Chase) (buf : Bytes) (origin : Nat) : Firm (c.step · origin) buf where
  append more hsettled := step_eq_iff.mpr ((goes_step c buf origin).append_right more hsettled)
  size _ h hopen := (step_eq_iff.mp h).size?_eq hopen

/-- A run goes the same way as long as each of its steps does. -/
theorem firm_run (c : Chase) (buf : Bytes) (origin : Nat) : Firm (c.run · origin) buf := by
  induction c using run.induct buf origin with
  | case1 c e hstep =>
      have hrun := run_of_error hstep
      refine ⟨?_, ?_⟩
      · intro more hsettled
        rw [hrun, settledResult_error_iff] at hsettled
        rw [hrun]
        refine run_of_error (((firm_step c buf origin).append more ?_).trans hstep)
        rwa [hstep, settledResult_error_iff]
      · intro e' h hopen
        cases hrun.symm.trans h
        exact (firm_step c buf origin).size e hstep hopen
  | case2 c name stop hstep =>
      have hrun := run_of_ended hstep
      refine ⟨?_, ?_⟩
      · intro more _
        rw [hrun]
        refine run_of_ended (((firm_step c buf origin).append more ?_).trans hstep)
        rw [hstep]
        exact settledResult_ok _
      · intro e h
        cases hrun.symm.trans h
  | case3 c c' hstep ih =>
      have hrun := run_of_onward hstep
      refine ⟨?_, ?_⟩
      · intro more hsettled
        have hstep' : c.step (buf ++ more) origin = .ok (.onward c') := by
          refine ((firm_step c buf origin).append more ?_).trans hstep
          rw [hstep]
          exact settledResult_ok _
        rw [hrun] at hsettled ⊢
        exact (run_of_onward hstep').trans (ih.append more hsettled)
      · intro e h hopen
        exact ih.size e (hrun.symm.trans h) hopen

end Chase

/-! ## Readers -/

namespace Reader

variable {α β : Type}

/-- What the reader makes of a datagram is firm, wherever it starts. -/
def IsFirm (r : Reader α) : Prop := ∀ buf pos, Firm (r · pos) buf

namespace IsFirm

theorem pure (a : α) : IsFirm (Pure.pure a : Reader α) := by
  intro buf pos
  refine ⟨fun _ _ => rfl, ?_⟩
  intro e h
  cases h

/-- Readers in a row are firm when each is. -/
theorem bind {r : Reader α} {f : α → Reader β} (hr : r.IsFirm) (hf : ∀ a, (f a).IsFirm) :
    (r >>= f).IsFirm := by
  intro buf pos
  refine ⟨?_, ?_⟩
  · intro more hsettled
    rw [bind_apply] at hsettled
    rw [bind_apply, bind_apply]
    cases hread : r buf pos with
    | error e =>
        rw [hread] at hsettled
        have hfirst : SettledResult (r buf pos) := by
          rw [hread]
          exact settledResult_error_iff.mpr (settledResult_error_iff.mp hsettled)
        rw [(hr buf pos).append more hfirst, hread]
    | ok found =>
        rw [hread] at hsettled
        have hfirst : SettledResult (r buf pos) := by
          rw [hread]
          exact settledResult_ok _
        rw [(hr buf pos).append more hfirst, hread]
        exact (hf found.1 buf found.2).append more hsettled
  · intro e h hopen
    rcases bind_eq_error_iff.mp h with he | ⟨a, mid, -, he⟩
    · exact (hr buf pos).size e he hopen
    · exact (hf a buf mid).size e he hopen

theorem bytes (n : Nat) : (Reader.bytes n).IsFirm := by
  intro buf pos
  unfold Reader.bytes
  refine ⟨?_, ?_⟩
  · intro more hsettled
    by_cases hin : pos + n ≤ buf.size
    · have hin' := Nat.le_trans hin (size_le_size_append buf more)
      -- what is cut out ends where `more` has not yet begun
      have hnone : more.extract (pos - buf.size) (pos + n - buf.size) = #[] :=
        Array.extract_eq_empty_of_le (by omega)
      rw [if_pos hin, if_pos hin', Array.extract_append, hnone, Array.append_empty]
    · rw [if_neg hin] at hsettled
      exact (hsettled _ rfl).elim
  · intro e h _
    split at h
    · cases h
    · cases h
      rfl

theorem u16 : Reader.u16.IsFirm := bind (bytes 2) fun _ => pure _

theorem u32 : Reader.u32.IsFirm := bind (bytes 4) fun _ => pure _

theorem name : Reader.name.IsFirm := fun buf pos => Chase.firm_run (Chase.start pos) buf pos

theorem times {r : Reader α} (hr : r.IsFirm) (n : Nat) : (Reader.times r n).IsFirm := by
  induction n with
  | zero => exact pure []
  | succ n ih =>
      rw [times_succ]
      exact bind hr fun a => bind ih fun as => pure (a :: as)

theorem header : Reader.header.IsFirm :=
  bind u16 fun _ => bind u16 fun _ => bind u16 fun _ => bind u16 fun _ => bind u16 fun _ =>
    bind u16 fun _ => pure _

theorem question : Reader.question.IsFirm :=
  bind name fun _ => bind u16 fun _ => bind u16 fun _ => pure _

theorem record : Reader.record.IsFirm :=
  bind name fun _ => bind u16 fun _ => bind u16 fun _ => bind u32 fun _ => bind u16 fun declared =>
    bind (bytes declared.toNat) fun _ => pure _

theorem message : Reader.message.IsFirm :=
  bind header fun h => bind (times question h.questionCount.toNat) fun _ =>
    bind (times record h.answerCount.toNat) fun _ =>
      bind (times record h.authorityCount.toNat) fun _ =>
        bind (times record h.additionalCount.toNat) fun _ => pure _

end IsFirm

end Reader

theorem firm_decode (buf : Bytes) : Firm decode buf := by
  have h := Reader.IsFirm.message buf 0
  refine ⟨?_, ?_⟩
  · intro more hsettled
    unfold decode
    rw [h.append more]
    intro e he
    exact hsettled e (decode_eq_error_iff.mpr he)
  · intro e he hopen
    exact h.size e (decode_eq_error_iff.mp he) hopen

/--
A message that was read is read again when more octets follow, and so is an error that is
settled. Any other error names the size of the datagram, and so it always changes.
-/
theorem decode_append (buf more : Bytes) :
    (∀ m, decode buf = .ok m → decode (buf ++ more) = .ok m) ∧
      ∀ e, decode buf = .error e → (decode (buf ++ more) = .error e ↔ e.Settled ∨ more = #[]) := by
  have hfirm := firm_decode buf
  constructor
  · intro m hm
    have hsettled : SettledResult (decode buf) := by
      rw [hm]
      exact settledResult_ok m
    rw [hfirm.append more hsettled, hm]
  · intro e he
    constructor
    · intro hsame
      by_cases hsettled : e.Settled
      · exact .inl hsettled
      · -- the error gives one size for both datagrams
        have hsize := hfirm.size e he hsettled
        rw [(firm_decode (buf ++ more)).size e hsame hsettled, Array.size_append,
          Option.some.injEq] at hsize
        exact .inr (Array.size_eq_zero_iff.mp (by omega))
    · rintro (hsettled | rfl)
      · rw [← settledResult_error_iff, ← he] at hsettled
        rw [hfirm.append more hsettled, he]
      · rw [Array.append_empty, he]

end DnsResponder
