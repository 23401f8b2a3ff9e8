import DnsResponder.Proofs.Name.Limits
import DnsResponder.Proofs.Wire.Advancing

/-!
# The loop that reads a name

A name is read in a loop. It keeps a position, the targets jumped to, the labels so far, and
beside the labels a number that says how long the name has become. Each turn looks at one
octet, and follows a pointer, appends a label or returns. A label is handed over as text, and
the name that takes it makes checks of its own: that the text is not empty, not too long and
all ASCII, and that there is room for it.

So a name that is too long can be refused at two places, and both report it in the same words.
Only one of them ever does. The number beside the labels is the length of the name in every
turn, so the two places ask the same question, and the loop asks first. Whatever it hands over
is taken.

Nothing decreases by itself. A position moves to wherever a pointer leads, and a label may be
appended many times. But no target is met twice and there are at most 128 of them, and a name
has at most 127 labels. Each turn but the last uses up one of the two.
-/

namespace DnsResponder

/-! ## Octets and bits -/

namespace Text

/-- The text that octets spell, if it is all ASCII. -/
def ascii? (octets : Bytes) : Option String :=
  (String.fromUTF8? ⟨octets⟩).filter fun s => s.toList.all (IsAscii ·)

theorem fromUTF8?_eq_some_iff {octets : Bytes} {s : String} :
    String.fromUTF8? ⟨octets⟩ = some s ↔ utf8 s = octets.toList := by
  unfold String.fromUTF8? utf8
  constructor
  · intro h
    split at h
    · cases h
      rfl
    · cases h
  · intro h
    obtain rfl := Array.toList_inj.mp h
    exact dif_pos s.isValidUTF8

/-- Octets below 128 spell ASCII text, one character each, and no others do. -/
theorem ascii?_eq_some_iff {octets : Bytes} {s : String} :
    ascii? octets = some s ↔
      (∀ o ∈ octets.toList, o < 128) ∧ s.toList = octets.toList.map char := by
  have hall : s.toList.all (IsAscii ·) = true ↔ ∀ c ∈ s.toList, IsAscii c := by simp
  unfold ascii?
  rw [Option.filter_eq_some_iff, fromUTF8?_eq_some_iff, hall]
  constructor
  · intro h
    rcases h with ⟨hutf8, hascii⟩
    rw [utf8_of_isAscii hascii] at hutf8
    rw [← hutf8]
    constructor
    · intro o ho
      rcases List.mem_map.mp ho with ⟨c, hc, rfl⟩
      exact octet_lt (hascii c hc)
    · exact (map_char_octet hascii).symm
  · intro h
    rcases h with ⟨hlt, hs⟩
    have hascii : ∀ c ∈ s.toList, IsAscii c := by
      intro c hc
      rw [hs] at hc
      rcases List.mem_map.mp hc with ⟨o, ho, rfl⟩
      exact isAscii_char (hlt o ho)
    refine ⟨?_, hascii⟩
    rw [utf8_of_isAscii hascii, hs, map_octet_char]

theorem isAscii_of_ascii? {octets : Bytes} {s : String} (h : ascii? octets = some s) :
    ∀ c ∈ s.toList, IsAscii c := by
  unfold ascii? at h
  have hall := (Option.filter_eq_some_iff.mp h).2
  simpa using hall

theorem utf8Length_of_ascii? {octets : Bytes} {s : String} (h : ascii? octets = some s) :
    utf8Length s.toList = octets.size := by
  rw [utf8Length_of_isAscii (isAscii_of_ascii? h), (ascii?_eq_some_iff.mp h).2, List.length_map,
    Array.length_toList]

end Text

/-- Octets are a label exactly when, being neither none nor too many, they spell ASCII text. -/
theorem Label.map_text_ofOctets? {octets : Bytes} (hne : octets.toList ≠ [])
    (hle : octets.toList.length ≤ maxLabelLength) :
    (ofOctets? octets.toList).map text = Text.ascii? octets := by
  cases hlabel : ofOctets? octets.toList with
  | some l =>
      have hoctets := octets_of_ofOctets? hlabel
      refine (Text.ascii?_eq_some_iff.mpr ⟨?_, ?_⟩).symm
      · rw [← hoctets]
        exact l.ascii
      · rw [toList_text, chars, hoctets]
  | none =>
      cases hascii : Text.ascii? octets with
      | none => rfl
      | some s =>
          rcases (ofOctets?_eq_none_iff hne hle).mp hlabel with ⟨o, ho, hforeign⟩
          exact absurd ((Text.ascii?_eq_some_iff.mp hascii).1 o ho) hforeign

/-- The two high bits of an octet. Both are set in a pointer, and neither in a label's length. -/
def markBits : UInt8 := 0xC0

theorem and_markBits (head : UInt8) :
    (head &&& markBits = 0xC0 ↔ 192 ≤ head.toNat) ∧
      (head &&& markBits = 0 ↔ head.toNat ≤ maxLabelLength) ∧
      (192 ≤ head.toNat → (head &&& ~~~markBits).toNat = head.toNat - 192) := by
  have key : ∀ n < 256, (UInt8.ofNat n &&& markBits = 0xC0 ↔ 192 ≤ n) ∧
      (UInt8.ofNat n &&& markBits = 0 ↔ n ≤ maxLabelLength) ∧
      (192 ≤ n → (UInt8.ofNat n &&& ~~~markBits).toNat = n - 192) := by decide +kernel
  have hhead := key head.toNat head.toNat_lt
  rwa [UInt8.ofNat_toNat] at hhead

/-- Fourteen of the sixteen bits of a pointer are the place that it leads to. -/
theorem pointerTarget_eq {head : UInt8} (low : UInt8) (hmark : 192 ≤ head.toNat) :
    (head &&& ~~~markBits).toNat <<< 8 ||| low.toNat = pointerTarget head low := by
  rw [(and_markBits head).2.2 hmark, ← Nat.shiftLeft_add_eq_or_of_lt low.toNat_lt, Nat.shiftLeft_eq]
  rfl

/-! ## Turns -/

namespace Chase

/-- Where a turn gives up. -/
inductive Site where
  /-- At the end of the datagram. -/
  | head
  /-- At the second octet of a pointer. -/
  | low
  /-- Where the target is compared with the size of the datagram. -/
  | target
  /-- Where the target is looked for among those jumped to. -/
  | visited
  /-- Where the octets of a label are cut out. -/
  | slice
  /-- Where the number beside the labels has become too large. -/
  | lengthCheck
  /-- Where the octets are read as text. -/
  | text
  /-- Where the name refuses the label. -/
  | push
  /-- At an octet that announces nothing. -/
  | mark
deriving DecidableEq, Repr

/-- What a turn comes to. -/
inductive Turn where
  /-- The name is complete, and the datagram goes on at `stop`. -/
  | ended (name : Name) (stop : Nat)
  /-- A pointer has been followed. -/
  | followed (next : Chase)
  /-- A label has been appended. -/
  | appended (next : Chase)
  /-- There is no name. -/
  | failed (site : Site) (error : DecodeError)

/-- What a turn comes to, without how it came to that. -/
def Turn.outcome : Turn → Except DecodeError Outcome
  | ended name stop => .ok (.ended name stop)
  | followed next => .ok (.onward next)
  | appended next => .ok (.onward next)
  | failed _ error => .error error

/-- A turn at a pointer. -/
def follow (c : Chase) (buf : Bytes) (head : UInt8) : Turn :=
  match buf[c.pos + 1]? with
  | none => .failed .low (.truncated c.pos 2 buf.size)
  | some low =>
      let target := (head &&& ~~~markBits).toNat <<< 8 ||| low.toNat
      if buf.size ≤ target then .failed .target (.pointerOutOfRange c.pos target buf.size)
      else if target ∈ c.visited ∨ maxJumps ≤ c.visited.length then
        .failed .visited (.pointerCycle c.pos)
      else .followed (c.jumpTo target)

/-- A turn at a label of `len` octets, in a name that starts at `origin`. -/
def append (c : Chase) (buf : Bytes) (origin len : Nat) : Turn :=
  match slice? buf (c.pos + 1) (c.pos + 1 + len) with
  | none => .failed .slice (.truncated (c.pos + 1) len buf.size)
  | some octets =>
      if maxNameLength < c.length + len + 1 then .failed .lengthCheck (.longName origin)
      else
        match Text.ascii? octets with
        | none => .failed .text (.foreignLabel c.pos)
        | some text =>
            match c.name.pushText text with
            | .error _ => .failed .push (.longName origin)
            | .ok name => .appended (c.past len name)

/-- One turn of the loop. -/
def turn (c : Chase) (buf : Bytes) (origin : Nat) : Turn :=
  match buf[c.pos]? with
  | none => .failed .head (.truncated c.pos 1 buf.size)
  | some head =>
      if head &&& markBits = 0xC0 then c.follow buf head
      else if head &&& markBits = 0 then
        if head.toNat = 0 then .ended c.name (c.resume?.getD (c.pos + 1))
        else c.append buf origin head.toNat
      else .failed .mark (.labelLength c.pos head)

variable {c c' : Chase} {buf : Bytes} {origin len : Nat} {head : UInt8}

theorem outcome_follow (hmark : 192 ≤ head.toNat) : (c.follow buf head).outcome = c.jump buf head := by
  unfold follow jump
  cases buf[c.pos + 1]? with
  | none => rfl
  | some low =>
      dsimp only
      rw [pointerTarget_eq low hmark]
      unfold pointerTarget
      split
      · rfl
      · split <;> rfl

theorem outcome_append (hpos : 1 ≤ len) (hle : len ≤ maxLabelLength) :
    (c.append buf origin len).outcome = c.take buf origin len := by
  unfold append take slice?
  by_cases hsize : c.pos + 1 + len ≤ buf.size
  · have hslice : c.pos + 1 ≤ c.pos + 1 + len ∧ c.pos + 1 + len ≤ buf.size :=
      ⟨Nat.le_add_right _ _, hsize⟩
    have hlen : (buf.extract (c.pos + 1) (c.pos + 1 + len)).toList.length = len := by
      rw [Array.length_toList, Array.size_extract]
      omega
    rw [if_pos hslice, if_neg (Nat.not_lt.mpr hsize)]
    generalize buf.extract (c.pos + 1) (c.pos + 1 + len) = octets at hlen ⊢
    dsimp only
    split
    · rfl
    · have hne : octets.toList ≠ [] := by
        intro hnil
        rw [hnil, List.length_nil] at hlen
        omega
      rw [← Label.map_text_ofOctets? hne (by omega)]
      cases Label.ofOctets? octets.toList with
      | none => rfl
      | some l =>
          dsimp only [Option.map_some]
          rw [Name.pushText_text]
          cases c.name.push l <;> rfl
  · have hslice : ¬(c.pos + 1 ≤ c.pos + 1 + len ∧ c.pos + 1 + len ≤ buf.size) := fun h => hsize h.2
    rw [if_neg hslice, if_pos (Nat.lt_of_not_le hsize)]
    rfl

/-- A turn comes to what a step comes to. -/
theorem outcome_turn (c : Chase) (buf : Bytes) (origin : Nat) :
    (c.turn buf origin).outcome = c.step buf origin := by
  unfold turn step
  cases buf[c.pos]? with
  | none => rfl
  | some head =>
      rcases and_markBits head with ⟨hpointer, hlabel, -⟩
      have hzero : head.toNat = 0 ↔ head = 0 := by rw [← UInt8.toNat_inj]; rfl
      simp only [hpointer, hlabel, hzero]
      unfold maxLabelLength
      by_cases hnull : head = 0
      · subst hnull
        rfl
      · have hpos : head.toNat ≠ 0 := fun h => hnull (hzero.mp h)
        by_cases hmark : 192 ≤ head.toNat
        · rw [if_pos hmark, if_neg hnull, if_neg (by omega), if_pos hmark]
          exact outcome_follow hmark
        · by_cases hle : head.toNat ≤ 63
          · rw [if_neg hmark, if_pos hle, if_neg hnull, if_neg hnull, if_pos hle]
            exact outcome_append (by omega) hle
          · rw [if_neg hmark, if_neg hle, if_neg hnull, if_neg hle, if_neg hmark]
            rfl

/-- The ways in which a turn can go. -/
inductive Turns (c : Chase) (buf : Bytes) (origin : Nat) : Turn → Prop where
  | ended {stop : Nat} : Turns c buf origin (.ended c.name stop)
  /-- A target is in the datagram and new, and there are not too many yet. -/
  | followed {target : Nat} (hin : target < buf.size) (hnew : target ∉ c.visited)
      (hroom : c.visited.length < maxJumps) : Turns c buf origin (.followed (c.jumpTo target))
  /-- A text that has been cut out of the datagram is taken by the name. -/
  | appended {text : String} {name : Name}
      (hsize : c.pos + 1 + Text.utf8Length text.toList ≤ buf.size)
      (hpush : c.name.pushText text = .ok name) :
      Turns c buf origin (.appended (c.past (Text.utf8Length text.toList) name))
  | outgrown : Turns c buf origin (.failed .lengthCheck (.longName origin))
  /-- The text of a label is refused although the loop has found room for it. -/
  | refused {text : String} {e : NameError} (hlabel : IsLabel text)
      (hfits : c.length + Text.utf8Length text.toList + 1 ≤ maxNameLength)
      (hpush : c.name.pushText text = .error e) : Turns c buf origin (.failed .push (.longName origin))
  /-- Anything else is not about the length of the name. -/
  | failed {site : Site} {e : DecodeError} (hsite : site ≠ .push) (hshort : ∀ o, e ≠ .longName o) :
      Turns c buf origin (.failed site e)

theorem turns_follow : c.Turns buf origin (c.follow buf head) := by
  unfold follow
  split
  · exact .failed (by decide) (by simp)
  · dsimp only
    split
    · exact .failed (by decide) (by simp)
    · rename_i hin
      split
      · exact .failed (by decide) (by simp)
      · rename_i hnew
        rw [not_or, Nat.not_le] at hnew
        exact .followed (Nat.lt_of_not_le hin) hnew.1 hnew.2

theorem turns_append (hpos : 1 ≤ len) (hle : len ≤ maxLabelLength) :
    c.Turns buf origin (c.append buf origin len) := by
  unfold append
  split
  · exact .failed (by decide) (by simp)
  · rename_i octets hslice
    have hsize : c.pos + 1 + len ≤ buf.size ∧ octets.size = len := by
      unfold slice? at hslice
      split at hslice
      · rename_i hends
        cases hslice
        rw [Array.size_extract]
        omega
      · cases hslice
    split
    · exact .outgrown
    · rename_i hfits
      split
      · exact .failed (by decide) (by simp)
      · rename_i text htext
        have hlen := Text.utf8Length_of_ascii? htext
        rw [hsize.2] at hlen
        split
        · rename_i e hpush
          have hlabel : IsLabel text := by
            unfold maxLabelLength at hle
            exact ⟨Text.isAscii_of_ascii? htext, by omega, by omega⟩
          exact .refused hlabel (by omega) hpush
        · rename_i name hpush
          subst hlen
          exact .appended hsize.1 hpush

theorem turns_turn (c : Chase) (buf : Bytes) (origin : Nat) :
    c.Turns buf origin (c.turn buf origin) := by
  unfold turn
  split
  · exact .failed (by decide) (by simp)
  · rename_i head _
    split
    · exact turns_follow
    · split
      · rename_i hlabel
        split
        · exact .ended
        · rename_i hpos
          exact turns_append (Nat.one_le_iff_ne_zero.mpr hpos) ((and_markBits head).2.1.mp hlabel)
      · exact .failed (by decide) (by simp)

theorem turns_of_eq {t : Turn} (h : c.turn buf origin = t) : c.Turns buf origin t := by
  rw [← h]
  exact c.turns_turn buf origin

theorem step_of_turn {t : Turn} (h : c.turn buf origin = t) : c.step buf origin = t.outcome := by
  rw [← outcome_turn, h]

/-! ## What every turn keeps -/

/-- What is so at the start of every turn. -/
structure Kept (c : Chase) (buf : Bytes) : Prop where
  /-- The number beside the labels is the length of the name. -/
  length_eq : c.length = c.name.wireLength
  visited_nodup : c.visited.Nodup
  visited_lt : ∀ target ∈ c.visited, target < buf.size

theorem kept_start (pos : Nat) : (start pos).Kept buf where
  length_eq := rfl
  visited_nodup := List.nodup_nil
  visited_lt := by
    intro target h
    cases h

namespace Kept

theorem followed (h : c.Kept buf) (hturn : c.turn buf origin = .followed c') : c'.Kept buf := by
  cases turns_of_eq hturn with
  | followed hin hnew _ =>
      exact ⟨h.length_eq, List.nodup_cons.mpr ⟨hnew, h.visited_nodup⟩,
        List.forall_mem_cons.mpr ⟨hin, h.visited_lt⟩⟩

theorem appended (h : c.Kept buf) (hturn : c.turn buf origin = .appended c') : c'.Kept buf := by
  cases turns_of_eq hturn with
  | appended _ hpush =>
      refine ⟨?_, h.visited_nodup, h.visited_lt⟩
      rw [past, Name.wireLength_of_pushText hpush, h.length_eq]

/-- The name has room for a label exactly when the number beside the labels says so. -/
theorem exists_pushText_iff (h : c.Kept buf) {s : String} (hs : IsLabel s) :
    (∃ m, c.name.pushText s = .ok m) ↔
      c.length + Text.utf8Length s.toList + 1 ≤ maxNameLength := by
  rw [Name.exists_pushText_iff, h.length_eq]
  exact and_iff_right hs

/-- The name never refuses what the loop hands over. -/
theorem turn_ne_push (h : c.Kept buf) (e : DecodeError) : c.turn buf origin ≠ .failed .push e := by
  intro hturn
  cases turns_of_eq hturn with
  | refused hlabel hfits hpush =>
      rcases (h.exists_pushText_iff hlabel).mpr hfits with ⟨m, hok⟩
      rw [hok] at hpush
      cases hpush
  | failed hsite _ => exact hsite rfl

/-- So a name that is too long is refused by the loop itself. -/
theorem site_of_longName (h : c.Kept buf) {site : Site} {o : Nat}
    (hturn : c.turn buf origin = .failed site (.longName o)) : site = .lengthCheck := by
  cases turns_of_eq hturn with
  | outgrown => rfl
  | refused _ _ _ => exact absurd hturn (h.turn_ne_push _)
  | failed _ hshort => exact absurd rfl (hshort o)

end Kept

/-! ## The loop -/

/--
The loop goes round from `c` on and comes to `answer`. The chases are what it holds at the
start of each turn.
-/
inductive Loop (buf : Bytes) (origin : Nat) :
    Chase → List Chase → Except DecodeError (Name × Nat) → Prop where
  | ended {c : Chase} {name : Name} {stop : Nat} (hturn : c.turn buf origin = .ended name stop) :
      Loop buf origin c [c] (.ok (name, stop))
  | failed {c : Chase} {site : Site} {e : DecodeError} (hturn : c.turn buf origin = .failed site e) :
      Loop buf origin c [c] (.error e)
  | followed {c c' : Chase} {laps : List Chase} {answer : Except DecodeError (Name × Nat)}
      (hturn : c.turn buf origin = .followed c') (rest : Loop buf origin c' laps answer) :
      Loop buf origin c (c :: laps) answer
  | appended {c c' : Chase} {laps : List Chase} {answer : Except DecodeError (Name × Nat)}
      (hturn : c.turn buf origin = .appended c') (rest : Loop buf origin c' laps answer) :
      Loop buf origin c (c :: laps) answer

/-- How many pointers a turn follows. -/
def Turn.pointers : Turn → Nat
  | followed _ => 1
  | _ => 0

/-- How many labels a turn appends. -/
def Turn.labels : Turn → Nat
  | appended _ => 1
  | _ => 0

/-- How many pointers are followed in these turns. -/
def pointersIn (buf : Bytes) (origin : Nat) (laps : List Chase) : Nat :=
  (laps.map fun c => (c.turn buf origin).pointers).sum

/-- How many labels are appended in these turns. -/
def labelsIn (buf : Bytes) (origin : Nat) (laps : List Chase) : Nat :=
  (laps.map fun c => (c.turn buf origin).labels).sum

@[simp] theorem pointersIn_nil : pointersIn buf origin [] = 0 := rfl

@[simp] theorem pointersIn_cons (c : Chase) (laps : List Chase) :
    pointersIn buf origin (c :: laps) = (c.turn buf origin).pointers + pointersIn buf origin laps :=
  List.sum_cons

@[simp] theorem labelsIn_nil : labelsIn buf origin [] = 0 := rfl

@[simp] theorem labelsIn_cons (c : Chase) (laps : List Chase) :
    labelsIn buf origin (c :: laps) = (c.turn buf origin).labels + labelsIn buf origin laps :=
  List.sum_cons

/-- The loop comes to an end, with the answer of the run. -/
theorem exists_loop (c : Chase) (buf : Bytes) (origin : Nat) :
    ∃ laps, Loop buf origin c laps (c.run buf origin) := by
  -- every turn that goes on uses up some room, whatever it does to the position
  induction hroom : c.room using Nat.strongRecOn generalizing c with
  | _ room ih =>
      subst hroom
      cases hturn : c.turn buf origin with
      | ended name stop =>
          rw [run_of_ended (step_of_turn hturn)]
          exact ⟨_, .ended hturn⟩
      | failed site e =>
          rw [run_of_error (step_of_turn hturn)]
          exact ⟨_, .failed hturn⟩
      | followed c' =>
          rw [run_of_onward (step_of_turn hturn)]
          rcases ih c'.room (room_step (step_of_turn hturn)) c' rfl with ⟨laps, hloop⟩
          exact ⟨_, .followed hturn hloop⟩
      | appended c' =>
          rw [run_of_onward (step_of_turn hturn)]
          rcases ih c'.room (room_step (step_of_turn hturn)) c' rfl with ⟨laps, hloop⟩
          exact ⟨_, .appended hturn hloop⟩

namespace Loop

variable {laps : List Chase} {answer : Except DecodeError (Name × Nat)}

theorem answer_eq (h : Loop buf origin c laps answer) : answer = c.run buf origin := by
  induction h with
  | ended hturn => rw [run_of_ended (step_of_turn hturn)]
  | failed hturn => rw [run_of_error (step_of_turn hturn)]
  | followed hturn _ ih => rw [run_of_onward (step_of_turn hturn), ih]
  | appended hturn _ ih => rw [run_of_onward (step_of_turn hturn), ih]

theorem kept (h : Loop buf origin c laps answer) (hc : c.Kept buf) : ∀ d ∈ laps, d.Kept buf := by
  induction h with
  | ended _ => exact List.forall_mem_singleton.mpr hc
  | failed _ => exact List.forall_mem_singleton.mpr hc
  | followed hturn _ ih => exact List.forall_mem_cons.mpr ⟨hc, ih (hc.followed hturn)⟩
  | appended hturn _ ih => exact List.forall_mem_cons.mpr ⟨hc, ih (hc.appended hturn)⟩

/-- Wherever the loop starts, it stays in the datagram from the second turn on. -/
theorem pos_le_iff (h : Loop buf origin c laps answer) :
    (∀ d ∈ laps, d.pos ≤ buf.size) ↔ c.pos ≤ buf.size := by
  induction h with
  | ended _ => exact List.forall_mem_singleton
  | failed _ => exact List.forall_mem_singleton
  | followed hturn _ ih =>
      rw [List.forall_mem_cons, ih]
      cases turns_of_eq hturn with
      | followed hin _ _ => exact and_iff_left (Nat.le_of_lt hin)
  | appended hturn _ ih =>
      rw [List.forall_mem_cons, ih]
      cases turns_of_eq hturn with
      | appended hsize _ => exact and_iff_left hsize

/-- Pointers that have been followed are among the targets in the end. -/
theorem pointersIn_le (h : Loop buf origin c laps answer) (hc : c.visited.length ≤ maxJumps) :
    c.visited.length + pointersIn buf origin laps ≤ maxJumps := by
  induction h with
  | ended hturn => simpa [hturn, Turn.pointers] using hc
  | failed hturn => simpa [hturn, Turn.pointers] using hc
  | followed hturn _ ih =>
      cases turns_of_eq hturn with
      | followed _ _ hroom =>
          have hrest := ih hroom
          simp only [jumpTo, List.length_cons] at hrest
          simp only [pointersIn_cons, hturn, Turn.pointers]
          omega
  | appended hturn _ ih =>
      cases turns_of_eq hturn with
      | appended _ _ =>
          have hrest := ih hc
          simp only [past] at hrest
          simp only [pointersIn_cons, hturn, Turn.pointers]
          omega

/-- Labels that have been appended are labels of the name in the end. -/
theorem labelsIn_le (h : Loop buf origin c laps answer) :
    c.name.labels.length + labelsIn buf origin laps ≤ 127 := by
  induction h with
  | @ended c _ _ hturn => simpa [hturn, Turn.labels] using c.name.length_labels_le
  | @failed c _ _ hturn => simpa [hturn, Turn.labels] using c.name.length_labels_le
  | followed hturn _ ih =>
      cases turns_of_eq hturn with
      | followed _ _ _ =>
          simp only [jumpTo] at ih
          simp only [labelsIn_cons, hturn, Turn.labels]
          omega
  | appended hturn _ ih =>
      cases turns_of_eq hturn with
      | appended _ hpush =>
          -- each label counted here is one that the bound on names counts at the end
          rcases Name.pushText_eq_ok hpush with ⟨l, -, hlabels⟩
          simp only [past, hlabels, List.length_append, List.length_singleton] at ih
          simp only [labelsIn_cons, hturn, Turn.labels]
          omega

/-- Each turn but the last follows a pointer or appends a label. -/
theorem length_eq (h : Loop buf origin c laps answer) :
    laps.length = pointersIn buf origin laps + labelsIn buf origin laps + 1 := by
  induction h with
  | ended hturn => simp [hturn, Turn.pointers, Turn.labels]
  | failed hturn => simp [hturn, Turn.pointers, Turn.labels]
  | followed hturn _ ih =>
      simp only [List.length_cons, pointersIn_cons, labelsIn_cons, hturn, Turn.pointers, Turn.labels]
      omega
  | appended hturn _ ih =>
      simp only [List.length_cons, pointersIn_cons, labelsIn_cons, hturn, Turn.pointers, Turn.labels]
      omega

/-- An error is that of the last turn. -/
theorem exists_failed {e : DecodeError} (h : Loop buf origin c laps (.error e)) :
    ∃ last site, laps.getLast? = some last ∧ last.turn buf origin = .failed site e := by
  generalize hanswer : (.error e : Except DecodeError (Name × Nat)) = answer at h
  induction h with
  | ended _ => cases hanswer
  | failed hturn =>
      cases hanswer
      exact ⟨_, _, rfl, hturn⟩
  | followed _ rest ih =>
      rcases ih hanswer with ⟨last, site, hlast, hturn⟩
      exact ⟨last, site, by rw [List.getLast?_cons, hlast]; rfl, hturn⟩
  | appended _ rest ih =>
      rcases ih hanswer with ⟨last, site, hlast, hturn⟩
      exact ⟨last, site, by rw [List.getLast?_cons, hlast]; rfl, hturn⟩

end Loop

end Chase

/-! ## Where a name can start -/

namespace Reader

/-- A reader that began in front of the datagram stands here after some reads. -/
inductive StandsAt (buf : Bytes) : Nat → Prop where
  | start : StandsAt buf 0
  | read {pos stop : Nat} {read : Read} {v : read.Value} (before : StandsAt buf pos)
      (hread : read.reader buf pos = .ok (v, stop)) : StandsAt buf stop

/-- A reader can come to any place in the datagram and to its end, but no further. -/
theorem standsAt_iff {buf : Bytes} {pos : Nat} : StandsAt buf pos ↔ pos ≤ buf.size := by
  constructor
  · intro h
    induction h with
    | start => exact Nat.zero_le _
    | read _ hread _ => exact (Read.stop_of_reader hread).2
  · intro h
    have hread : (Read.bytes pos).reader buf 0 = .ok (buf.extract 0 (0 + pos), 0 + pos) :=
      if_pos (by omega)
    rw [Nat.zero_add] at hread
    exact .read .start hread

end Reader

namespace Chase

/-- What is so of the turns in which a name at `start` is read, and of the answer they come to. -/
structure Bounded (buf : Bytes) (start : Nat) (laps : List Chase)
    (answer : Except DecodeError (Name × Nat)) : Prop where
  pointers_le : pointersIn buf start laps ≤ 128
  labels_le : labelsIn buf start laps ≤ 127
  /-- Besides these turns there is the last one only. -/
  turns_eq : laps.length = pointersIn buf start laps + labelsIn buf start laps + 1
  length_eq : ∀ c ∈ laps, c.length = c.name.wireLength
  /-- No turn is beyond the end of the datagram, from wherever a reader may stand. -/
  pos_le_iff : (∀ c ∈ laps, c.pos ≤ buf.size) ↔ Reader.StandsAt buf start
  visited_nodup : ∀ c ∈ laps, c.visited.Nodup
  visited_lt : ∀ c ∈ laps, ∀ target ∈ c.visited, target < buf.size
  /-- Of a label the name takes what the number beside the labels leaves room for. -/
  room_iff : ∀ c ∈ laps, ∀ s, IsLabel s →
    ((∃ m, c.name.pushText s = .ok m) ↔ c.length + Text.utf8Length s.toList + 1 ≤ maxNameLength)
  /-- The name refuses nothing that the loop hands over. -/
  push_ok : ∀ c ∈ laps, ∀ e, c.turn buf start ≠ .failed .push e
  /-- The loop itself refuses a name that is too long. -/
  longName : ∀ o, answer = .error (.longName o) →
    ∃ last, laps.getLast? = some last ∧ last.turn buf start = .failed .lengthCheck (.longName o)

/--
From wherever a name starts, it is read in finitely many turns. At most 128 of them follow a
pointer, at most 127 append a label, and one is the last. In each of them the targets are
distinct and in the datagram, the number beside the labels is the length of the name, and the
position is not beyond the end, unless no reader could have stood at the start. So the name
never refuses a label, and whenever a name is too long it is the loop that has noticed.
-/
theorem laps_bounded (buf : Bytes) (start : Nat) :
    (∃ laps, Loop buf start (.start start) laps (Reader.name buf start)) ∧
      ∀ laps answer, Loop buf start (.start start) laps answer →
        answer = Reader.name buf start ∧ Bounded buf start laps answer := by
  refine ⟨exists_loop _ buf start, ?_⟩
  intro laps answer hloop
  have hkept : ∀ c ∈ laps, c.Kept buf := hloop.kept (kept_start start)
  have hpointers : 0 + pointersIn buf start laps ≤ 128 := hloop.pointersIn_le (Nat.zero_le _)
  have hlabels : 0 + labelsIn buf start laps ≤ 127 := hloop.labelsIn_le
  rw [Nat.zero_add] at hpointers hlabels
  have hlong : ∀ o, answer = .error (.longName o) →
      ∃ last, laps.getLast? = some last ∧
        last.turn buf start = .failed .lengthCheck (.longName o) := by
    intro o hanswer
    subst hanswer
    rcases hloop.exists_failed with ⟨last, site, hlast, hturn⟩
    have hsite := (hkept last (List.mem_of_getLast? hlast)).site_of_longName hturn
    subst hsite
    exact ⟨last, hlast, hturn⟩
  refine ⟨hloop.answer_eq, ?_⟩
  exact {
    pointers_le := hpointers
    labels_le := hlabels
    turns_eq := hloop.length_eq
    length_eq := fun c hc => (hkept c hc).length_eq
    pos_le_iff := hloop.pos_le_iff.trans Reader.standsAt_iff.symm
    visited_nodup := fun c hc => (hkept c hc).visited_nodup
    visited_lt := fun c hc => (hkept c hc).visited_lt
    room_iff := fun c hc _ hs => (hkept c hc).exists_pushText_iff hs
    push_ok := fun c hc => (hkept c hc).turn_ne_push
    longName := hlong
  }

end Chase

end DnsResponder
