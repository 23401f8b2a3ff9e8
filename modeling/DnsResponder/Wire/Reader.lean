import DnsResponder.Text

/-!
# Reading a datagram

A reader takes the whole datagram and a position in it, and answers with a value
and the position after it, or with the reason why there is none. The datagram is
an argument and not part of what a reader answers with, so no reader can change
it, and compression pointers may lead anywhere in it. A reader that fails answers
with no position at all: whoever called it is still where it was.

Everything below is built from one primitive, `Reader.bytes`, which takes the next
`n` octets or says that they are not there. Numbers are the big-endian values of
such pieces.
-/

namespace DnsResponder

/-- Why a datagram is no message. Offsets and sizes are in octets. -/
inductive DecodeError where
  /-- `needed` octets were wanted at `offset`, in a datagram of `size`. -/
  | truncated (offset needed size : Nat)
  /-- The pointer at `offset` leads back, or is one pointer too many. -/
  | pointerCycle (offset : Nat)
  /-- The pointer at `offset` leads outside the datagram. -/
  | pointerOutOfRange (offset target size : Nat)
  /-- The octet at `offset` is neither a label length nor the start of a pointer. -/
  | labelLength (offset : Nat) (head : UInt8)
  /-- The label at `offset` holds an octet outside ASCII. -/
  | foreignLabel (offset : Nat)
  /-- The name that starts at `offset` outgrows the wire. -/
  | longName (offset : Nat)
deriving DecidableEq, Repr

/-- What is wrong with the datagram, in words. -/
def DecodeError.message : DecodeError → String
  | truncated offset needed size =>
      s!"Truncated message: needed {needed} bytes at offset {offset}, buffer has {size}"
  | pointerCycle offset => s!"Compression pointer cycle at offset {offset}"
  | pointerOutOfRange offset target size =>
      s!"Compression pointer at offset {offset} targets {target}, buffer has {size} bytes"
  | labelLength offset head => s!"Invalid label length byte 0x{Text.hex head} at offset {offset}"
  | foreignLabel offset => s!"Non-ASCII label at offset {offset}"
  | longName offset => s!"Name starting at offset {offset} exceeds 255 bytes"

/-- Reads a value from a datagram at a position, and says where it ended. -/
def Reader (α : Type) : Type := Bytes → Nat → Except DecodeError (α × Nat)

namespace Reader

variable {α β : Type}

instance : Monad Reader where
  pure a := fun _ pos => .ok (a, pos)
  bind r f := fun buf pos =>
    match r buf pos with
    | .ok (a, pos') => f a buf pos'
    | .error e => .error e

theorem pure_apply (a : α) (buf : Bytes) (pos : Nat) : (pure a : Reader α) buf pos = .ok (a, pos) :=
  rfl

theorem bind_apply (r : Reader α) (f : α → Reader β) (buf : Bytes) (pos : Nat) :
    (r >>= f) buf pos =
      match r buf pos with
      | .ok (a, pos') => f a buf pos'
      | .error e => .error e := rfl

/-- A sequence of readers succeeds exactly when each does where the one before it ended. -/
theorem bind_eq_ok_iff {r : Reader α} {f : α → Reader β} {buf : Bytes} {pos stop : Nat} {b : β} :
    (r >>= f) buf pos = .ok (b, stop) ↔
      ∃ a mid, r buf pos = .ok (a, mid) ∧ f a buf mid = .ok (b, stop) := by
  rw [bind_apply]
  rcases h : r buf pos with e | ⟨a, mid⟩
  · simp
  · simp [and_assoc]

/-- A sequence of readers fails where its first failing part does. -/
theorem bind_eq_error_iff {r : Reader α} {f : α → Reader β} {buf : Bytes} {pos : Nat}
    {e : DecodeError} :
    (r >>= f) buf pos = .error e ↔
      r buf pos = .error e ∨ ∃ a mid, r buf pos = .ok (a, mid) ∧ f a buf mid = .error e := by
  rw [bind_apply]
  rcases h : r buf pos with e' | ⟨a, mid⟩
  · simp
  · simp [and_assoc]

/-- The next `n` octets. -/
def bytes (n : Nat) : Reader Bytes := fun buf pos =>
  if pos + n ≤ buf.size then .ok (buf.extract pos (pos + n), pos + n)
  else .error (.truncated pos n buf.size)

/-- The big-endian value of the octets `bs`. -/
def value (bs : Bytes) : Nat := bs.foldl (fun v o => v * 256 + o.toNat) 0

/-- The next octet. -/
def u8 : Reader UInt8 := do return UInt8.ofNat (value (← bytes 1))

/-- The next two octets as a number. -/
def u16 : Reader UInt16 := do return UInt16.ofNat (value (← bytes 2))

/-- The next four octets as a number. -/
def u32 : Reader UInt32 := do return UInt32.ofNat (value (← bytes 4))

/-- Reads `n` values one after the other, behind those in `acc`. -/
def timesFrom (r : Reader α) : Nat → Array α → Reader (Array α)
  | 0, acc => fun _ pos => .ok (acc, pos)
  | n + 1, acc => fun buf pos =>
      match r buf pos with
      | .ok (a, pos') => timesFrom r n (acc.push a) buf pos'
      | .error e => .error e

/-- Reads `n` values one after the other. -/
def times (r : Reader α) (n : Nat) : Reader (List α) := do return (← timesFrom r n #[]).toList

/-- Values read earlier stand in front and change nothing else. -/
theorem timesFrom_append (r : Reader α) (n : Nat) (acc acc' : Array α) (buf : Bytes) (pos : Nat) :
    timesFrom r n (acc ++ acc') buf pos =
      match timesFrom r n acc' buf pos with
      | .ok (as, pos') => .ok (acc ++ as, pos')
      | .error e => .error e := by
  induction n generalizing acc' pos with
  | zero => rfl
  | succ n ih =>
      simp only [timesFrom]
      rcases r buf pos with e | ⟨a, mid⟩
      · rfl
      · simpa using ih (acc'.push a) mid

theorem times_apply (r : Reader α) (n : Nat) (buf : Bytes) (pos : Nat) :
    times r n buf pos =
      match timesFrom r n #[] buf pos with
      | .ok (as, pos') => .ok (as.toList, pos')
      | .error e => .error e := by
  rw [times, bind_apply]
  rcases timesFrom r n #[] buf pos with e | ⟨as, stop⟩ <;> rfl

@[simp] theorem times_zero (r : Reader α) (buf : Bytes) (pos : Nat) :
    times r 0 buf pos = .ok ([], pos) := rfl

/-- Reading one more value reads a first one and then the others. -/
theorem times_succ (r : Reader α) (n : Nat) :
    times r (n + 1) = do
      let a ← r
      let as ← times r n
      return a :: as := by
  funext buf pos
  rw [times_apply, bind_apply]
  simp only [timesFrom, bind_apply, pure_apply, times_apply]
  rcases r buf pos with e | ⟨a, mid⟩
  · rfl
  · have h := timesFrom_append r n #[a] #[] buf mid
    rw [Array.append_empty] at h
    simp only [List.push_toArray, List.nil_append, h]
    rcases timesFrom r n #[] buf mid with e | ⟨as, stop⟩ <;> simp

end Reader

end DnsResponder
