import DnsResponder.Text

/-!
# Domain names

A name is a sequence of labels, most specific first, and the root is the empty
sequence. The wire format sets three limits: a label holds 1 to 63 octets, every
octet of it is ASCII, and a whole name takes up at most 255 octets when each
label is preceded by a length octet and the name is closed by a zero.

The limits live in the types. A `Label` cannot be empty, too long or foreign, a
`Name` cannot outgrow the wire, and so whoever writes a name out never has to ask
whether a length octet might be mistaken for a terminator or a pointer. What can
go wrong goes wrong once, when a name is built, and is a `NameError`.

Labels are octets and are compared octet by octet: `Example.COM` and
`example.com` are different names, and so are the two labels `a`, `b` and the one
label `a.b`, although both are shown as `a.b`.
-/

namespace DnsResponder

/-- The most octets that one label holds. -/
def maxLabelLength : Nat := 63

/-- The most octets that a name takes up on the wire, terminator included. -/
def maxNameLength : Nat := 255

/-- Why a piece of text or a sequence of labels is no name. -/
inductive NameError where
  /-- A label has no characters. -/
  | emptyLabel
  /-- A label is longer than 63 bytes. -/
  | longLabel (label : String)
  /-- A label holds a character outside ASCII. -/
  | foreignLabel (label : String)
  /-- The whole name does not fit into 255 octets. -/
  | longName
  /-- Dotted text failed for the given cause. -/
  | inText (text : String) (cause : NameError)
deriving DecidableEq, Repr

/-- What is wrong, in words. -/
def NameError.reason : NameError → String
  | emptyLabel => "empty label inside name"
  | longLabel label =>
      s!"label '{label}' is {Text.utf8Length label.toList} bytes, limit is {maxLabelLength}"
  | foreignLabel label => s!"label '{label}' is not ASCII"
  | longName => s!"name exceeds {maxNameLength} bytes on the wire"
  | inText text cause => s!"'{text}': {cause.reason}"

/-- The full report about a name. -/
def NameError.message (e : NameError) : String := s!"Invalid domain name: {e.reason}"

/-- One label of a name. -/
structure Label where
  octets : List UInt8
  octets_ne : octets ≠ []
  length_le : octets.length ≤ maxLabelLength
  ascii : ∀ o ∈ octets, o < 128
deriving DecidableEq

namespace Label

/-- The number of octets in the label. -/
def length (l : Label) : Nat := l.octets.length

theorem length_pos (l : Label) : 0 < l.length := List.length_pos_iff.mpr l.octets_ne

/-- The label as characters, one for each octet. -/
def chars (l : Label) : List Char := l.octets.map Text.char

/-- The label as text. -/
def text (l : Label) : String := String.ofList l.chars

/-- Reads octets as a label, if they are one. -/
def ofOctets? (octets : List UInt8) : Option Label :=
  if h : octets ≠ [] ∧ octets.length ≤ maxLabelLength ∧ octets.all (· < 128) then
    some ⟨octets, h.1, h.2.1, by simpa using h.2.2⟩
  else
    none

/-- ASCII characters within the limits make a label. -/
def ofAscii (cs : List Char) (hne : cs ≠ []) (hlen : Text.utf8Length cs ≤ maxLabelLength)
    (hascii : ∀ c ∈ cs, Text.IsAscii c) : Label where
  octets := cs.map Text.octet
  octets_ne := by simpa using hne
  length_le := by
    rw [List.length_map]
    exact Nat.le_trans (Text.length_le_utf8Length cs) hlen
  ascii := by
    intro o ho
    obtain ⟨c, hc, rfl⟩ := List.mem_map.mp ho
    exact Text.octet_lt (hascii c hc)

/-- Reads text as a label. An empty label is reported first, then a long one, then a foreign one. -/
def ofText (text : String) : Except NameError Label :=
  let cs := text.toList
  if hne : cs = [] then .error .emptyLabel
  else if hlen : maxLabelLength < Text.utf8Length cs then .error (.longLabel text)
  else if hascii : cs.all (Text.IsAscii ·) then
    .ok (ofAscii cs hne (Nat.le_of_not_lt hlen) (by simpa using hascii))
  else .error (.foreignLabel text)

end Label

/-- The octets that `labels` take up on the wire: a length octet for each, and the terminator. -/
def wireLength (labels : List Label) : Nat := labels.foldr (fun l n => l.length + 1 + n) 1

@[simp] theorem wireLength_nil : wireLength [] = 1 := rfl

@[simp] theorem wireLength_cons (l : Label) (ls : List Label) :
    wireLength (l :: ls) = l.length + 1 + wireLength ls := rfl

@[simp] theorem wireLength_concat (ls : List Label) (l : Label) :
    wireLength (ls ++ [l]) = wireLength ls + l.length + 1 := by
  induction ls with
  | nil => simp only [List.nil_append, wireLength_cons, wireLength_nil]; omega
  | cons k ls ih =>
      rw [List.cons_append, wireLength_cons, wireLength_cons, ih]
      omega

/-- A domain name. -/
structure Name where
  labels : List Label
  fits : wireLength labels ≤ maxNameLength
deriving DecidableEq

namespace Name

/-- The root, which has no labels. -/
def root : Name := ⟨[], by decide⟩

instance : Inhabited Name := ⟨root⟩

/-- Whether the name is the root. -/
def isRoot (n : Name) : Bool := n.labels.isEmpty

/-- The octets that the name takes up on the wire when written in full. -/
def wireLength (n : Name) : Nat := DnsResponder.wireLength n.labels

/-- Adds a label at the end, where the name still fits. -/
def push (n : Name) (l : Label) : Except NameError Name :=
  if h : n.wireLength + l.length + 1 ≤ maxNameLength then
    .ok ⟨n.labels ++ [l], by rw [wireLength_concat]; exact h⟩
  else
    .error .longName

/--
Adds a label given as text to the name at hand. What is wrong with the label itself is reported
first, and the name changes last, when nothing is left that could go wrong.
-/
def add (text : String) : EStateM NameError Name Unit := do
  let label ← ofExcept (Label.ofText text)
  let longer ← ofExcept ((← get).push label)
  set longer

/-- The name with a label added that is given as text. -/
def pushText (n : Name) (text : String) : Except NameError Name :=
  match (add text).run n with
  | .ok _ m => .ok m
  | .error e _ => .error e

/-- The name that is left when a label was to be added, whether it was or not. -/
def tryPush (n : Name) (text : String) : Name :=
  match (add text).run n with
  | .ok _ m => m
  | .error _ m => m

/-- The name with the given labels, each of which may hold dots. -/
def ofLabels (texts : List String) : Except NameError Name := texts.foldlM pushText root

theorem push_eq_ok {n m : Name} {l : Label} (h : n.push l = .ok m) :
    m.labels = n.labels ++ [l] := by
  unfold push at h
  split at h
  · cases h; rfl
  · cases h

/-- A refused label is refused for the length of the name alone. -/
theorem push_eq_error_iff {n : Name} {l : Label} {e : NameError} :
    n.push l = .error e ↔ e = .longName ∧ maxNameLength < n.wireLength + l.length + 1 := by
  unfold push
  split
  · simp; omega
  · simp; constructor
    · rintro rfl; exact ⟨rfl, by omega⟩
    · exact fun h => h.1.symm

/-- A label is added behind the others, or the name is left as it was. -/
theorem run_add (n : Name) (text : String) :
    (add text).run n =
      match Label.ofText text >>= n.push with
      | .ok m => .ok () m
      | .error e => .error e n := by
  unfold add
  cases Label.ofText text with
  | error e => rfl
  | ok label =>
      change (ofExcept (n.push label) >>= set : EStateM NameError Name Unit).run n =
        match n.push label with
        | .ok m => .ok () m
        | .error e => .error e n
      cases n.push label with
      | error e => rfl
      | ok m => rfl

theorem pushText_eq (n : Name) (text : String) : n.pushText text = Label.ofText text >>= n.push := by
  unfold pushText
  rw [run_add]
  cases Label.ofText text >>= n.push with
  | error e => rfl
  | ok m => rfl

theorem tryPush_of_ok {n m : Name} {text : String} (h : n.pushText text = .ok m) :
    n.tryPush text = m := by
  unfold tryPush
  rw [run_add, ← pushText_eq, h]

/-- A label that is refused leaves the name as it was. -/
theorem tryPush_of_error {n : Name} {text : String} {e : NameError} (h : n.pushText text = .error e) :
    n.tryPush text = n := by
  unfold tryPush
  rw [run_add, ← pushText_eq, h]

/-- A name has at most 127 labels, since each takes at least two octets. -/
theorem length_labels_le (n : Name) : n.labels.length ≤ 127 := by
  have key : ∀ ls : List Label, 2 * ls.length + 1 ≤ DnsResponder.wireLength ls := by
    intro ls
    induction ls with
    | nil => simp
    | cons l ls ih =>
        have := l.length_pos
        simp only [wireLength_cons, List.length_cons]
        omega
  have h1 := key n.labels
  have h2 : DnsResponder.wireLength n.labels ≤ 255 := n.fits
  omega

end Name

end DnsResponder
