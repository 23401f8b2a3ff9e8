/-!
# Octets and text

Two kinds of string meet in a DNS responder. What travels is a sequence of
octets; what people write in rule and configuration files is Unicode text, whose
places are counted in UTF-8 bytes so that a message such as "at offset 14" can be
checked with any editor. This module holds the little that both sides need: the
byte length of a piece of text, and the ASCII characters, which are exactly the
ones that stand for one octet each.
-/

namespace DnsResponder

/-- A sequence of octets: a datagram, the data of a record, a rule value. -/
abbrev Bytes := Array UInt8

namespace Text

/-- The number of bytes that `cs` takes up in UTF-8. -/
def utf8Length (cs : List Char) : Nat := cs.foldr (fun c n => c.utf8Size + n) 0

@[simp] theorem utf8Length_nil : utf8Length [] = 0 := rfl

@[simp] theorem utf8Length_cons (c : Char) (cs : List Char) :
    utf8Length (c :: cs) = c.utf8Size + utf8Length cs := rfl

@[simp] theorem utf8Length_append (cs ds : List Char) :
    utf8Length (cs ++ ds) = utf8Length cs + utf8Length ds := by
  induction cs with
  | nil => simp
  | cons c cs ih => rw [List.cons_append, utf8Length_cons, utf8Length_cons, ih, Nat.add_assoc]

/-- Every character takes at least one byte. -/
theorem length_le_utf8Length (cs : List Char) : cs.length ≤ utf8Length cs := by
  induction cs with
  | nil => simp
  | cons c cs ih =>
      have := Char.utf8Size_pos c
      simp only [List.length_cons, utf8Length_cons]
      omega

/-- A character is ASCII when its code point fits in seven bits. -/
def IsAscii (c : Char) : Prop := c.toNat < 128

instance (c : Char) : Decidable (IsAscii c) := inferInstanceAs (Decidable (c.toNat < 128))

/-- The octet that stands for an ASCII character. -/
def octet (c : Char) : UInt8 := UInt8.ofNat c.toNat

/-- The character that an octet stands for. -/
def char (o : UInt8) : Char := Char.ofNat o.toNat

theorem octet_lt {c : Char} (h : IsAscii c) : octet c < 128 := by
  have hc : c.toNat < 128 := h
  rw [UInt8.lt_iff_toNat_lt, octet, UInt8.toNat_ofNat']
  show c.toNat % 256 < 128
  omega

theorem char_octet {c : Char} (h : IsAscii c) : char (octet c) = c := by
  have hc : c.toNat < 128 := h
  rw [char, octet, UInt8.toNat_ofNat', Nat.mod_eq_of_lt (by omega), Char.ofNat_toNat]

theorem toNat_char (o : UInt8) : (char o).toNat = o.toNat := by
  have := o.toNat_lt
  have hv : o.toNat.isValidChar := Or.inl (by omega)
  rw [char, Char.ofNat, dif_pos hv]
  rfl

theorem octet_char (o : UInt8) : octet (char o) = o := by
  rw [octet, toNat_char, UInt8.ofNat_toNat]

/-- An octet below 128 stands for an ASCII character. -/
theorem isAscii_char {o : UInt8} (h : o < 128) : IsAscii (char o) := by
  show (char o).toNat < 128
  rw [toNat_char]
  exact UInt8.lt_iff_toNat_lt.mp h

/-- ASCII text has as many bytes as characters. -/
theorem utf8Length_of_isAscii {cs : List Char} (h : ∀ c ∈ cs, IsAscii c) :
    utf8Length cs = cs.length := by
  induction cs with
  | nil => rfl
  | cons c cs ih =>
      have hc : c.toNat < 128 := h c (by simp)
      have hsize : c.utf8Size = 1 := by
        unfold Char.utf8Size
        rw [if_pos]
        show c.val.toNat ≤ 127
        exact Nat.le_of_lt_succ hc
      rw [utf8Length_cons, hsize, ih fun d hd => h d (by simp [hd]), List.length_cons]
      omega

/-- The upper-case hexadecimal digit for a value below sixteen. -/
def hexDigit (n : Nat) : Char := if n < 10 then Char.ofNat (48 + n) else Char.ofNat (55 + n)

/-- The value of a hexadecimal digit of either case. -/
def hexValue? (c : Char) : Option Nat :=
  let n := c.toNat
  if 48 ≤ n ∧ n ≤ 57 then some (n - 48)
  else if 97 ≤ n ∧ n ≤ 102 then some (n - 87)
  else if 65 ≤ n ∧ n ≤ 70 then some (n - 55)
  else none

/-- An octet as two upper-case hexadecimal digits. -/
def hex (o : UInt8) : String := String.ofList [hexDigit (o.toNat / 16), hexDigit (o.toNat % 16)]

end Text

end DnsResponder
