/-!
# Decimal numbers in text

The ten digits and what a row of them stands for. Where a format admits only one text
for a number, that text is the canonical one: no sign and no leading zero.
-/

namespace DnsResponder

namespace Decimal

/-- Whether `c` is one of the ten decimal digits. -/
def isDigit (c : Char) : Bool := decide (48 ≤ c.toNat ∧ c.toNat ≤ 57)

/-- The value of a decimal digit. -/
def digit (c : Char) : Nat := c.toNat - 48

/-- The number that a row of decimal digits stands for. -/
def value (cs : List Char) : Nat := cs.foldl (fun n c => n * 10 + digit c) 0

/-- Whether `cs` is how a number below 1000 is written: one to three digits, no leading zero. -/
def IsCanonical (cs : List Char) : Prop :=
  cs ≠ [] ∧ cs.length ≤ 3 ∧ (∀ c ∈ cs, isDigit c) ∧ (cs.head? = some '0' → cs.length = 1)

instance (cs : List Char) : Decidable (IsCanonical cs) :=
  inferInstanceAs (Decidable (_ ∧ _ ∧ _ ∧ _))

/-- Reads the one text of a number up to 255. -/
def octet? (cs : List Char) : Option UInt8 :=
  if IsCanonical cs ∧ value cs ≤ 255 then some (UInt8.ofNat (value cs)) else none

end Decimal

end DnsResponder
