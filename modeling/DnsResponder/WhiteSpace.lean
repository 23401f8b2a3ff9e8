/-!
# White space

The characters that Unicode counts as white space. There are twenty-five of them, six
of which are ASCII characters; the zero-width space is none.
-/

namespace DnsResponder

namespace Text

/-- Whether `c` has the Unicode property `White_Space`. -/
def isWhiteSpace (c : Char) : Bool :=
  let n := c.toNat
  decide (9 ≤ n ∧ n ≤ 13) || n == 0x20 || n == 0x85 || n == 0xA0 || n == 0x1680 ||
    decide (0x2000 ≤ n ∧ n ≤ 0x200A) || n == 0x2028 || n == 0x2029 || n == 0x202F || n == 0x205F ||
    n == 0x3000

/-- Whether a text holds nothing that can be seen in it. -/
def isBlankText (text : String) : Bool := text.toList.all isWhiteSpace

end Text

end DnsResponder
