import DnsResponder.Net.Ipv4

/-!
# Dotted quads

Reading an address accepts exactly what showing one produces. A number has one text,
because a text without a leading zero is what its own value is shown as, and the four
numbers are cut apart at the three dots that were put between them.
-/

namespace DnsResponder

namespace Decimal

theorem digitChar_digit {c : Char} (h : isDigit c) : (digit c).digitChar = c := by
  have hc : 48 ≤ c.toNat ∧ c.toNat ≤ 57 := by simpa [isDigit] using h
  have hall : ∀ n < 58, 48 ≤ n → (n - 48).digitChar = Char.ofNat n := by decide
  unfold digit
  rw [hall c.toNat (by omega) hc.1, Char.ofNat_toNat]

theorem digit_lt {c : Char} (h : isDigit c) : digit c < 10 := by
  have hc : 48 ≤ c.toNat ∧ c.toNat ≤ 57 := by simpa [isDigit] using h
  unfold digit
  omega

/-- Digits behind a number that is not zero are shown behind it. -/
theorem toDigits_append {cs : List Char} (hcs : ∀ c ∈ cs, isDigit c) :
    ∀ {n : Nat}, 0 < n →
      Nat.toDigits 10 n ++ cs = Nat.toDigits 10 (cs.foldl (fun n c => n * 10 + digit c) n) := by
  induction cs with
  | nil => intro n _; simp
  | cons c cs ih =>
      intro n hn
      have hc : isDigit c := hcs c (by simp)
      have hstep := Nat.toDigits_append_toDigits (b := 10) (by decide) hn (digit_lt hc)
      rw [Nat.toDigits_of_lt_base (digit_lt hc), digitChar_digit hc, Nat.mul_comm] at hstep
      rw [List.foldl_cons, ← ih (fun d hd => hcs d (by simp [hd])) (by omega), ← hstep,
        List.append_assoc, List.singleton_append]

/-- A canonical text is what its value is shown as. -/
theorem toDigits_value {cs : List Char} (h : IsCanonical cs) : Nat.toDigits 10 (value cs) = cs := by
  obtain ⟨hne, -, hdigits, hzero⟩ := h
  obtain ⟨c, cs, rfl⟩ := List.exists_cons_of_ne_nil hne
  have hc : isDigit c := hdigits c (by simp)
  have hfirst : Nat.toDigits 10 (digit c) = [c] := by
    rw [Nat.toDigits_of_lt_base (digit_lt hc), digitChar_digit hc]
  unfold value
  rw [List.foldl_cons, Nat.zero_mul, Nat.zero_add]
  by_cases h0 : c = '0'
  · -- a zero in front is all there is
    have hlen : (c :: cs).length = 1 := hzero (by rw [h0]; rfl)
    have hnil : cs = [] := List.length_eq_zero_iff.mp (Nat.succ.inj hlen)
    rw [hnil, List.foldl_nil, hfirst]
  · -- the digit in front counts, and the others are shown behind it
    have hpos : 0 < digit c := by
      have hchar := digitChar_digit hc
      rcases Nat.eq_zero_or_pos (digit c) with hz | hz
      · rw [hz] at hchar
        exact absurd hchar.symm h0
      · exact hz
    rw [← toDigits_append (fun d hd => hdigits d (by simp [hd])) hpos, hfirst,
      List.singleton_append]

/-- The text of a number up to 255 is canonical, and the number is its value. -/
theorem isCanonical_toDigits {n : Nat} (h : n < 256) :
    IsCanonical (Nat.toDigits 10 n) ∧ value (Nat.toDigits 10 n) = n := by
  -- there are few enough numbers to try each
  have hall : (List.range 256).all fun n =>
      let cs := Nat.toDigits 10 n
      cs ≠ [] ∧ cs.length ≤ 3 ∧ cs.all isDigit ∧ (cs.head? = some '0' → cs.length = 1) ∧
        value cs = n := by decide +kernel
  have hn := of_decide_eq_true (List.all_eq_true.mp hall n (List.mem_range.mpr h))
  obtain ⟨hne, hlen, hdigits, hzero, hvalue⟩ := hn
  exact ⟨⟨hne, hlen, List.all_eq_true.mp hdigits, hzero⟩, hvalue⟩

theorem octet?_toDigits (o : UInt8) : octet? (Nat.toDigits 10 o.toNat) = some o := by
  obtain ⟨hcanonical, hvalue⟩ := isCanonical_toDigits o.toNat_lt
  have hle : value (Nat.toDigits 10 o.toNat) ≤ 255 := by
    rw [hvalue]
    exact Nat.le_of_lt_succ o.toNat_lt
  unfold octet?
  rw [if_pos ⟨hcanonical, hle⟩, hvalue, UInt8.ofNat_toNat]

theorem octet?_eq_some_iff {cs : List Char} {o : UInt8} :
    octet? cs = some o ↔ cs = Nat.toDigits 10 o.toNat := by
  refine ⟨fun h => ?_, fun h => ?_⟩
  · unfold octet? at h
    split at h
    · rename_i hcs
      obtain ⟨hcanonical, hle⟩ := hcs
      cases h
      rw [UInt8.toNat_ofNat_of_lt' (Nat.lt_succ_of_le hle), toDigits_value hcanonical]
    · cases h
  · subst h
    exact octet?_toDigits o

theorem dot_not_mem_toDigits (n : Nat) : '.' ∉ Nat.toDigits 10 n := by
  intro h
  have := Nat.isDigit_of_mem_toDigits (by decide) (by decide) h
  exact absurd this (by decide)

end Decimal

namespace Ipv4

/-- The four numbers of an address, as they are written. -/
def parts (x : Ipv4) : List (List Char) :=
  [x.a, x.b, x.c, x.d].map fun o => Nat.toDigits 10 o.toNat

/-- An address is shown as its four numbers with dots between them. -/
theorem toList_text (x : Ipv4) : x.text.toList = Dotted.join x.parts := by
  simp [text, parts, Dotted.join, String.toList_append, ToString.toString, Nat.toList_repr]

/-- The text of an address is cut into its four numbers. -/
theorem pieces_text (x : Ipv4) : Dotted.pieces x.text.toList = x.parts := by
  rw [toList_text]
  refine Dotted.pieces_join (by simp [parts]) ?_
  intro p hp
  obtain ⟨o, -, rfl⟩ := List.mem_map.mp hp
  exact Decimal.dot_not_mem_toDigits o.toNat

/-- Exactly the text of an address is read as that address. -/
theorem ofChars?_eq_some_iff {cs : List Char} {x : Ipv4} :
    ofChars? cs = some x ↔ cs = x.text.toList := by
  refine ⟨fun h => ?_, fun h => ?_⟩
  · unfold ofChars? at h
    split at h
    · rename_i a b c d hpieces
      simp only [Option.bind_eq_bind, Option.bind_eq_some_iff, Decimal.octet?_eq_some_iff] at h
      obtain ⟨oa, ha, ob, hb, oc, hc, od, hd, h⟩ := h
      cases h
      rw [← Dotted.join_pieces cs, hpieces, toList_text, ha, hb, hc, hd]
      rfl
    · cases h
  · subst h
    unfold ofChars?
    rw [pieces_text]
    simp [parts, Decimal.octet?_toDigits]

end Ipv4

end DnsResponder
