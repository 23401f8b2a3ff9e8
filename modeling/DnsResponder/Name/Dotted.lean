import DnsResponder.Name.Basic

/-!
# Dotted text

People write a name as its labels with dots between them. One dot at the very end
is allowed and means nothing, so `example.com` and `example.com.` are one name,
and both the empty text and `.` are the root.

Reading cuts at every dot, so a label read from text never holds one. A label
that came over the wire may, and then the shown name cannot be read back: showing
loses nothing else.
-/

namespace DnsResponder

namespace Dotted

/-- The text without one closing dot, if it has one. -/
def dropClosingDot (cs : List Char) : List Char :=
  if cs.getLast? = some '.' then cs.dropLast else cs

/-- Puts a character in front of pieces: a dot opens a new piece, all else joins the first. -/
def cut (c : Char) : List (List Char) → List (List Char)
  | [] => [[c]]
  | p :: ps => if c = '.' then [] :: p :: ps else (c :: p) :: ps

/-- The pieces between the dots of a piece of text; text without a dot is one piece. -/
def pieces (cs : List Char) : List (List Char) := cs.foldr cut [[]]

@[simp] theorem pieces_nil : pieces [] = [[]] := rfl

@[simp] theorem pieces_cons (c : Char) (cs : List Char) : pieces (c :: cs) = cut c (pieces cs) := rfl

/-- Pieces put together with a dot between each two. -/
def join : List (List Char) → List Char
  | [] => []
  | [p] => p
  | p :: q :: ps => p ++ '.' :: join (q :: ps)

theorem pieces_ne_nil (cs : List Char) : pieces cs ≠ [] := by
  cases cs with
  | nil => simp
  | cons c cs =>
      rw [pieces_cons]
      unfold cut
      split
      · simp
      · split <;> simp

/-- A dot opens a new piece. -/
theorem pieces_dot (cs : List Char) : pieces ('.' :: cs) = [] :: pieces cs := by
  obtain ⟨p, ps, h⟩ := List.exists_cons_of_ne_nil (pieces_ne_nil cs)
  rw [pieces_cons, h, cut, if_pos rfl]

/-- Any other character joins the first piece. -/
theorem pieces_of_ne {c : Char} {cs p : List Char} {ps : List (List Char)} (hc : c ≠ '.')
    (h : pieces cs = p :: ps) : pieces (c :: cs) = (c :: p) :: ps := by
  rw [pieces_cons, h, cut, if_neg hc]

/-- Cutting loses nothing. -/
theorem join_pieces (cs : List Char) : join (pieces cs) = cs := by
  induction cs with
  | nil => rfl
  | cons c cs ih =>
      obtain ⟨p, ps, h⟩ := List.exists_cons_of_ne_nil (pieces_ne_nil cs)
      rw [h] at ih
      by_cases hc : c = '.'
      · rw [hc, pieces_dot, h, join, ih]
        rfl
      · rw [pieces_of_ne hc h]
        cases ps with
        | nil => simpa [join] using ih
        | cons q qs => simpa [join] using ih

/-- No piece holds a dot. -/
theorem not_mem_of_mem_pieces {cs p : List Char} (h : p ∈ pieces cs) : '.' ∉ p := by
  induction cs generalizing p with
  | nil =>
      simp only [pieces_nil, List.mem_singleton] at h
      simp [h]
  | cons c cs ih =>
      obtain ⟨q, qs, hq⟩ := List.exists_cons_of_ne_nil (pieces_ne_nil cs)
      by_cases hc : c = '.'
      · rw [hc, pieces_dot] at h
        rcases List.mem_cons.mp h with rfl | h
        · simp
        · exact ih h
      · rw [pieces_of_ne hc hq] at h
        rcases List.mem_cons.mp h with rfl | h
        · simp only [List.mem_cons, not_or]
          exact ⟨Ne.symm hc, ih (by simp [hq])⟩
        · exact ih (by simp [hq, h])

/-- Pieces without dots are cut apart again where they were joined. -/
theorem pieces_join {ps : List (List Char)} (hne : ps ≠ []) (hdot : ∀ p ∈ ps, '.' ∉ p) :
    pieces (join ps) = ps := by
  have single : ∀ p : List Char, '.' ∉ p → pieces p = [p] := by
    intro p hp
    induction p with
    | nil => rfl
    | cons c p ih =>
        simp only [List.mem_cons, not_or] at hp
        exact pieces_of_ne (Ne.symm hp.1) (ih hp.2)
  have first : ∀ (p rest : List Char), '.' ∉ p → pieces (p ++ '.' :: rest) = p :: pieces rest := by
    intro p rest hp
    induction p with
    | nil => exact pieces_dot rest
    | cons c p ih =>
        simp only [List.mem_cons, not_or] at hp
        exact pieces_of_ne (Ne.symm hp.1) (ih hp.2)
  induction ps with
  | nil => exact absurd rfl hne
  | cons p ps ih =>
      cases ps with
      | nil => exact single p (hdot p (by simp))
      | cons q qs =>
          rw [join, first p _ (hdot p (by simp)), ih (by simp) fun r hr => hdot r (by simp [hr])]

end Dotted

namespace Name

/-- The name in dotted form, as characters. -/
def chars (n : Name) : List Char :=
  if n.labels = [] then ['.'] else Dotted.join (n.labels.map Label.chars)

/-- The name in dotted form; the root is a single dot. -/
def text (n : Name) : String := String.ofList n.chars

/-- Reads dotted text. An error names the whole text as it was given. -/
def ofText (text : String) : Except NameError Name :=
  match Dotted.dropClosingDot text.toList with
  | [] => .ok root
  | body => (ofLabels ((Dotted.pieces body).map String.ofList)).mapError (.inText text)

end Name

instance : ToString Name := ⟨Name.text⟩

end DnsResponder
