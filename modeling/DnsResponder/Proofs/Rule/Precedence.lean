import DnsResponder.Responder
import Mathlib.Data.List.Basic

/-!
# Which rules count

The first rule for a question settles the answer, so all that matters of a table is, for each
question, which of the rules for it comes first. A rule that stands behind another one for the
same question may be deleted, and rules for different questions may change places. Rules are
for the same question when name, type and class all agree, and a rule that shares only some of
the three with another is for a different question.

The rules for one question, in their order, are what a change of the table has to keep at its
head. Whoever looks rules up in another way has to keep it too.
-/

namespace DnsResponder

/-- The question that the rule is for. -/
def Rule.question (r : Rule) : Question := ⟨r.name, r.type, r.class_⟩

theorem Rule.matches_iff {r : Rule} {name : Name} {type class_ : UInt16} :
    r.Matches name type class_ ↔ r.question = ⟨name, type, class_⟩ := by
  unfold Rule.Matches Rule.question
  rw [Question.mk.injEq]
  constructor
  · intro h
    exact ⟨h.2.2, h.1, h.2.1⟩
  · intro h
    exact ⟨h.2.1, h.2.2, h.1⟩

namespace RuleTable

/-- The rules for a question, in the order of the table. -/
def about (rules : List Rule) (q : Question) : List Rule := rules.filter (·.question = q)

theorem about_cons_of_eq {r : Rule} {q : Question} (h : r.question = q) (rules : List Rule) :
    about (r :: rules) q = r :: about rules q :=
  List.filter_cons_of_pos (decide_eq_true h)

theorem about_cons_of_ne {r : Rule} {q : Question} (h : r.question ≠ q) (rules : List Rule) :
    about (r :: rules) q = about rules q :=
  List.filter_cons_of_neg (by simpa using h)

/-- The rule that is found for a question is the head of the rules for it. -/
theorem find?_eq_head?_about (rules : List Rule) (name : Name) (type class_ : UInt16) :
    find? ⟨rules⟩ name type class_ = (about rules ⟨name, type, class_⟩).head? := by
  unfold find? about
  rw [List.head?_filter]
  congr 1
  funext r
  exact decide_eq_decide.mpr Rule.matches_iff

/-! ## Deleting -/

/--
Some rules are deleted, and each of them stands behind a rule for the same question. The
questions in `seen` are those that have a rule in front of the list.
-/
inductive Thins : List Question → List Rule → List Rule → Prop where
  | nil {seen : List Question} : Thins seen [] []
  | keep {seen : List Question} {r : Rule} {rules kept : List Rule} :
      Thins (r.question :: seen) rules kept → Thins seen (r :: rules) (r :: kept)
  | delete {seen : List Question} {r : Rule} {rules kept : List Rule} :
      r.question ∈ seen → Thins seen rules kept → Thins seen (r :: rules) kept

/-- Where no rule stands in front of the list, the first rule for the question is kept. -/
theorem Thins.head?_about {seen : List Question} {rules kept : List Rule} {q : Question}
    (h : Thins seen rules kept) (hq : q ∉ seen) : (about kept q).head? = (about rules q).head? := by
  induction h with
  | nil => rfl
  | @keep seen r rules kept _ ih =>
      by_cases hr : r.question = q
      · rw [about_cons_of_eq hr, about_cons_of_eq hr]
        rfl
      · rw [about_cons_of_ne hr, about_cons_of_ne hr]
        refine ih fun hmem => ?_
        rcases List.mem_cons.mp hmem with heq | hmem
        · exact hr heq.symm
        · exact hq hmem
  | @delete seen r rules kept hr _ ih =>
      -- the deleted rule is for a question that was seen, and so not for this one
      have hne : r.question ≠ q := by
        intro heq
        exact hq (heq ▸ hr)
      rw [about_cons_of_ne hne]
      exact ih hq

/-! ## Reordering -/

/-- The same rules in another order, in which those for one question stand as they did. -/
structure Reordered (rules rules' : List Rule) : Prop where
  perm : rules.Perm rules'
  order : ∀ q, about rules q = about rules' q

/-- Two rules for different questions may change places. -/
theorem reordered_swap {r r' : Rule} (h : r.question ≠ r'.question) (rules : List Rule) :
    Reordered (r :: r' :: rules) (r' :: r :: rules) where
  perm := .swap r' r rules
  order q := by
    by_cases hr : r.question = q
    · have hr' : r'.question ≠ q := fun heq => h (hr.trans heq.symm)
      rw [about_cons_of_eq hr, about_cons_of_ne hr', about_cons_of_ne hr', about_cons_of_eq hr]
    · rw [about_cons_of_ne hr]
      by_cases hr' : r'.question = q
      · rw [about_cons_of_eq hr', about_cons_of_eq hr', about_cons_of_ne hr]
      · rw [about_cons_of_ne hr', about_cons_of_ne hr', about_cons_of_ne hr]

/-! ## Queries -/

/-- Tables in which the same rule is found for every question treat every query alike. -/
theorem execute_eq_of_find? {σ : Type} {t t' : RuleTable}
    (h : ∀ name type class_, t.find? name type class_ = t'.find? name type class_) (ttl : UInt32)
    (forward : Forwarder σ) (request : Request) (s : σ) :
    Responder.execute ⟨t, ttl⟩ forward request s = Responder.execute ⟨t', ttl⟩ forward request s := by
  unfold Responder.execute
  cases request.message.firstQuestion? with
  | none => rfl
  | some q =>
      dsimp only
      rw [h q.name q.type q.class_]
      rfl

/--
Rules behind one for the same question may be deleted, and what is left may be reordered as
long as the rules for one question keep their order: the same rule is found for every
question, and every query has the same outcome and is handed on or answered as before. In
lists put together, the second one answers what the first leaves open.
-/
theorem only_first_counts :
    (∀ rules kept reordered : List Rule, Thins [] rules kept → Reordered kept reordered →
      (∀ name type class_, find? ⟨reordered⟩ name type class_ = find? ⟨rules⟩ name type class_) ∧
      ∀ (σ : Type) (ttl : UInt32) (forward : Forwarder σ) (request : Request) (s : σ),
        Responder.execute ⟨⟨reordered⟩, ttl⟩ forward request s =
          Responder.execute ⟨⟨rules⟩, ttl⟩ forward request s) ∧
    ∀ (rules more : List Rule) (name : Name) (type class_ : UInt16),
      find? ⟨rules ++ more⟩ name type class_ =
        match find? ⟨rules⟩ name type class_ with
        | some r => some r
        | none => find? ⟨more⟩ name type class_ := by
  constructor
  · intro rules kept reordered hthins hreordered
    have hfind : ∀ name type class_,
        find? ⟨reordered⟩ name type class_ = find? ⟨rules⟩ name type class_ := by
      intro name type class_
      rw [find?_eq_head?_about, find?_eq_head?_about, ← hreordered.order]
      exact hthins.head?_about List.not_mem_nil
    exact ⟨hfind, fun σ => execute_eq_of_find? hfind⟩
  · intro rules more name type class_
    rw [find?_append]
    cases find? ⟨rules⟩ name type class_ with
    | none => rfl
    | some r => rfl

/-- A rule about the name with the one label `letter`. -/
def letterRule (letter : Char) (response : Response) : Rule :=
  { name := (Name.ofLabels [letter.toString]).toOption.getD .root, type := 1, class_ := 1, response }

theorem only_first_counts_letters :
    let a := letterRule 'a' (.found 1 1 #[10, 0, 0, 1])
    let again := letterRule 'a' (.found 1 1 #[10, 0, 0, 2])
    let refused := letterRule 'a' .refusal
    let b := letterRule 'b' .refusal
    Thins [] [a, again, b, refused] [a, b, refused] ∧
      Reordered [a, b, refused] [b, a, refused] ∧
      (∀ name type class_, find? ⟨[b, a, refused]⟩ name type class_ =
        find? ⟨[a, again, b, refused]⟩ name type class_) ∧
      find? ⟨[b, a, refused]⟩ a.name 1 1 = some a := by
  intro a again refused b
  have hthins : Thins [] [a, again, b, refused] [a, b, refused] :=
    .keep (.delete (by decide +kernel) (.keep (.keep .nil)))
  have hreordered : Reordered [a, b, refused] [b, a, refused] :=
    reordered_swap (by decide +kernel) [refused]
  have hfind := (only_first_counts.1 _ _ _ hthins hreordered).1
  have hfirst : find? ⟨[a, again, b, refused]⟩ a.name 1 1 = some a := by decide +kernel
  exact ⟨hthins, hreordered, hfind, (hfind a.name 1 1).trans hfirst⟩

end RuleTable

end DnsResponder
