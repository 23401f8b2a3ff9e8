import DnsResponder.Name.Basic
import DnsResponder.Registry

/-!
# Rules

A rule says what to answer to one question, and questions are matched exactly: the
same name label by label, the same type and the same class. The first rule that
matches counts, so of several rules for one question only the first is ever used.
-/

namespace DnsResponder

/-- What a rule answers. -/
inductive Response where
  /-- One record, with the given type, class and data. -/
  | found (type class_ : UInt16) (data : Bytes)
  /-- No record, and the given response code. -/
  | notFound (status : UInt8)
deriving DecidableEq

namespace Response

/-- The answer of a `-` rule. Its code is NOTIMP, which existing rule files rely on. -/
def refusal : Response := .notFound ResponseCode.notImp.code

/-- The response code of the reply. -/
def rcode : Response → UInt8
  | found .. => ResponseCode.noError.code
  | notFound status => status

end Response

/-- A rule: the question it is for, and what it answers. -/
structure Rule where
  name : Name
  type : UInt16
  class_ : UInt16
  response : Response
deriving DecidableEq

/-- Whether the rule is for the given question. -/
def Rule.Matches (r : Rule) (name : Name) (type class_ : UInt16) : Prop :=
  r.type = type ∧ r.class_ = class_ ∧ r.name = name

instance (r : Rule) (name : Name) (type class_ : UInt16) : Decidable (r.Matches name type class_) :=
  inferInstanceAs (Decidable (_ ∧ _ ∧ _))

/-- Rules in the order in which they were written. -/
structure RuleTable where
  rules : List Rule := []
deriving DecidableEq

namespace RuleTable

/-- The number of rules. -/
def size (t : RuleTable) : Nat := t.rules.length

/-- Whether there is no rule. -/
def isEmpty (t : RuleTable) : Bool := t.rules.isEmpty

/-- The first rule for the given question. -/
def find? (t : RuleTable) (name : Name) (type class_ : UInt16) : Option Rule :=
  t.rules.find? (·.Matches name type class_)

/-- Rules put behind others answer what those leave open. -/
theorem find?_append (rules more : List Rule) (name : Name) (type class_ : UInt16) :
    find? ⟨rules ++ more⟩ name type class_ =
      (find? ⟨rules⟩ name type class_).or (find? ⟨more⟩ name type class_) := by
  simp [find?, List.find?_append]

end RuleTable

end DnsResponder
