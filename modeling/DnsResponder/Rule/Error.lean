import DnsResponder.Name.Basic
import DnsResponder.Rule.Token

/-!
# What can be wrong with rule source

Every complaint says at which byte of the source the trouble is and quotes what
stands there. Where the grammar allows alternatives and none of them fits, the
complaint is the list of what each one had to say.
-/

namespace DnsResponder

/-- The two registries that rule source refers to. -/
inductive RuleError.Category where
  | type | recordClass
deriving DecidableEq, Repr

/-- The name of a registry in reports. -/
def RuleError.Category.name : RuleError.Category → String
  | type => "type"
  | recordClass => "class"

/-- A complaint about rule source. Offsets are in bytes. -/
inductive RuleError where
  /-- A mnemonic that the registry lacks. -/
  | unknownMnemonic (category : RuleError.Category) (token : String) (offset : Nat)
  /-- A value that is no IPv4 address. -/
  | badIpv4 (literal : String) (offset : Nat)
  /-- A value for an IPv6 address, which rules cannot hold. -/
  | ipv6 (literal : String) (offset : Nat)
  /-- A record type that rules cannot answer with. -/
  | unusableType (mnemonic : String) (offset : Nat)
  /-- A piece of text that is no name. -/
  | badName (text : String) (cause : NameError) (offset : Nat)
  /-- A token of another kind than expected. -/
  | mismatch (expected found : Token.Kind) (text : String) (offset : Nat)
  /-- No alternative fits. -/
  | noAlternative (errors : List RuleError)
  /-- A repetition that stands still. -/
  | noProgress (offset : Nat)
  /-- Any other complaint. -/
  | custom (text : String)
deriving Inhabited

namespace RuleError

mutual

/-- The complaint in words. -/
def message : RuleError → String
  | unknownMnemonic category token offset =>
      s!"Unknown record {category.name} '{token}' at offset {offset}"
  | badIpv4 literal offset => s!"Malformed IPv4 address '{literal}' at offset {offset}"
  | ipv6 literal offset => s!"IPv6 address '{literal}' at offset {offset} is not supported"
  | unusableType mnemonic offset =>
      s!"Record type {mnemonic} at offset {offset} cannot be used in a response"
  | badName text cause offset => s!"Invalid name '{text}' at offset {offset}: {cause.message}"
  | mismatch expected found text offset =>
      s!"Expected {expected.name}, but got {found.name} '{text}' at offset {offset}"
  | noAlternative errors => "No alternative matched:" ++ bulleted errors
  | noProgress offset => s!"Parser made no progress at offset {offset}"
  | custom text => text

/-- Complaints in words, each on a line of its own. -/
def bulleted : List RuleError → String
  | [] => ""
  | e :: es => "\n  * " ++ e.message ++ bulleted es

end

mutual

/-- The complaints that are not lists of others, in order. -/
def leaves : RuleError → List RuleError
  | noAlternative errors => leavesOf errors
  | e => [e]

/-- The complaints in a list that are not lists of others, in order. -/
def leavesOf : List RuleError → List RuleError
  | [] => []
  | e :: es => e.leaves ++ leavesOf es

end

/-- Whether some complaint that is not a list of others satisfies `p`. -/
def any (p : RuleError → Bool) (e : RuleError) : Bool := e.leaves.any p

end RuleError

end DnsResponder
