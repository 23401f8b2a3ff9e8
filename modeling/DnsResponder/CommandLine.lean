import DnsResponder.Config.Basic
import DnsResponder.Decimal

/-!
# The command line

The arguments are options and nothing else. An option is named by two dashes and a
word, or by one dash and a letter. Its value is the next argument, or follows an equals
sign in the same argument, or follows the letter directly. The next argument is no
value if it looks like an option, which every argument does that starts with a dash and
goes on. An option is given at most once.

Arguments are read from the left. Asking for the version or for help ends the reading,
so what stands behind it may be anything, and what stands in front of it may not.
-/

namespace DnsResponder

namespace CommandLine

/-- The options. -/
inductive Flag where
  | config | number | address | rules | resolver | level | check | version | help
deriving DecidableEq, Repr

/-- The word that names an option. -/
def Flag.word : Flag → String
  | config => "config"
  | number => "dns-port"
  | address => "bind"
  | rules => "rules"
  | resolver => "upstream"
  | level => "log-level"
  | check => "check"
  | version => "version"
  | help => "help"

/-- The letter that names an option, if it has one. -/
def Flag.letter? : Flag → Option Char
  | config => some 'c'
  | number => some 'd'
  | address => some 'b'
  | rules => some 'r'
  | resolver => some 'u'
  | level => none
  | check => none
  | version => some 'V'
  | help => some 'h'

/-- All options. -/
def Flag.all : List Flag :=
  [config, number, address, rules, resolver, level, check, version, help]

/-- Whether an option has a value. -/
def Flag.hasValue : Flag → Bool
  | check | version | help => false
  | _ => true

/-- The option with the given word. -/
def Flag.ofWord? (word : List Char) : Option Flag := all.find? fun f => f.word.toList = word

/-- The option with the given letter. -/
def Flag.ofLetter? (c : Char) : Option Flag := all.find? fun f => f.letter? = some c

/-- What can be wrong with the arguments. -/
inductive UsageError where
  | unexpected (argument : String)
  | missingValue (f : Flag)
  | needlessValue (f : Flag)
  | repeated (f : Flag)
  | badNumber (f : Flag) (text : String)
deriving DecidableEq, Repr

/-- What is wrong, in words. -/
def UsageError.message : UsageError → String
  | unexpected argument => s!"unexpected argument '{argument}' found"
  | missingValue f => s!"a value is required for '--{f.word}' but none was supplied"
  | needlessValue f => s!"unexpected value for '--{f.word}' found; no more were expected"
  | repeated f => s!"the argument '--{f.word}' cannot be used multiple times"
  | badNumber f text => s!"invalid value '{text}' for '--{f.word}'"

/-- What the responder is to do. -/
structure Options where
  config? : Option String := none
  overrides : Overrides := {}
  /-- Whether to report on the rules only. -/
  check : Bool := false
deriving DecidableEq, Repr

/-- What the arguments ask for. -/
inductive Intent where
  | run (o : Options)
  | version
  | help
deriving DecidableEq, Repr

/-- Reads the number of a socket. A sign is allowed. -/
def number? (text : String) : Option UInt16 :=
  let (negative, digits) := match text.toList with
    | '-' :: cs => (true, cs)
    | '+' :: cs => (false, cs)
    | cs => (false, cs)
  let n := Decimal.value digits
  if digits ≠ [] ∧ digits.all Decimal.isDigit ∧ n < 65536 ∧ (negative → n = 0) then some (UInt16.ofNat n)
  else none

/-- Puts a value where none may be yet. -/
def once {α : Type} (f : Flag) (old : Option α) (new : α) : Except UsageError (Option α) :=
  match old with
  | some _ => .error (.repeated f)
  | none => .ok (some new)

/-- The options with one more, which has a value. -/
def Options.set (o : Options) (f : Flag) (value : String) : Except UsageError Options :=
  let v := o.overrides
  match f with
  | .config => (once f o.config? value).map fun x => { o with config? := x }
  | .number =>
      match number? value with
      | none => .error (.badNumber f value)
      | some n => (once f v.number? n).map fun x => { o with overrides := { v with number? := x } }
  | .address =>
      (once f v.address? value).map fun x => { o with overrides := { v with address? := x } }
  | .rules => (once f v.rules? value).map fun x => { o with overrides := { v with rules? := x } }
  | .resolver =>
      (once f v.resolver? value).map fun x => { o with overrides := { v with resolver? := x } }
  | .level => (once f v.level? value).map fun x => { o with overrides := { v with level? := x } }
  | .check | .version | .help => .error (.needlessValue f)

/-- The options that ask for a report on the rules. -/
def Options.setCheck (o : Options) : Except UsageError Options :=
  if o.check then .error (.repeated .check) else .ok { o with check := true }

/-- An argument by its looks. -/
inductive Shape where
  /-- An option, perhaps with a value in the same argument. -/
  | option (f : Flag) (attached : Option String)
  /-- Two dashes: no option follows. -/
  | stop
  | other
deriving DecidableEq, Repr

/-- Whether an argument looks like an option. -/
def looksLikeOption (argument : String) : Bool :=
  match argument.toList with
  | '-' :: _ :: _ => true
  | _ => false

/-- The value behind an equals sign. -/
def attached? : List Char → Option String
  | '=' :: cs => some (String.ofList cs)
  | _ => none

/-- The looks of an argument. -/
def shape (argument : String) : Shape :=
  match argument.toList with
  | ['-', '-'] => .stop
  | '-' :: '-' :: cs =>
      let word := cs.takeWhile (· != '=')
      match Flag.ofWord? word with
      | some f => .option f (attached? (cs.drop word.length))
      | none => .other
  | '-' :: c :: cs =>
      match Flag.ofLetter? c with
      | none => .other
      | some f =>
          if f.hasValue then
            .option f ((attached? cs).or (if cs = [] then none else some (String.ofList cs)))
          else .option f none
  | _ => .other

/-- Reads the arguments that are left, where `o` is what those before them ask for. -/
def readFrom (o : Options) : List String → Except UsageError Intent
  | [] => .ok (.run o)
  | argument :: rest =>
      match shape argument with
      | .other => .error (.unexpected argument)
      | .stop =>
          match rest with
          | [] => .ok (.run o)
          | next :: _ => .error (.unexpected next)
      | .option f (some value) =>
          match o.set f value with
          | .error e => .error e
          | .ok o => readFrom o rest
      | .option .version none => .ok .version
      | .option .help none => .ok .help
      | .option .check none =>
          match o.setCheck with
          | .error e => .error e
          | .ok o => readFrom o rest
      | .option f none =>
          match rest with
          | [] => .error (.missingValue f)
          | value :: rest =>
              if looksLikeOption value then .error (.missingValue f)
              else
                match o.set f value with
                | .error e => .error e
                | .ok o => readFrom o rest

/-- Reads the arguments. -/
def read (arguments : List String) : Except UsageError Intent := readFrom {} arguments

end CommandLine

end DnsResponder
