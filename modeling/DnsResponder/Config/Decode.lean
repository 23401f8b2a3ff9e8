import DnsResponder.Config.Basic
import DnsResponder.Toml.Document

/-!
# Configuration in TOML

Each group of settings is a table. A setting that is missing keeps its value, and a
key that means nothing here is passed over. A group may also be an array that gives
its settings in their order, in which case the last ones may be missing; and a date,
which says nothing about any setting, leaves all of them as they are.

A number has to fit where it belongs. Nothing is converted: a number in quotes or
with a fraction is no number here. What stands for no number is refused wherever it
is looked at, and that is everywhere but in an array, behind the last setting.
-/

namespace DnsResponder

/-- A setting, or a whole group, whose value is of the wrong kind or out of range. -/
structure BadSetting where
  group : String
  key? : Option String
deriving DecidableEq, Repr

/-- The complaint in words. -/
def BadSetting.message (b : BadSetting) : String :=
  match b.key? with
  | some key => s!"invalid value for '{b.group}.{key}'"
  | none => s!"invalid value for '{b.group}'"

namespace Config

/-- A group of settings: its own key, and the keys of its settings in their order. -/
structure Group where
  key : String
  settings : List String

/-- The first key, other than the given ones, whose value is refused. -/
def refused? (keys : List String) (t : Toml.Table) : Option String :=
  (t.entries.find? fun (k, v) => !keys.contains k && !v.hasMeaning).map Prod.fst

/-- The values that a group is given, by the place of the setting. -/
abbrev Given := Nat → Option Toml.Value

/-- The values that a TOML value gives to a group. -/
def Group.given (g : Group) : Toml.Value → Except BadSetting Given
  | .table t =>
      match refused? g.settings t with
      | some k => .error ⟨g.key, some k⟩
      | none => .ok fun place => g.settings[place]?.bind t.get?
  | .array items => .ok fun place => items[place]?
  | .tables newestFirst => .ok fun place => newestFirst.reverse[place]?.map .table
  | .dateTime _ => .ok fun _ => none
  | _ => .error ⟨g.key, none⟩

/-- A value that is text. -/
def text? : Toml.Value → Option String
  | .text s => some s
  | _ => none

/-- A value that is a truth value. -/
def boolean? : Toml.Value → Option Bool
  | .boolean b => some b
  | _ => none

/-- A value that is a number below `limit`. -/
def number? (limit : Nat) : Toml.Value → Option Nat
  | .integer n => if 0 ≤ n ∧ n < limit then some n.toNat else none
  | _ => none

/-- Reads the setting at a place of a group, which is `default` where none is given. -/
def Group.setting {α : Type} (g : Group) (given : Given) (place : Nat)
    (read? : Toml.Value → Option α) (default : α) : Except BadSetting α :=
  match given place with
  | none => .ok default
  | some v =>
      match read? v with
      | some a => .ok a
      | none => .error ⟨g.key, g.settings[place]?⟩

/-- Reads a group of settings, which is `default` where the document does not have it. -/
def Group.ofTable {α : Type} (g : Group) (t : Toml.Table) (default : α)
    (read : Given → Except BadSetting α) : Except BadSetting α :=
  match t.get? g.key with
  | none => .ok default
  | some v => do read (← g.given v)

/-- A value that is a 16-bit number. -/
def word? (v : Toml.Value) : Option UInt16 := (number? 65536 v).map UInt16.ofNat

/-- A value that is a 32-bit number. -/
def long? (v : Toml.Value) : Option UInt32 := (number? 4294967296 v).map UInt32.ofNat

/-- A value that is a 64-bit number. -/
def huge? (v : Toml.Value) : Option UInt64 := (number? 18446744073709551616 v).map UInt64.ofNat

/-- The settings of where the responder listens. -/
def listenGroup : Group := ⟨"server", ["dns_port", "bind_address"]⟩

/-- The settings of the resolver. -/
def resolverGroup : Group := ⟨"upstream", ["server", "timeout_secs", "max_pending"]⟩

/-- The settings of the rules. -/
def rulesGroup : Group := ⟨"rules", ["path", "answer_ttl"]⟩

/-- The settings of the log. -/
def logGroup : Group := ⟨"logging", ["level", "json"]⟩

/-- All groups of settings. -/
def groups : List Group := [listenGroup, resolverGroup, rulesGroup, logGroup]

/-- Reads where the responder listens. -/
def listenOf (t : Toml.Table) : Except BadSetting ListenSettings :=
  let preset : ListenSettings := {}
  listenGroup.ofTable t preset fun given => do
    return {
      number := ← listenGroup.setting given 0 word? preset.number
      address := ← listenGroup.setting given 1 text? preset.address }

/-- Reads which resolver is asked. -/
def resolverOf (t : Toml.Table) : Except BadSetting ResolverSettings :=
  let preset : ResolverSettings := {}
  resolverGroup.ofTable t preset fun given => do
    return {
      endpoint := ← resolverGroup.setting given 0 text? preset.endpoint
      timeout := ← resolverGroup.setting given 1 huge? preset.timeout
      capacity := ← resolverGroup.setting given 2 huge? preset.capacity }

/-- Reads where the rules are. -/
def rulesOf (t : Toml.Table) : Except BadSetting RuleSettings :=
  let preset : RuleSettings := {}
  rulesGroup.ofTable t preset fun given => do
    return {
      path := ← rulesGroup.setting given 0 text? preset.path
      ttl := ← rulesGroup.setting given 1 long? preset.ttl }

/-- Reads how events are reported. -/
def logOf (t : Toml.Table) : Except BadSetting LogSettings :=
  let preset : LogSettings := {}
  logGroup.ofTable t preset fun given => do
    return {
      level := ← logGroup.setting given 0 text? preset.level
      json := ← logGroup.setting given 1 boolean? preset.json }

/-- The configuration that a document gives. -/
def ofTable (t : Toml.Table) : Except BadSetting Config := do
  if let some k := refused? (groups.map Group.key) t then
    throw ⟨k, none⟩
  return {
    listen := ← listenOf t
    resolver := ← resolverOf t
    rules := ← rulesOf t
    log := ← logOf t }

end Config

/-- Why a text is no configuration. -/
inductive ConfigSyntaxError where
  | notToml (e : Toml.Error)
  | badSetting (b : BadSetting)
deriving DecidableEq, Repr

/-- The error in words. -/
def ConfigSyntaxError.message : ConfigSyntaxError → String
  | notToml e => e.message
  | badSetting b => b.message

/-- The configuration that a text spells. -/
def Config.ofText (text : String) : Except ConfigSyntaxError Config :=
  match Toml.Table.ofText text with
  | .error e => .error (.notToml e)
  | .ok t =>
      match ofTable t with
      | .error b => .error (.badSetting b)
      | .ok c => .ok c

end DnsResponder
