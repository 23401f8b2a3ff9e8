/-!
# TOML values and tables

A TOML document is one table. Its text names tables in four ways: between braces, in
a header of their own, on the way to another table in a header, and on the way to a
value in a dotted key. Which of these made a table decides what may still be added
to it, so every table remembers its `Origin`:

* a table in braces is complete when its brace closes;
* a table that was only passed on the way may be opened once by a header, and one
  that a dotted key made may not;
* a dotted key adds only to tables that dotted keys made.

A document is therefore built section by section, in the order in which it is
written, and building fails where two parts of it claim the same key.
-/

namespace DnsResponder

namespace Toml

/-- What made a table. -/
inductive Origin where
  /-- Braces around its entries. -/
  | braces
  /-- A header that names it last. -/
  | header
  /-- A header that names it on the way. -/
  | passed
  /-- A dotted key that names it on the way. -/
  | dotted
deriving DecidableEq, Repr

mutual

/-- A TOML value. Of numbers with a fraction and of dates and times only the text is kept. -/
inductive Value where
  | text (s : String)
  | integer (n : Int)
  | float (literal : String)
  /-- What is written like a number and stands for none. -/
  | noNumber (literal : String)
  | boolean (b : Bool)
  | dateTime (literal : String)
  | array (items : List Value)
  | table (t : Table)
  /-- The tables of an array that headers write one by one, the newest first. -/
  | tables (newestFirst : List Table)

/-- A TOML table: its entries in the order in which their keys first appear. -/
inductive Table where
  | mk (origin : Origin) (entries : List (String × Value))

end

mutual

/-- Whether everything in a value that is written like a number stands for one. -/
def Value.hasMeaning : Value → Bool
  | .noNumber _ => false
  | .array items => itemsHaveMeaning items
  | .table t => t.hasMeaning
  | .tables ts => tablesHaveMeaning ts
  | .text _ | .integer _ | .float _ | .boolean _ | .dateTime _ => true

/-- Whether all values have meaning. -/
def itemsHaveMeaning : List Value → Bool
  | [] => true
  | v :: rest => v.hasMeaning && itemsHaveMeaning rest

/-- Whether the values of all entries have meaning. -/
def entriesHaveMeaning : List (String × Value) → Bool
  | [] => true
  | (_, v) :: rest => v.hasMeaning && entriesHaveMeaning rest

/-- Whether the values in a table have meaning. -/
def Table.hasMeaning : Table → Bool
  | .mk _ entries => entriesHaveMeaning entries

/-- Whether the values in all tables have meaning. -/
def tablesHaveMeaning : List Table → Bool
  | [] => true
  | t :: rest => t.hasMeaning && tablesHaveMeaning rest

end

/-- Where an entry stands: the tables that its key goes through, and its own name. -/
structure KeyPath where
  parents : List String
  name : String
deriving DecidableEq, Repr

/-- What two parts of a document can disagree about. -/
inductive Clash where
  /-- The key has been given already. -/
  | taken (key : String)
  /-- The key holds a value to which nothing can be added. -/
  | closed (key : String)
deriving DecidableEq, Repr

/-- The clash in words. -/
def Clash.message : Clash → String
  | taken key => s!"the key '{key}' is given twice"
  | closed key => s!"nothing can be added to the value of '{key}'"

namespace Table

/-- What made the table. -/
def origin : Table → Origin
  | mk o _ => o

/-- The entries of the table. -/
def entries : Table → List (String × Value)
  | mk _ es => es

/-- A table without entries. -/
def empty (origin : Origin) : Table := mk origin []

instance : Inhabited Table := ⟨empty .header⟩

/-- The value of a key. -/
def get? (t : Table) (key : String) : Option Value := t.entries.lookup key

/-- Puts what `f` makes of the value of `key` in its place; a new key comes last. -/
def alterEntries (key : String) (f : Option Value → Except Clash Value) :
    List (String × Value) → Except Clash (List (String × Value))
  | [] => (f none).map fun v => [(key, v)]
  | (k, v) :: rest =>
      if k = key then (f (some v)).map fun w => (k, w) :: rest
      else (alterEntries key f rest).map fun more => (k, v) :: more

/-- Puts what `f` makes of the value of `key` in its place. -/
def alter (t : Table) (key : String) (f : Option Value → Except Clash Value) :
    Except Clash Table :=
  (alterEntries key f t.entries).map (mk t.origin)

/-- Whether a key may go through a table, a dotted key or the key of a header. -/
def admits (dotted : Bool) : Origin → Bool
  | .braces => false
  | .header => !dotted
  | .passed | .dotted => true

/--
Changes the table that the given keys lead to, making those that are not there. Of
the tables of an array the newest is meant.
-/
def within (dotted : Bool) (f : Table → Except Clash Table) :
    List String → Table → Except Clash Table
  | [], t => f t
  | key :: path, t =>
      t.alter key fun
        | none =>
            (within dotted f path (empty (if dotted then .dotted else .passed))).map .table
        | some (.table child) =>
            if admits dotted child.origin then (within dotted f path child).map .table
            else .error (if child.origin = .braces then .closed key else .taken key)
        | some (.tables (newest :: older)) =>
            (within dotted f path newest).map fun t => .tables (t :: older)
        | some _ => .error (.closed key)

/-- Adds an entry. The table that holds it in the end is one that dotted keys made, or the table itself. -/
def insert (t : Table) (key : KeyPath) (v : Value) : Except Clash Table :=
  within true
    (fun parent =>
      if (parent.origin = .dotted) = (key.parents = []) then .error (.taken key.name)
      else
        parent.alter key.name fun
          | none => .ok v
          | some _ => .error (.taken key.name))
    key.parents t

/-- Adds entries one after the other. -/
def insertAll (t : Table) (entries : List (KeyPath × Value)) : Except Clash Table :=
  entries.foldlM (fun t (key, v) => t.insert key v) t

/-- The table that braces around `entries` make. -/
def ofEntries (entries : List (KeyPath × Value)) : Except Clash Table :=
  insertAll (empty .braces) entries

end Table

/-- The line that opens a section: the table that it names, or one more table of the array that it names. -/
structure Header where
  key : KeyPath
  isElement : Bool

/-- A header with the entries below it. The first section of a document has none. -/
structure Section where
  header : Option Header
  entries : List (KeyPath × Value)

namespace Table

/-- What a header makes of the value of the key that it names last, where `entries` stand below it. -/
def opened (h : Header) (entries : List (KeyPath × Value)) :
    Option Value → Except Clash Value
  | none =>
      ((empty .header).insertAll entries).map fun t => if h.isElement then .tables [t] else .table t
  | some (.table t) =>
      if !h.isElement && t.origin = .passed then
        ((mk .header t.entries).insertAll entries).map .table
      else .error (.taken h.key.name)
  | some (.tables ts) =>
      if h.isElement then ((empty .header).insertAll entries).map fun t => .tables (t :: ts)
      else .error (.taken h.key.name)
  | some _ => .error (.taken h.key.name)

/-- Adds a section. -/
def addSection (t : Table) (s : Section) : Except Clash Table :=
  match s.header with
  | none => t.insertAll s.entries
  | some h => t.within false (fun parent => parent.alter h.key.name (opened h s.entries)) h.key.parents

/-- The table that the sections of a document make. -/
def ofSections (sections : List Section) : Except Clash Table :=
  sections.foldlM addSection (empty .header)

end Table

end Toml

end DnsResponder
