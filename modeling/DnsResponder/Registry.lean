/-!
# The registries

Record types, record classes and response codes are numbers on the wire and short
mnemonics in rule files and logs. Only the entries below have a mnemonic here. All
other numbers are just as legal in a message and pass through untouched, which is
why messages carry plain numbers and not these types.

A mnemonic is matched exactly as written: `in` is not the class `IN`, and `TYPE1`
is a way to show a number, not a way to write one.
-/

namespace DnsResponder

/-- The record types that have a mnemonic. -/
inductive RecordType where
  | a | ns | cname | soa | ptr | hinfo | mx | txt | rp | afsdb | sig | key | aaaa | loc | srv | naptr
  | kx | cert | dname | apl | svcb | https
deriving DecidableEq, Repr

namespace RecordType

/-- Every record type, in ascending order of its number. -/
def all : List RecordType :=
  [a, ns, cname, soa, ptr, hinfo, mx, txt, rp, afsdb, sig, key, aaaa, loc, srv, naptr, kx, cert,
    dname, apl, svcb, https]

/-- The number on the wire. -/
def code : RecordType → UInt16
  | a => 1
  | ns => 2
  | cname => 5
  | soa => 6
  | ptr => 12
  | hinfo => 13
  | mx => 15
  | txt => 16
  | rp => 17
  | afsdb => 18
  | sig => 24
  | key => 25
  | aaaa => 28
  | loc => 29
  | srv => 33
  | naptr => 35
  | kx => 36
  | cert => 37
  | dname => 39
  | apl => 42
  | svcb => 64
  | https => 65

/-- The mnemonic. -/
def mnemonic : RecordType → String
  | a => "A"
  | ns => "NS"
  | cname => "CNAME"
  | soa => "SOA"
  | ptr => "PTR"
  | hinfo => "HINFO"
  | mx => "MX"
  | txt => "TXT"
  | rp => "RP"
  | afsdb => "AFSDB"
  | sig => "SIG"
  | key => "KEY"
  | aaaa => "AAAA"
  | loc => "LOC"
  | srv => "SRV"
  | naptr => "NAPTR"
  | kx => "KX"
  | cert => "CERT"
  | dname => "DNAME"
  | apl => "APL"
  | svcb => "SVCB"
  | https => "HTTPS"

/-- The type with the given number. -/
def ofCode? (code : UInt16) : Option RecordType := all.find? (·.code = code)

/-- The type with exactly the given mnemonic. -/
def ofMnemonic? (text : String) : Option RecordType := all.find? (·.mnemonic = text)

/-- How a type number is shown in logs. -/
def describe (code : UInt16) : String :=
  match ofCode? code with
  | some t => t.mnemonic
  | none => s!"TYPE{code.toNat}"

theorem ofMnemonic?_mnemonic (t : RecordType) : ofMnemonic? t.mnemonic = some t := by
  cases t <;> decide

end RecordType

/-- The record classes that have a mnemonic. -/
inductive RecordClass where
  | internet | csnet | chaos | hesiod
deriving DecidableEq, Repr

namespace RecordClass

/-- Every class, in ascending order of its number. -/
def all : List RecordClass := [internet, csnet, chaos, hesiod]

/-- The number on the wire. -/
def code : RecordClass → UInt16
  | internet => 1
  | csnet => 2
  | chaos => 3
  | hesiod => 4

/-- The mnemonic. -/
def mnemonic : RecordClass → String
  | internet => "IN"
  | csnet => "CS"
  | chaos => "CH"
  | hesiod => "HS"

/-- The class with the given number. -/
def ofCode? (code : UInt16) : Option RecordClass := all.find? (·.code = code)

/-- The class with exactly the given mnemonic. -/
def ofMnemonic? (text : String) : Option RecordClass := all.find? (·.mnemonic = text)

/-- How a class number is shown in logs. -/
def describe (code : UInt16) : String :=
  match ofCode? code with
  | some c => c.mnemonic
  | none => s!"CLASS{code.toNat}"

theorem ofMnemonic?_mnemonic (c : RecordClass) : ofMnemonic? c.mnemonic = some c := by
  cases c <;> decide

end RecordClass

/-- The response codes that have a mnemonic. -/
inductive ResponseCode where
  | noError | formErr | servFail | nxDomain | notImp | refused
deriving DecidableEq, Repr

namespace ResponseCode

/-- Every response code, in ascending order of its number. -/
def all : List ResponseCode := [noError, formErr, servFail, nxDomain, notImp, refused]

/-- The number on the wire. -/
def code : ResponseCode → UInt8
  | noError => 0
  | formErr => 1
  | servFail => 2
  | nxDomain => 3
  | notImp => 4
  | refused => 5

/-- The mnemonic. -/
def mnemonic : ResponseCode → String
  | noError => "NOERROR"
  | formErr => "FORMERR"
  | servFail => "SERVFAIL"
  | nxDomain => "NXDOMAIN"
  | notImp => "NOTIMP"
  | refused => "REFUSED"

/-- The response code with the given number. -/
def ofCode? (code : UInt8) : Option ResponseCode := all.find? (·.code = code)

end ResponseCode

/-- A look-up of a mnemonic that the registry lacks. -/
inductive UnknownMnemonic where
  | type (text : String)
  | recordClass (text : String)
deriving DecidableEq, Repr

/-- The report about a mnemonic that the registry lacks. -/
def UnknownMnemonic.message : UnknownMnemonic → String
  | type text => s!"Unknown record type: {text}"
  | recordClass text => s!"Unknown record class: {text}"

end DnsResponder
