import MongoRescue.Redact.Redact

/-!
# Validation of connection strings

`mongouri`: the structural rules for connection strings that a user enters (`Validate`, with `strict`)
and for stored ones (`ValidateStored`). The parts of a connection string are those that `validate`
splits it into.
-/

namespace MongoRescue.MongoUri

open Go
open Redact (colon atSign ampersand question equals hash slash percent between isDigit)

def schemeStandard : Bytes := ascii "mongodb://"

def schemeSRV : Bytes := ascii "mongodb+srv://"

def maxPortDigits : Nat := 5

/-! ## Characters -/

/-- `isASCIISpace`: an ASCII whitespace or control character. -/
def isASCIISpace (c : UInt8) : Bool := c ≤ ' '.toUInt8 || c = 0x7f

/-- `isSpace`: a whitespace or control character. -/
def isSpace (c : Char) : Bool := c ≤ ' ' || c = '\x7f' || Go.isSpace c || Go.isControl c

def isHex (c : UInt8) : Bool := isDigit c || between 'a' 'f' c || between 'A' 'F' c

def validEscapes : Bytes → Bool
  | [] => true
  | c :: rest =>
    if c = percent then
      match rest with
      | a :: b :: rest => isHex a && isHex b && validEscapes rest
      | _ => false
    else validEscapes rest

/-! ## Hosts -/

def isPort (p : Bytes) : Bool := decide (p.length ≤ maxPortDigits) && p.all isDigit

def validHostName (name : Bytes) (bracketed : Bool) : Bool :=
  name.all fun c =>
    128 ≤ c || between 'a' 'z' c || between 'A' 'Z' c || isDigit c ||
      (ascii "-._~%!$&'()*+;=").contains c || (bracketed && c == colon)

/-- The name and the port of a host, none for a bracket or colon that is out of place. -/
def cutHost (h : Bytes) : Option (Bytes × Bytes) :=
  if (ascii "[").isPrefixOf h then
    match indexByte h ']'.toUInt8 with
    | none => none
    | some stop =>
      if stop < 2 then none
      else
        match h.drop (stop + 1) with
        | [] => some (slice h 1 stop, [])
        | c :: port => if c ≠ colon ∨ port = [] then none else some (slice h 1 stop, port)
  else
    match indexByte h colon with
    | none => some (h, [])
    | some i => if h.drop (i + 1) = [] then none else some (h.take i, h.drop (i + 1))

def validHost (h : Bytes) (strict : Bool) : Bool :=
  match cutHost h with
  | none => false
  | some (name, port) =>
    !name.isEmpty && !name.any (ascii "@[]").contains &&
      (!strict || validHostName name ((ascii "[").isPrefixOf h)) && (port.isEmpty || isPort port)

def validHostList (hosts : Bytes) (strict : Bool) : Bool :=
  !hosts.isEmpty && (hosts.splitOn ','.toUInt8).all fun h => validHost h strict

/-! ## Parts -/

structure Parts where
  scheme : Bytes
  /-- What stands before the last `@` of the authority, if there is one. -/
  userinfo : Option Bytes
  hosts : Bytes
  path : Bytes
  /-- What follows the `?`, if there is one. -/
  query : Option Bytes
  deriving DecidableEq

/-- The scheme, and the rest. -/
def cutScheme (uri : Bytes) : Option (Bytes × Bytes) :=
  if schemeStandard.isPrefixOf uri then some (schemeStandard, uri.drop schemeStandard.length)
  else if schemeSRV.isPrefixOf uri then some (schemeSRV, uri.drop schemeSRV.length)
  else none

/-- A byte that ends the authority. -/
def endsAuthority (c : UInt8) : Bool := c == slash || c == question

def cutUserinfo (authority : Bytes) : Option Bytes × Bytes :=
  match lastIndexByte authority atSign with
  | some i => (some (authority.take i), authority.drop (i + 1))
  | none => (none, authority)

/-- What stands before the first `?` of the tail, and what follows it. -/
def cutQuery (tail : Bytes) : Bytes × Option Bytes :=
  match indexByte tail question with
  | some i => (tail.take i, some (tail.drop (i + 1)))
  | none => (tail, none)

def partsOf (scheme rest : Bytes) : Parts :=
  let authority := rest.takeWhile fun c => !endsAuthority c
  let tail := rest.dropWhile fun c => !endsAuthority c
  { scheme
    userinfo := (cutUserinfo authority).1
    hosts := (cutUserinfo authority).2
    path := (cutQuery tail).1
    query := (cutQuery tail).2 }

def parts (uri : Bytes) : Option Parts := (cutScheme uri).map fun c => partsOf c.1 c.2

/-- `strings.Split(query, "&")`. -/
def Parts.options (p : Parts) : List Bytes := (p.query.getD []).splitOn ampersand

/-! ## Validation -/

/-- The characters that may stand anywhere. -/
def validText (rest : Bytes) (strict : Bool) : Bool :=
  !rest.any isASCIISpace && !rest.contains hash &&
    (!strict || ((chars rest).any (fun cs => !cs.any isSpace) && validEscapes rest))

def validOption (opt : Bytes) (strict : Bool) : Bool :=
  opt.isEmpty || (opt.contains equals && !(strict && opt.head? == some equals))

def validParts (p : Parts) (strict : Bool) : Bool :=
  p.userinfo.all (fun ui => !ui.contains atSign) && validHostList p.hosts strict &&
    !(p.path.drop 1).any (ascii "/@").contains && p.options.all fun opt => validOption opt strict

def validate (uri : Bytes) (strict : Bool) : Bool :=
  match cutScheme uri with
  | none => false
  | some (scheme, rest) => validText rest strict && validParts (partsOf scheme rest) strict

/-- `Validate`. -/
def valid (uri : Bytes) : Bool := validate uri true

end MongoRescue.MongoUri
