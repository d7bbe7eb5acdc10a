import MongoRescue.Lib.Strings

/-!
# Masking the credentials in connection strings

`redact`: the credentials of one connection string (`uri`) and of every connection string in a text
(`text`) are replaced by `mask`. Strings are bytes: everything that the package looks for is ASCII,
and no byte of a rune outside ASCII is.
-/

namespace MongoRescue.Redact

open Go

/-! ## Bytes -/

def colon : UInt8 := ':'.toUInt8

def atSign : UInt8 := '@'.toUInt8

def ampersand : UInt8 := '&'.toUInt8

def question : UInt8 := '?'.toUInt8

def equals : UInt8 := '='.toUInt8

def hash : UInt8 := '#'.toUInt8

def slash : UInt8 := '/'.toUInt8

def percent : UInt8 := '%'.toUInt8

def between (lo hi : Char) (c : UInt8) : Bool := lo.toUInt8 ≤ c && c ≤ hi.toUInt8

def isDigit (c : UInt8) : Bool := between '0' '9' c

def isLetter (c : UInt8) : Bool := between 'a' 'z' c || between 'A' 'Z' c

/-- `gluedToURI`: a byte that can be part of a userinfo or host. -/
def gluedToURI (c : UInt8) : Bool := (ascii ":@/%.+-_").contains c || isDigit c || isLetter c

/-- `isSpace`: an ASCII whitespace character. -/
def isSpace (c : UInt8) : Bool := (ascii " \t\n\x0d\x0b\x0c").contains c

/-! ## One connection string -/

def mask : Bytes := ascii "******"

def schemeEnd : Bytes := [colon, slash, slash]

def sensitiveQueryKeys : List String :=
  ["password", "authmechanismproperties", "tlscertificatekeyfilepassword", "sslpemkeypassword",
    "secretkey", "secret_key", "aws_session_token", "token", "access_token", "api_key", "apikey", "sig",
    "signature"]

/-- `SplitUserinfo`: where the authority begins, and the last `@` after it; none without a scheme. -/
def splitUserinfo (rawURI : Bytes) : Option (Nat × Option Nat) :=
  (index schemeEnd rawURI).map fun schemeIdx =>
    (schemeIdx + 3, (lastIndexByte (rawURI.drop (schemeIdx + 3)) atSign).map (· + (schemeIdx + 3)))

def maskUserinfo (rawURI : Bytes) : Bytes :=
  match splitUserinfo rawURI with
  | none | some (_, none) => rawURI
  | some (authStart, some atIdx) =>
    let userInfo := slice rawURI authStart atIdx
    match indexByte userInfo colon with
    | none => rawURI
    | some colonIdx =>
      rawURI.take authStart ++ userInfo.take colonIdx ++ [colon] ++ mask ++ rawURI.drop atIdx

/-- The value of a hexadecimal digit. -/
def unhex (c : UInt8) : Option UInt8 :=
  if isDigit c then some (c - '0'.toUInt8)
  else if between 'a' 'f' c then some (c - 'a'.toUInt8 + 10)
  else if between 'A' 'F' c then some (c - 'A'.toUInt8 + 10)
  else none

/-- `url.QueryUnescape`, none for its error. -/
def queryUnescape : Bytes → Option Bytes
  | [] => some []
  | c :: rest =>
    if c = percent then
      match rest with
      | a :: b :: rest => do
        let hi ← unhex a
        let lo ← unhex b
        let s ← queryUnescape rest
        return (16 * hi + lo) :: s
      | _ => none
    else do
      let s ← queryUnescape rest
      return (if c = '+'.toUInt8 then ' '.toUInt8 else c) :: s

/-- `unicode.ToLower` of a rune, none where it is not ASCII: beside the letters, only U+0130 and
U+212A have a lower case in ASCII. -/
def lowerASCII : Rune → Option Char
  | .invalid _ => none
  | .char c =>
    if c = '\u0130' then some 'i'
    else if c = '\u212a' then some 'k'
    else if c.toNat < 128 then some c.toLower
    else none

/-- `sensitiveQueryKeys[strings.ToLower(key)]`, where all keys are ASCII. -/
def hasLower (key : Bytes) : Bool :=
  ((runes key).mapM lowerASCII).any fun cs => sensitiveQueryKeys.contains (String.ofList cs)

/-- `isSensitiveKey`: a key that cannot be decoded is compared raw. -/
def isSensitiveKey (rawKey : Bytes) : Bool := hasLower ((queryUnescape rawKey).getD rawKey)

/-- A byte that introduces a `key=value` pair. -/
def isDelimiter (c : UInt8) : Bool := c == question || c == ampersand

/-- A byte that ends a key: one of `=&?#`. -/
def endsKey (c : UInt8) : Bool := c == equals || c == ampersand || c == question || c == hash

/-- A byte that ends a value: one of `&#`. -/
def endsValue (c : UInt8) : Bool := c == ampersand || c == hash

/-- The sensitive `key=` at the front of what follows a delimiter: its length with the `=`. -/
def sensitiveAt (s : Bytes) : Option Nat :=
  (s.findIdx? endsKey).bind fun keyEnd =>
    if s[keyEnd]? = some equals ∧ isSensitiveKey (s.take keyEnd) then some (keyEnd + 1) else none

/-- The loop of `maskQuerySecrets`; the first `skip` bytes are those of a value, or were written
before. -/
def maskFrom : Nat → Bytes → Bytes
  | _, [] => []
  | skip + 1, _ :: rest => maskFrom skip rest
  | 0, c :: rest =>
    if isDelimiter c then
      match sensitiveAt rest with
      | none => c :: maskFrom 0 rest
      | some valStart =>
        let value := (rest.drop valStart).takeWhile fun b => !endsValue b
        c :: (rest.take valStart ++ mask ++ maskFrom (valStart + value.length) rest)
    else c :: maskFrom 0 rest

def maskQuerySecrets (s : Bytes) : Bytes := if s.any isDelimiter then maskFrom 0 s else s

def uri (rawURI : Bytes) : Bytes := maskQuerySecrets (maskUserinfo rawURI)

/-! ## Text -/

def isSchemeByte (c : UInt8) : Bool := isLetter c || isDigit c || (ascii "+.-").contains c

/-- The length of the match of `schemePattern` at the front of a text. The colon that ends the scheme
is no byte of a scheme, so there is only one match. -/
def schemeAt : Bytes → Option Nat
  | [] => none
  | c :: rest =>
    if isLetter c ∧ schemeEnd.isPrefixOf (rest.dropWhile isSchemeByte) then
      some (1 + (rest.takeWhile isSchemeByte).length + 3)
    else none

/-- `FindAllStringIndex` of `schemePattern`, from a position; the first `skip` bytes belong to a match
that was found before. -/
def findAll (pos : Nat) : Nat → Bytes → List (Nat × Nat)
  | _, [] => []
  | skip + 1, _ :: rest => findAll (pos + 1) skip rest
  | 0, c :: rest =>
    match schemeAt (c :: rest) with
    | none => findAll (pos + 1) 0 rest
    | some n => (pos, pos + n) :: findAll (pos + 1) (n - 1) rest

/-- A match lies inside the connection string that starts at the last one: it is glued to it, or comes
before its `@`. -/
def inside (s : Bytes) (last m : Nat × Nat) : Bool :=
  !(slice s last.1 m.1).any isSpace &&
    ((s[m.1 - 1]?).any gluedToURI || !(slice s last.2 m.1).contains atSign)

/-- The matches that start a connection string, after the last one. -/
def select (s : Bytes) : Option (Nat × Nat) → List (Nat × Nat) → List (Nat × Nat)
  | _, [] => []
  | last, m :: ms =>
    if last.any fun l => inside s l m then select s last ms else m :: select s (some m) ms

/-- The end of the connection string that starts at a match: the next match or the first space. -/
def tokenEnd (s : Bytes) (m : Nat × Nat) (next : Nat) : Nat :=
  match (slice s m.2 next).findIdx? isSpace with
  | some ws => m.2 + ws
  | none => next

/-- What is written for the text from `prev` on. -/
def render (s : Bytes) (prev : Nat) : List (Nat × Nat) → Bytes
  | [] => s.drop prev
  | m :: ms =>
    if m.1 < prev then render s prev ms
    else
      let fin := tokenEnd s m ((ms.head?.map Prod.fst).getD s.length)
      slice s prev m.1 ++ uri (slice s m.1 fin) ++ render s fin ms

def text (s : Bytes) : Bytes :=
  let all := findAll 0 0 s
  if all.isEmpty then s else render s 0 (select s none all)

end MongoRescue.Redact
