import MongoRescue.Lib.Json

/-!
# Entries of the audit log

An entry (`Event`), what `normalize` makes of one before it is stored, its canonical JSON
(`canonical`) and its hash chained to the one before it (`chainHash`). Strings are Go strings, any
bytes; times are nanoseconds since the Unix epoch. SHA-256 is a parameter.
-/

namespace MongoRescue.AuditLog

open Go (Bytes utf8)
open Go.Json (StringMap quote)

structure Event where
  id : Int := 0
  time : Int
  actorKind : Bytes := []
  actorUserID : Bytes := []
  actorName : Bytes := []
  actorKeyID : Bytes := []
  actorKeyName : Bytes := []
  action : Bytes := []
  targets : StringMap := StringMap.empty
  status : Int := 0
  outcome : Bytes := []
  clientIP : Bytes := []
  userAgent : Bytes := []
  count : Int := 0
  hash : Bytes := []
  deriving DecidableEq

/-! ## Normalising -/

def maxNameLength : Nat := 128
def maxActionLength : Nat := 256
def maxTargets : Nat := 16
def maxTargetKeyLength : Nat := 64
def maxTargetValueLength : Nat := 256
def maxIPLength : Nat := 64
def maxUserAgentLength : Nat := 256

/-- The bytes of a text of ASCII characters. -/
def ascii (s : String) : Bytes := utf8 s.toList

def actorUser : Bytes := ascii "user"
def actorAPIKey : Bytes := ascii "api_key"
def actorSystem : Bytes := ascii "system"
def actorAnonymous : Bytes := ascii "anonymous"

def outcomeFor (status : Int) : Bytes :=
  if status = 401 ∨ status = 403 then ascii "denied"
  else if status = 429 then ascii "rate_limited"
  else if 400 ≤ status then ascii "error"
  else ascii "ok"

/-- `strings.ToValidUTF8(s, "?")`: every run of invalid bytes becomes one question mark. -/
def toValidUTF8 : Bool → List Go.Rune → List Char
  | _, [] => []
  | _, .char c :: us => c :: toValidUTF8 false us
  | invalid, .invalid _ :: us =>
    if invalid then toValidUTF8 true us else '?' :: toValidUTF8 true us

/-- The characters that `clean` drops. -/
def dropped (c : Char) : Bool := Go.isControl c || c = '\u2028' || c = '\u2029'

/-- The first `n` bytes, cut on a rune boundary. -/
def cutBytes : Nat → List Char → List Char
  | _, [] => []
  | n, c :: cs => if c.utf8Size ≤ n then c :: cutBytes (n - c.utf8Size) cs else []

def clean (s : Bytes) (n : Nat) : Bytes :=
  utf8 (cutBytes n ((toValidUTF8 false (Go.runes s)).filter fun c => !dropped c))

def knownActor (kind : Bytes) : Bool :=
  kind = actorUser || kind = actorAPIKey || kind = actorSystem || kind = actorAnonymous

/-- One turn of the loop over the targets, whose keys are in order. -/
def keepTarget (m : StringMap) (p : Bytes × Bytes) : StringMap :=
  let ck := clean p.1 maxTargetKeyLength
  if ck = [] ∨ maxTargets ≤ m.pairs.length then m
  else m.set ck (clean p.2 maxTargetValueLength)

def normalize (e : Event) : Event :=
  let kind := clean e.actorKind maxNameLength
  { id := 0
    time := e.time
    actorKind := if knownActor kind then kind else actorAnonymous
    actorUserID := clean e.actorUserID maxNameLength
    actorName := clean e.actorName maxNameLength
    actorKeyID := clean e.actorKeyID maxNameLength
    actorKeyName := clean e.actorKeyName maxNameLength
    action := clean e.action maxActionLength
    targets := e.targets.pairs.foldl keepTarget StringMap.empty
    status := e.status
    outcome := clean (if e.outcome = [] then outcomeFor e.status else e.outcome) maxNameLength
    clientIP := clean e.clientIP maxIPLength
    userAgent := clean e.userAgent maxUserAgentLength
    count := max e.count 1
    hash := [] }

/-! ## The canonical form -/

def formatTime (t : Int) : Bytes := ascii (Go.rfc3339Nine t)

def intText (n : Int) : List Char := (Go.padded 1 n).toList

/-- A field after the first one. -/
def key (name : String) : List Char := ',' :: quote false (ascii name) ++ [':']

/-- `Canonical`: the entry without its hash, its fields in a fixed order, without whitespace or HTML
escapes. -/
def canonicalText (e : Event) : List Char :=
  '\x7b' :: (quote false (ascii "id") ++ ':' :: (intText e.id ++
    (key "time" ++ (quote false (formatTime e.time) ++
    (key "actor_kind" ++ (quote false e.actorKind ++
    (key "actor_user_id" ++ (quote false e.actorUserID ++
    (key "actor_name" ++ (quote false e.actorName ++
    (key "actor_key_id" ++ (quote false e.actorKeyID ++
    (key "actor_key_name" ++ (quote false e.actorKeyName ++
    (key "action" ++ (quote false e.action ++
    (key "targets" ++ (e.targets.text false ++
    (key "status" ++ (intText e.status ++
    (key "outcome" ++ (quote false e.outcome ++
    (key "client_ip" ++ (quote false e.clientIP ++
    (key "user_agent" ++ (quote false e.userAgent ++
    (key "count" ++ (intText e.count ++ ['\x7d']))))))))))))))))))))))))))))

def canonical (e : Event) : Bytes := utf8 (canonicalText e)

/-- The hash before the first entry of a chain that was never pruned. -/
def genesisHash : Bytes := List.replicate 64 48

/-- `ChainHash`: the hash of `e` chained to `prev`. -/
def chainHash (sha256 : Bytes → Bytes) (prev : Bytes) (e : Event) : Bytes :=
  ascii (Go.hexEncode (sha256 (prev ++ canonical e)))

end MongoRescue.AuditLog
