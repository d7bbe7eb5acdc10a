import MongoRescue.Lib.Go

/-!
# Sealed values and their re-sealing

`internal/secretbox` and the part of `internal/store` that seals: where sealed values are stored, the
check of the key when the database is opened (`secrets.go`), and the transaction that re-seals all of
them under another key (`rotation.go`, `retired_macs.go`).

A sealed value is a key, the location it is bound to and its plaintext: AES-GCM is taken as exact. The
database has been upgraded to the current format; the one-time upgrade from earlier ones is left out.
-/

namespace MongoRescue.Rotation

open Go (Bytes)

/-! ## Keys and sealed values -/

def keySize : Nat := 32

/-- A key. `New`, `ParseKey` and `WriteKeyFile` accept no other length. -/
def Key : Type := { b : Bytes // b.length = keySize }
  deriving DecidableEq

structure Binding where
  table : String
  recordID : String
  field : String
  deriving DecidableEq

def Binding.string (b : Binding) : String := b.table ++ "|" ++ b.recordID ++ "|" ++ b.field

/-- `aad` refuses an empty component. -/
def Binding.valid (b : Binding) : Bool := b.table ≠ "" && b.recordID ≠ "" && b.field ≠ ""

/-- A retired imported-key MAC key with its ID. -/
structure RetiredMAC where
  kid : String
  key : Bytes
  deriving DecidableEq

/-- A plaintext. The retired MAC keys are stored as a JSON list. -/
inductive Plain
  | text (s : String)
  | macs (keys : List RetiredMAC)
  deriving DecidableEq

/-- What a secret column holds. -/
inductive Value
  | raw (text : String)
  | sealed (key : Key) (loc : Binding) (plain : Plain)
  deriving DecidableEq

inductive Err
  | envKey
  | haMode
  | pending
  | incomplete
  | mismatch
  | notExist
  | malformed
  | decrypt
  | invalidBinding
  | unsealedSecret (loc : Binding)
  | corruptRecord (what : String)
  | invalidRecord (what : String)
  | keyRotationPending
  | commitUncertain
  /-- An error of the operating system, of SQLite or of the KMS. -/
  | fault (text : String)
  | wrapped (text : String) (e : Err)
  deriving DecidableEq

def startsWith (lead s : String) : Bool := lead.toList.isPrefixOf s.toList

def sealedLead : String := "sb2:"

def legacyLead : String := "sb1:"

namespace Value

def isEmpty : Value → Bool
  | .raw t => t = ""
  | .sealed _ _ _ => false

/-- `IsSealed`: the value carries the lead of the current format. -/
def isSealed : Value → Bool
  | .raw t => startsWith sealedLead t
  | .sealed _ _ _ => true

/-- `sealedSQL`: a sealed value of the current or the legacy format. -/
def looksSealed : Value → Bool
  | .raw t => startsWith sealedLead t || startsWith legacyLead t
  | .sealed _ _ _ => true

end Value

/-- `Box.Open`. Text that was not sealed does not open, whatever it starts with. -/
def boxOpen (k : Key) (loc : Binding) (v : Value) : Except Err Plain :=
  if !loc.valid then .error .invalidBinding
  else match v with
    | .raw _ => .error .malformed
    | .sealed k' loc' p => if k' = k ∧ loc' = loc then .ok p else .error .decrypt

/-- `Box.Seal`. -/
def boxSeal (k : Key) (loc : Binding) (p : Plain) : Except Err Value :=
  if !loc.valid then .error .invalidBinding else .ok (.sealed k loc p)

/-! ## Where values are sealed -/

def tableSettings : String := "settings"
def tableConnections : String := "connections"
def tableChannels : String := "notification_channels"
def tableJobs : String := "jobs"
def tableStorageTargets : String := "storage_targets"
def tableApprovals : String := "approvals"

def keyCheckSetting : String := "secret_key_check"
def keyCheckPlaintext : String := "mongorescue-secret-key-check-v1"
def retiredMACKeysSetting : String := "auth_retired_imported_key_macs"

def fieldSettingValue : String := "value"
def fieldApprovalSecret : String := "secret"
def approvalPostRestoreCommands : String := "reduce_post_restore_commands"

/-- A secret column of a row: its table, the row's ID (the key of a setting), the JSON path or column it
is stored at, and for an approval request the action it asks for. -/
structure Cell where
  table : String
  id : String
  path : String
  action : String := ""
  value : Value
  deriving DecidableEq

def secretSettingKeys : List String :=
  ["encryption.identity", "encryption.passphrase", "audit.webhook_url", "audit.webhook_secret",
    "oidc.client_secret", "monitoring.heartbeat_url", "encryption.retired_keys"]

/-- The fields `TransformSecrets` visits. -/
def channelSecret (field : String) : Bool :=
  field ∈ ["webhook.url", "webhook.secret", "telegram.bot_token", "email.password",
    "twilio.auth_token"] || startsWith "webhook.headers." field

/-- The field that the value of a cell is bound to by what seals it: `putConnection` and
`putStoredConnection`, `putLegacyJob` and `sealJob`, `putChannel`, `encodeStorageTarget`,
`CreateApproval`, `SaveSettings`, `putKeyCheck` and `writeRetiredMACs`. -/
def Cell.boundField (c : Cell) : Option String :=
  if c.table = tableConnections then
    if c.path = "$.uri" then some "uri"
    else if c.path = "$.post_restore_sealed" then some "post_restore_commands"
    else if c.path = "$.tls_client_key_pem" then some "tls_client_key_pem"
    else if c.path = "$.tls_client_key_password" then some "tls_client_key_password"
    else none
  else if c.table = tableJobs then
    if c.path = "$.mongo_uri" then some "mongo_uri"
    else if c.path = "$.heartbeat_url" then some "heartbeat_url"
    else none
  else if c.table = tableStorageTargets then
    if c.path = "$.s3.secret_access_key" then some "s3.secret_access_key" else none
  else if c.table = tableChannels then
    if channelSecret c.path then some c.path else none
  else if c.table = tableApprovals then
    if c.action = approvalPostRestoreCommands ∧ c.path = "secret" then some fieldApprovalSecret
    else none
  else if c.table = tableSettings then
    if (c.id ∈ secretSettingKeys ∨ c.id = keyCheckSetting ∨ c.id = retiredMACKeysSetting) ∧
        c.path = "value" then some fieldSettingValue
    else none
  else none

def Cell.binding (c : Cell) (field : String) : Binding := ⟨c.table, c.id, field⟩

def Cell.isSetting (key : String) (c : Cell) : Bool := c.table = tableSettings && c.id = key

def settingCell (key : String) (v : Value) : Cell :=
  { table := tableSettings, id := key, path := "value", value := v }

def setting (cells : List Cell) (key : String) : Option Value :=
  (cells.find? (Cell.isSetting key)).map (·.value)

/-- `INSERT … ON CONFLICT (key) DO UPDATE`. -/
def putSetting (cells : List Cell) (key : String) (v : Value) : List Cell :=
  cells.filter (fun c => !c.isSetting key) ++ [settingCell key v]

def dropSetting (cells : List Cell) (key : String) : List Cell :=
  cells.filter fun c => !c.isSetting key

/-! ## Re-sealing -/

structure SealedJSONField where
  table : String
  path : String
  field : String

def sealedJSONFields : List SealedJSONField :=
  [⟨tableConnections, "$.uri", "uri"⟩,
    ⟨tableConnections, "$.post_restore_sealed", "post_restore_commands"⟩,
    ⟨tableConnections, "$.tls_client_key_pem", "tls_client_key_pem"⟩,
    ⟨tableConnections, "$.tls_client_key_password", "tls_client_key_password"⟩,
    ⟨tableJobs, "$.mongo_uri", "mongo_uri"⟩,
    ⟨tableJobs, "$.heartbeat_url", "heartbeat_url"⟩,
    ⟨tableStorageTargets, "$.s3.secret_access_key", "s3.secret_access_key"⟩]

/-- `resealer.reseal`: the value under the next key, and the location of one that was left as it is. -/
def resealValue (old next : Key) (loc : Binding) (v : Value) : Except Err (Value × List String) :=
  if v.isEmpty then .ok (.raw "", [])
  else match if v.isSealed then boxOpen old loc v else .error (.unsealedSecret loc) with
    | .error e =>
      -- without the key check value the new key could not be verified
      if loc.recordID = keyCheckSetting ∧ loc.table = tableSettings then
        .error (.wrapped ("decrypt " ++ loc.string) e)
      else .ok (v, [loc.string])
    | .ok plain => match boxSeal next loc plain with
      | .error e => .error (.wrapped ("encrypt " ++ loc.string) e)
      | .ok s => .ok (s, [])

/-- The rows while they are re-sealed, with the counts of `KeyRotationResult`. -/
structure Resealing where
  cells : List Cell
  resealed : Nat := 0
  skipped : List String := []

/-- Re-seals the cells that a query selects, each at the location it gives. -/
def resealCells (old next : Key) (selects : Cell → Option Binding) : List Cell → Except Err Resealing
  | [] => .ok { cells := [] }
  | c :: cs => match selects c with
    | none => do
      let r ← resealCells old next selects cs
      return { r with cells := c :: r.cells }
    | some loc => do
      let (v, left) ← resealValue old next loc c.value
      let r ← resealCells old next selects cs
      return { cells := { c with value := v } :: r.cells,
               resealed := (if c.value.isEmpty then 0 else 1) + r.resealed,
               skipped := left ++ r.skipped }

/-- `resealJSONField` selects the rows that hold a value. -/
def selectJSONField (f : SealedJSONField) (c : Cell) : Option Binding :=
  if c.table = f.table ∧ c.path = f.path ∧ !c.value.isEmpty then some (c.binding f.field) else none

/-- `resealChannels` visits what `TransformSecrets` does. -/
def selectChannels (c : Cell) : Option Binding :=
  if c.table = tableChannels ∧ channelSecret c.path then some (c.binding c.path) else none

/-- `resealApprovalSecrets`. -/
def selectApprovalSecrets (c : Cell) : Option Binding :=
  if c.table = tableApprovals ∧ c.path = "secret" ∧ c.action = approvalPostRestoreCommands ∧
      !c.value.isEmpty then some (c.binding fieldApprovalSecret)
  else none

/-- `resealSettings`. -/
def selectSettings (keys : List String) (c : Cell) : Option Binding :=
  if c.table = tableSettings ∧ c.path = "value" ∧ c.id ∈ keys ∧ !c.value.isEmpty then
    some (c.binding fieldSettingValue)
  else none

/-- The queries of `resealAll`, in order. -/
def resealQueries : List (Cell → Option Binding) :=
  sealedJSONFields.map selectJSONField ++
    [selectChannels, selectApprovalSecrets,
      selectSettings (secretSettingKeys ++ [keyCheckSetting, retiredMACKeysSetting])]

def resealStep (old next : Key) (r : Resealing) (selects : Cell → Option Binding) :
    Except Err Resealing := do
  let r' ← resealCells old next selects r.cells
  return { cells := r'.cells, resealed := r.resealed + r'.resealed, skipped := r.skipped ++ r'.skipped }

def resealAll (old next : Key) (cells : List Cell) : Except Err Resealing :=
  resealQueries.foldlM (resealStep old next) { cells := cells }

/-! ## Retired keys of imported API keys -/

def retiredMACsAt : Binding := ⟨tableSettings, retiredMACKeysSetting, fieldSettingValue⟩

def importedKeyMACScheme : String := "hmac-sha256:"

def maxRetiredMACKeys : Nat := 16

/-- `ImportedKeyHashKID`: the ID of the MAC key of an imported key's hash, `""` for one without, `none`
for other hashes. -/
def importedKeyHashKID (hash : String) : Option String :=
  if startsWith importedKeyMACScheme hash then
    let rest := hash.toList.drop importedKeyMACScheme.length
    some (if ':' ∈ rest then String.ofList (rest.takeWhile (· ≠ ':')) else "")
  else none

def readRetiredMACs (box : Key) (cells : List Cell) : Except Err (List RetiredMAC) :=
  match setting cells retiredMACKeysSetting with
  | none => .ok []
  | some v =>
    if v.isEmpty then .ok []
    else if !v.isSealed then .error (.unsealedSecret retiredMACsAt)
    else match boxOpen box retiredMACsAt v with
      | .error e => .error (.wrapped ("decrypt " ++ retiredMACsAt.string) e)
      | .ok (.macs keys) => .ok keys
      | .ok (.text _) => .error (.corruptRecord retiredMACsAt.string)

/-- The retired keys that a stored hash still names: all of them while a hash without a key ID exists. -/
def neededMACs (hashes : List String) (keys : List RetiredMAC) : List RetiredMAC :=
  let kids := hashes.filterMap importedKeyHashKID
  (if "" ∈ kids then keys else keys.filter (·.kid ∈ kids)).take maxRetiredMACKeys

/-- Keeps the keys that are still needed, sealed with `box`. -/
def writeRetiredMACs (box : Key) (hashes : List String) (keys : List RetiredMAC) (cells : List Cell) :
    Except Err (List Cell × Nat) :=
  match neededMACs hashes keys with
  | [] => .ok (dropSetting cells retiredMACKeysSetting, 0)
  | kept => match boxSeal box retiredMACsAt (.macs kept) with
    | .error e => .error (.wrapped ("encrypt " ++ retiredMACsAt.string) e)
    | .ok s => .ok (putSetting cells retiredMACKeysSetting s, kept.length)

/-- Adds the MAC key of the old secret key, with the ID `macID` gives it. -/
def retireImportedKeyMAC (macID : Bytes → String) (next : Key) (skipped hashes : List String)
    (mac : Bytes) (cells : List Cell) : Except Err (List Cell × Nat) :=
  match if retiredMACsAt.string ∈ skipped then .ok [] else readRetiredMACs next cells with
  | .error e => .error e
  | .ok keys => writeRetiredMACs next hashes
    (if mac = [] then keys else ⟨macID mac, mac⟩ :: keys.filter fun k => k.kid ≠ macID mac) cells

/-! ## The database -/

/-- The marker of a rotation in progress. -/
structure KeyRotation where
  oldFingerprint : String
  newFingerprint : String
  startedAt : Int
  actor : String := ""
  approvalID : String := ""
  deriving DecidableEq

structure RetiredInstall where
  installID : String
  retiredAt : Int
  prunedAt : Option Int := none
  deriving DecidableEq

structure Database where
  cells : List Cell
  marker : Option KeyRotation := none
  sessions : List String := []
  apiKeyHashes : List String := []
  retiredInstalls : List RetiredInstall := []
  deriving DecidableEq

/-- What `RotateSecretBox` is asked for. -/
structure SecretKeyRotation where
  next : Key
  retiredImportedKeyMAC : Bytes := []
  retiredInstallID : String := ""

structure KeyRotationResult where
  resealed : Nat
  sessionsRevoked : Nat
  skipped : List String
  deriving DecidableEq

/-- The re-sealing transaction up to its commit. -/
def reseal (macID : Bytes → String) (old : Key) (r : SecretKeyRotation) (now : Int) (db : Database) :
    Except Err (Database × KeyRotationResult) := do
  let a ← resealAll old r.next db.cells
  let (cells, kept) ← retireImportedKeyMAC macID r.next a.skipped db.apiKeyHashes
    r.retiredImportedKeyMAC a.cells
  let installs := if r.retiredInstallID = "" then db.retiredInstalls
    else db.retiredInstalls ++ [⟨r.retiredInstallID, now, none⟩]
  return ({ db with cells := cells, sessions := [], retiredInstalls := installs },
    ⟨a.resealed - a.skipped.length + (if kept > 0 then 1 else 0), db.sessions.length, a.skipped⟩)

def keyCheckAt : Binding := ⟨tableSettings, keyCheckSetting, fieldSettingValue⟩

/-- Whether `box` opens the stored key check value. -/
def keyCheckOpens (db : Database) (box : Key) : Except Err Bool :=
  match setting db.cells keyCheckSetting with
  | none => .error (.fault "sql: no rows in result set")
  | some v => .ok (match boxOpen box keyCheckAt v with
    | .ok p => decide (p = .text keyCheckPlaintext)
    | .error _ => false)

/-- Verifies the key against the stored key check value, creating it on first use. -/
def checkSecretKey (box : Key) (db : Database) : Except Err Database :=
  match setting db.cells keyCheckSetting with
  | some v =>
    if !v.isSealed then .error (.unsealedSecret keyCheckAt)
    else match boxOpen box keyCheckAt v with
      | .ok p => if p = .text keyCheckPlaintext then .ok db else .error .mismatch
      | .error _ => .error .mismatch
  | none =>
    -- the queries leave approval requests and the retired MAC keys out
    if db.cells.any fun c => c.table ≠ tableApprovals && !c.isSetting retiredMACKeysSetting &&
        c.boundField.isSome && c.value.looksSealed then
      .error .mismatch
    else do
      let v ← boxSeal box keyCheckAt (.text keyCheckPlaintext)
      return { db with cells := putSetting db.cells keyCheckSetting v }

/-- `unsealedSecretQueries`: the fields that must be sealed, the TLS client keys apart, and the name the
error gives them. -/
def mustBeSealed (c : Cell) : Option String :=
  if c.table = tableConnections then
    if c.path = "$.uri" then some "uri"
    else if c.path = "$.post_restore_sealed" then some "post_restore_sealed"
    else none
  else c.boundField

/-- `verifySecretsSealed`: no such field holds plaintext or a legacy value. -/
def verifySecretsSealed (db : Database) : Except Err Unit :=
  match db.cells.findSome? fun c => (mustBeSealed c).bind fun field =>
    if c.value.isEmpty || c.value.isSealed then none else some (c.binding field) with
  | some loc => .error (.unsealedSecret loc)
  | none => .ok ()

/-- What `OpenSQLite` does with the key of an upgraded database. -/
def openStore (box : Key) (db : Database) : Except Err Database := do
  let db' ← checkSecretKey box db
  verifySecretsSealed db'
  return db'

end MongoRescue.Rotation
