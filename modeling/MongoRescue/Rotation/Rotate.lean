import MongoRescue.Rotation.Vault
import MongoRescue.Lib.Crash

/-!
# Rotating the secret key

`internal/keyrotation`: `RotateAs` moves the three key files, the marker in the database and the sealed
values in separate steps, and `Open` settles at the next start what a stop left. Each call below takes
effect in one step: file writes, renames and removals are atomic and durable, and so is the re-sealing
transaction. A call that fails may have taken effect (a rename whose directory could not be synced, a
commit that reports an error).

A life of the application (`life`) loads the key, opens the database and serves requests, of which
only those that touch the key files are kept: rotations, one at a time, and forgetting the previous key.
-/

namespace MongoRescue.Rotation

open Go (Bytes)
open Conc (Proc)

/-! ## Calls -/

inductive Path
  | current
  | next
  | previous
  deriving DecidableEq

/-- What is on disk: the key files (plain, or wrapped by a KMS that unwraps what it wrapped) and the
metadata database. -/
structure Disk where
  current : Option Key := none
  next : Option Key := none
  previous : Option Key := none
  db : Database
  deriving DecidableEq

namespace Disk

def file (d : Disk) : Path → Option Key
  | .current => d.current
  | .next => d.next
  | .previous => d.previous

def readKey (d : Disk) (p : Path) : Except Err Key :=
  match d.file p with
  | none => .error .notExist
  | some k => .ok k

def setFile (d : Disk) (p : Path) (k : Option Key) : Disk :=
  match p with
  | .current => { d with current := k }
  | .next => { d with next := k }
  | .previous => { d with previous := k }

def setMarker (d : Disk) (m : Option KeyRotation) : Disk := { d with db := { d.db with marker := m } }

end Disk

/-- How the re-sealing transaction ended: rolled back before its commit, committed, or with a commit
that reported an error. -/
inductive Commit
  | rolledBack (e : Err)
  | committed (r : KeyRotationResult)
  | reported (e : Err) (r : KeyRotationResult)

inductive Op
  | keyFileExists (p : Path)
  | readKey (p : Path)
  | writeKey (p : Path) (k : Key)
  | installKeyFile (src dst : Path)
  | removeKeyFile (p : Path)
  | openSQLite (box : Key)
  | pendingKeyRotation
  | beginKeyRotation (m : KeyRotation)
  | endKeyRotation
  | transaction (old : Key) (r : SecretKeyRotation) (now : Int)
  | keyCheckOpens (box : Key)
  | announce

def Ans : Op → Type
  | .keyFileExists _ => Except Err Bool
  | .readKey _ => Except Err Key
  | .writeKey _ _ => Except Err Unit
  | .installKeyFile _ _ => Except Err Unit
  | .removeKeyFile _ => Except Err Unit
  | .openSQLite _ => Except Err Unit
  | .pendingKeyRotation => Except Err (Option KeyRotation)
  | .beginKeyRotation _ => Except Err Unit
  | .endKeyRotation => Except Err Unit
  | .transaction _ _ _ => Commit
  | .keyCheckOpens _ => Except Err Bool
  | .announce => Unit

def calls : Conc.Sig := ⟨Op, Ans⟩

abbrev Act := Proc calls

def call (o : Op) : Act (Ans o) := Proc.op (S := calls) o

namespace Call

def keyFileExists (p : Path) : Act (Except Err Bool) := call (Op.keyFileExists p)

def readKey (p : Path) : Act (Except Err Key) := call (Op.readKey p)

def writeKey (p : Path) (k : Key) : Act (Except Err Unit) := call (Op.writeKey p k)

def installKeyFile (src dst : Path) : Act (Except Err Unit) :=
  call (Op.installKeyFile src dst)

def removeKeyFile (p : Path) : Act (Except Err Unit) := call (Op.removeKeyFile p)

def openSQLite (box : Key) : Act (Except Err Unit) := call (Op.openSQLite box)

def pendingKeyRotation : Act (Except Err (Option KeyRotation)) :=
  call Op.pendingKeyRotation

def beginKeyRotation (m : KeyRotation) : Act (Except Err Unit) :=
  call (Op.beginKeyRotation m)

def endKeyRotation : Act (Except Err Unit) := call Op.endKeyRotation

def transaction (old : Key) (r : SecretKeyRotation) (now : Int) : Act Commit :=
  call (Op.transaction old r now)

def keyCheckOpens (box : Key) : Act (Except Err Bool) := call (Op.keyCheckOpens box)

def announce : Act Unit := call Op.announce

end Call

/-- The environment's part in a call: whether it fails, whether it took effect all the same, and for a
transaction whether it was its commit that failed. -/
structure Env where
  fail : Bool := false
  took : Bool := false
  commit : Bool := false
  text : String := ""

/-- No call fails. -/
def quiet : Env := {}

def Env.err (e : Env) : Err := .fault e.text

/-- A change of the disk that may fail. -/
def change (e : Env) (d d' : Disk) : Disk × Except Err Unit :=
  if e.fail then (if e.took then d' else d, .error e.err) else (d', .ok ())

/-- A read that may fail. -/
def answer {α : Type} (e : Env) (d : Disk) (a : Except Err α) : Disk × Except Err α :=
  (d, if e.fail then .error e.err else a)

/-- The functions that the rest of the application and `crypto/hkdf` give the rotation. -/
structure Config where
  fingerprint : Key → String
  macID : Bytes → String
  retiredMAC : Option (Key → Except Err Bytes) := none
  retiredInstallID : Option (Key → Except Err String) := none

section

variable (cfg : Config)

def device : Crash.Device calls Disk Env
  | .keyFileExists p, d, e => answer e d (.ok (d.file p).isSome)
  | .readKey p, d, e => answer e d (d.readKey p)
  | .writeKey p k, d, e => change e d (d.setFile p (some k))
  | .installKeyFile src dst, d, e =>
    match d.file src with
    | none => (d, .error .notExist)
    | some k => change e d ((d.setFile dst (some k)).setFile src none)
  | .removeKeyFile p, d, e => change e d (d.setFile p none)
  | .openSQLite box, d, e =>
    match openStore box d.db with
    | .error err => answer e d (.error err)
    | .ok db => change e d { d with db := db }
  | .pendingKeyRotation, d, e => answer e d (.ok d.db.marker)
  | .beginKeyRotation m, d, e =>
    if m.oldFingerprint = "" ∨ m.newFingerprint = "" then
      (d, .error (.invalidRecord "key rotation marker needs both fingerprints"))
    else match d.db.marker with
      | some _ => answer e d (.error .keyRotationPending)
      | none => change e d (d.setMarker (some m))
  | .endKeyRotation, d, e => change e d (d.setMarker none)
  | .transaction old r now, d, e =>
    match reseal cfg.macID old r now d.db with
    | .error err => (d, .rolledBack (.wrapped "store: rotate secret key" err))
    | .ok (db, res) =>
      if !e.fail then ({ d with db := db }, .committed res)
      else if e.took then ({ d with db := db }, .reported e.err res)
      else if e.commit then (d, .reported e.err res)
      else (d, .rolledBack e.err)
  | .keyCheckOpens box, d, e => answer e d (keyCheckOpens d.db box)
  | .announce, d, _ => (d, ())

/-! ## Opening the database -/

inductive Outcome
  | none
  | completed
  | rolledBack
  deriving DecidableEq

structure Opened where
  key : Key
  outcome : Outcome := .none
  /-- The marker of the rotation that this start completed. -/
  completed : Option KeyRotation := none
  marker : Option KeyRotation := none

/-- `LoadKey`: the key of the environment, or of the key file, which is created on first start. -/
def loadKey (env : Option Key) (fresh : Key) : Act (Except Err Key) :=
  match env with
  | some k => return .ok k
  | none => do
    match ← Call.readKey .current with
    | .ok k => return .ok k
    | .error .notExist => do
      match ← Call.writeKey .current fresh with
      | .error e => return .error e
      | .ok () => return .ok fresh
    | .error e => return .error e

/-- Cleans up after a rotation when `secret.key` opened the database. -/
def settleOpened (key : Key) : Act (Except Err (Outcome × Option KeyRotation)) := do
  match ← Call.pendingKeyRotation with
  | .error e => return .error e
  | .ok none =>
    -- a next key without a marker belongs to no rotation
    match ← Call.removeKeyFile .next with
    | .error e => return .error e
    | .ok () => return .ok (.none, none)
  | .ok (some m) =>
    match ← Call.removeKeyFile .next with
    | .error e => return .error e
    | .ok () =>
      match ← Call.endKeyRotation with
      | .error e => return .error e
      | .ok () =>
        if cfg.fingerprint key = m.newFingerprint then return .ok (.completed, some m)
        else return .ok (.rolledBack, some m)

/-- Opens the database with the key file at `p` and keeps it when the marker matches. -/
def tryCandidate (p : Path) (isMatch : KeyRotation → String → Bool) :
    Act (Except Err (Option Opened)) := do
  match ← Call.keyFileExists p with
  | .error e => return .error e
  | .ok false => return .ok none
  | .ok true =>
    match ← Call.readKey p with
    | .error e => return .error e
    | .ok key =>
      match ← Call.openSQLite key with
      | .error .mismatch => return .ok none
      | .error e => return .error e
      | .ok () =>
        match ← Call.pendingKeyRotation with
        | .error e => return .error e
        | .ok none => return .ok none
        | .ok (some m) =>
          if isMatch m (cfg.fingerprint key) then return .ok (some { key := key, marker := some m })
          else return .ok none

/-- Finishes a rotation whose transaction committed. -/
def completeInstall (old : Key) : Act (Except Err Unit) := do
  match ← Call.writeKey .previous old with
  | .error e => return .error e
  | .ok () =>
    match ← Call.installKeyFile .next .current with
    | .error e => return .error e
    | .ok () => Call.endKeyRotation

/-- Undoes a rotation whose commit was lost. -/
def rollBackInstall (previous : Key) : Act (Except Err Unit) := do
  match ← Call.writeKey .current previous with
  | .error e => return .error e
  | .ok () =>
    match ← Call.removeKeyFile .next with
    | .error e => return .error e
    | .ok () =>
      match ← Call.removeKeyFile .previous with
      | .error e => return .error e
      | .ok () => Call.endKeyRotation

/-- The next key is the new key of a rotation from the current one. -/
def installsNext (curFP : String) (m : KeyRotation) (fp : String) : Bool :=
  m.oldFingerprint = curFP && m.newFingerprint = fp

/-- The previous key is the old key of a rotation to the current one. -/
def restoresPrevious (curFP : String) (m : KeyRotation) (fp : String) : Bool :=
  m.oldFingerprint = fp && m.newFingerprint = curFP

/-- What `Open` does when the current key does not match the database. -/
def openMismatched (key : Key) : Act (Except Err Opened) := do
  let curFP := cfg.fingerprint key
  match ← tryCandidate cfg .next (installsNext curFP) with
  | .error e => return .error e
  | .ok (some opened) =>
    match ← completeInstall key with
    | .error e => return .error e
    | .ok () => return .ok { opened with outcome := .completed, completed := opened.marker }
  | .ok none =>
    match ← tryCandidate cfg .previous (restoresPrevious curFP) with
    | .error e => return .error e
    | .ok (some opened) =>
      match ← rollBackInstall opened.key with
      | .error e => return .error e
      | .ok () => return .ok { opened with outcome := .rolledBack }
    | .ok none => return .error .mismatch

/-- `Open`. -/
def openDatabase (key : Key) (fromEnv : Bool) : Act (Except Err Opened) := do
  match ← Call.openSQLite key with
  | .ok () =>
    if fromEnv then return .ok { key := key }
    else
      match ← settleOpened cfg key with
      | .error e => return .error e
      | .ok (outcome, m) =>
        return .ok { key := key, outcome := outcome, completed := if outcome = .completed then m else none }
  | .error .mismatch => if fromEnv then return .error .mismatch else openMismatched cfg key
  | .error e => return .error e

/-! ## Rotating -/

structure Result where
  oldFingerprint : String
  newFingerprint : String
  resealed : Nat
  sessionsRevoked : Nat
  skipped : List String
  rotatedAt : Option Int := none

/-- A request to rotate, with the key `GenerateKey` returned for it. -/
structure Request where
  next : Key
  actor : String := ""
  approvalID : String := ""
  announces : Bool := false
  now : Int := 0

/-- What `RotateAs` returned, and the key the process holds afterwards. -/
structure Rotated where
  result : Option Result := none
  err : Option Err := none
  key : Key

/-- `store.RotateSecretBox`: a failed commit does not prove that nothing was written, the key check
value does. -/
def rotateSecretBox (old : Key) (r : SecretKeyRotation) (now : Int) :
    Act (Except Err KeyRotationResult) := do
  match ← Call.transaction old r now with
  | .rolledBack e => return .error e
  | .committed res => return .ok res
  | .reported e res =>
    match ← Call.keyCheckOpens r.next with
    | .error _ => return .error .commitUncertain
    | .ok false => return .error (.wrapped "store: rotate secret key: commit" e)
    | .ok true => return .ok res

/-- The end of `abort`: the next key and the marker go, and failures are only logged. -/
def discardNext : Act Unit := do
  let _ ← Call.removeKeyFile .next
  let _ ← Call.endKeyRotation
  return ()

/-- Undoes a rotation that never committed; when `old` is set, only if it still opens the database. -/
def abort (old : Option Key) : Act (Except Err Unit) := do
  match old with
  | none =>
    discardNext
    return .ok ()
  | some k =>
    match ← Call.keyCheckOpens k with
    | .ok true =>
      discardNext
      return .ok ()
    | .ok false => return .error .incomplete
    | .error _ => return .error .incomplete

/-- The steps of `RotateAs` once the database uses the new key. -/
def installNew (old : Key) (req : Request) (res : KeyRotationResult) : Act Rotated := do
  let result : Result :=
    { oldFingerprint := cfg.fingerprint old, newFingerprint := cfg.fingerprint req.next,
      resealed := res.resealed, sessionsRevoked := res.sessionsRevoked, skipped := res.skipped }
  match ← Call.writeKey .previous old with
  | .error _ => return { result := some result, err := some .incomplete, key := req.next }
  | .ok () =>
    match ← Call.installKeyFile .next .current with
    | .error _ => return { result := some result, err := some .incomplete, key := req.next }
    | .ok () =>
      if req.announces then
        let _ ← Call.announce
        let _ ← Call.endKeyRotation
        return { result := some { result with rotatedAt := some req.now }, key := req.next }
      else
        let _ ← Call.endKeyRotation
        return { result := some { result with rotatedAt := some req.now }, key := req.next }

/-- The steps of `RotateAs` once the marker is stored. -/
def rotateMarked (old : Key) (mac : Bytes) (install : String) (req : Request) : Act Rotated := do
  match ← Call.writeKey .next req.next with
  | .error e =>
    -- nothing was re-sealed yet
    let _ ← abort none
    return { err := some e, key := old }
  | .ok () =>
    match ← rotateSecretBox old ⟨req.next, mac, install⟩ req.now with
    | .ok res => installNew cfg old req res
    -- never discard the only copy of a key the database may already use
    | .error .commitUncertain => return { err := some .incomplete, key := old }
    | .error e =>
      match ← abort (some old) with
      | .error e' => return { err := some e', key := old }
      | .ok () => return { err := some e, key := old }

/-- What the application derives from the key that is replaced. -/
def retire (old : Key) : Except Err (Bytes × String) := do
  let mac ← match cfg.retiredMAC with | none => .ok [] | some f => f old
  let install ← match cfg.retiredInstallID with | none => .ok "" | some f => f old
  return (mac, install)

/-- `RotateAs` with the key `old` in use. -/
def rotateAs (haMode fromEnv : Bool) (old : Key) (req : Request) : Act Rotated :=
  if haMode then return { err := some .haMode, key := old }
  else if fromEnv then return { err := some .envKey, key := old }
  else match retire cfg old with
    | .error e => return { err := some e, key := old }
    | .ok (mac, install) => do
      match ← Call.beginKeyRotation
          { oldFingerprint := cfg.fingerprint old, newFingerprint := cfg.fingerprint req.next,
            startedAt := req.now, actor := req.actor, approvalID := req.approvalID } with
      | .error .keyRotationPending => return { err := some .pending, key := old }
      | .error e => return { err := some e, key := old }
      | .ok () => rotateMarked cfg old mac install req

/-! ## Lives -/

inductive Job
  | rotate (req : Request)
  | forgetPreviousKey

/-- How the application is started, and what it is asked for. -/
structure Boot where
  /-- `MONGORESCUE_SECRET_KEY`. -/
  env : Option Key := none
  /-- The key that is generated when there is no key file. -/
  fresh : Key
  haMode : Bool := false
  jobs : List Job := []

def serve (haMode fromEnv : Bool) (key : Key) : List Job → Act Unit
  | [] => return ()
  | .rotate req :: jobs => do
    let r ← rotateAs cfg haMode fromEnv key req
    serve haMode fromEnv r.key jobs
  | .forgetPreviousKey :: jobs => do
    let _ ← Call.removeKeyFile .previous
    serve haMode fromEnv key jobs

/-- The start of the application. -/
def start (env : Option Key) (fresh : Key) : Act (Except Err Opened) := do
  match ← loadKey env fresh with
  | .error e => return .error e
  | .ok key => openDatabase cfg key env.isSome

def life (b : Boot) : Act Unit := do
  match ← start cfg b.env b.fresh with
  | .error _ => return ()
  | .ok opened => serve cfg b.haMode b.env.isSome opened.key b.jobs

end

end MongoRescue.Rotation
