import MongoRescue.HA.Lease

/-!
# The lease manager of one instance

`internal/ha/manager.go`. An operation of the manager (`Step`, `Confirm`, `RecordSnapshot`,
`StepDown`, `Release`) is cut where it waits: for a storage call or for `EpochFloor`. Each piece is
a function of the manager, of what it waited for and of the clocks it reads:

* `renew` = `renewSend`, then `renewAnswer` with the answer of `ReplaceIfMatch`;
* `observe` = `observeAnswer` with the answer of `ReadVersioned`, then possibly `acquireSend` with
  the answer of `EpochFloor` and `acquireAnswer` with the answer of the conditional write;
* `releaseLocked` = `releaseSend`, then `releaseAnswer`; the `stepDown` after it is a piece of its
  own, since `releaseAnswer` moves the deadline and `check` may run before the role changes.

`m.opMu` lets only one operation be under way; `check` reads the manager at any time.
-/

namespace MongoRescue.HA

open Go (Bytes)

/-! ## Configuration -/

def minTTL : Int := 5 * Go.second

def maxTTL : Int := 600 * Go.second

def minRenew : Int := Go.second

inductive ConfigErr
  /-- a lease store and an instance ID are required -/
  | missing
  /-- the cluster name must be 1-63 lowercase letters, digits, '.', '_' or '-' -/
  | cluster (name : String)
  /-- the lease TTL must be 5s to 10m0s -/
  | ttl
  /-- the renew interval must be at least 1s -/
  | renew
  /-- the renew interval must be below half the lease TTL -/
  | half (renew ttl : Int)
  deriving DecidableEq

def validateTiming (ttl renew : Int) : Except ConfigErr Unit :=
  if ttl < minTTL ∨ ttl > maxTTL then .error .ttl
  else if renew < minRenew then .error .renew
  else if Go.wrap64 (2 * renew) ≥ ttl then .error (.half renew ttl)
  else .ok ()

def clusterLead (c : Char) : Bool := ('a' ≤ c && c ≤ 'z') || ('0' ≤ c && c ≤ '9')

def validateCluster (name : String) : Except ConfigErr Unit :=
  match name.toList with
  | [] => .error (.cluster name)
  | c :: cs =>
    if clusterLead c && cs.length ≤ 62 &&
        cs.all fun d => clusterLead d || d = '.' || d = '_' || d = '-'
    then .ok () else .error (.cluster name)

structure Config where
  cluster : String
  instanceID : String
  instanceName : String := ""
  keyID : String := ""
  /-- `none` signs nothing and trusts every readable lease. -/
  macKey : Option Bytes := none
  ttl : Int
  renew : Int
  /-- `EpochFloor` is set. -/
  epochFloor : Bool := false
  deriving DecidableEq

/-- What `New` checks. -/
def Config.validate (c : Config) : Except ConfigErr Unit :=
  if c.instanceID = "" then .error .missing
  else match validateCluster c.cluster with
    | .error e => .error e
    | .ok () => validateTiming c.ttl c.renew

/-! ## State -/

/-- A version of the lease object. The source's empty version is `none`. -/
abbrev Version := Nat

inductive LeaseTrust
  | absent
  | authentic
  | untrusted
  deriving DecidableEq

/-- The lease that the held lease replaced. -/
structure Predecessor where
  trust : LeaseTrust := .absent
  lease : Lease := {}
  reason : String := ""
  legacy : Bool := false
  mark : SnapshotMark := {}
  deriving DecidableEq

/-- The errors `lastErr` names. -/
inductive LeaseErr
  | preconditionFailed
  | storage
  | encode
  | decode
  | keyMismatch
  | epochFloor
  deriving DecidableEq

/-- A manager; its configuration is one that `New` accepts. -/
structure Manager where
  cfg : Config
  valid : cfg.validate = .ok ()
  role : Role := .standby
  lease : Lease := {}
  version : Option Version := none
  /-- When the last successful write of the held lease was sent, on the monotonic clock. -/
  sentAt : Int := Go.zeroTime
  sentWall : Int := Go.zeroTime
  seen : Lease := {}
  seenVersion : Option Version := none
  /-- When `seenVersion` was first observed. -/
  seenAt : Int := Go.zeroTime
  seenEpoch : UInt64 := 0
  cooldownUntil : Int := Go.zeroTime
  healthy : Bool := false
  lastErr : Option LeaseErr := none
  keyMismatch : Bool := false
  leaseErrors : UInt64 := 0
  takeovers : UInt64 := 0
  fresh : Bool := false
  retrying : Bool := false
  signed : Bool := false
  pred : Predecessor := {}
  seenMark : SnapshotMark := {}
  /-- `OnAuthenticLease` has been called. -/
  noted : Bool := false
  deriving DecidableEq

/-- `New`: a standby manager. -/
def Manager.new (cfg : Config) : Except ConfigErr Manager :=
  match h : cfg.validate with
  | .error e => .error e
  | .ok () => .ok { cfg, valid := h }

/-- The clock readings of one piece of an operation: the monotonic clock, the wall clock, the wall
clock as it stamps `RenewedAt`, and how much later a step-down reads the monotonic clock again. -/
structure Clocks where
  now : Int
  wall : Int
  stamp : Int
  late : Nat := 0
  deriving DecidableEq

inductive ReadAnswer
  | notFound
  | failed
  | found (data : Content) (version : Version)
  deriving DecidableEq

inductive WriteAnswer
  | ok (version : Version)
  | preconditionFailed
  | failed
  deriving DecidableEq

inductive FloorAnswer
  | unset
  | failed
  | ok (floor : UInt64)
  deriving DecidableEq

namespace Manager

/-! ## The fencing check -/

def deadline (m : Manager) : Int := m.sentAt + (m.cfg.ttl - m.cfg.renew)

/-- The step-down deadline has passed on either clock. -/
def expired (m : Manager) (now wall : Int) : Bool :=
  !(decide (now < m.deadline)) ||
    decide (Go.timeSub wall m.sentWall ≥ m.cfg.ttl - m.cfg.renew)

def check (m : Manager) (now wall : Int) : Except Err Unit :=
  if m.role ≠ .active ∨ m.expired now wall then .error .notActive else .ok ()

/-! ## Shared pieces -/

def recordError (m : Manager) (e : LeaseErr) : Manager :=
  { m with leaseErrors := m.leaseErrors + 1, healthy := false, lastErr := some e }

/-- Makes the instance a standby without touching the lease. -/
def stepDown (m : Manager) (cooldown : Bool) (now : Int) : Manager :=
  if m.role ≠ .active then m
  else { m with
    role := .standby, seen := m.lease, seenVersion := m.version, seenAt := m.sentAt
    cooldownUntil := if cooldown then now + m.cfg.ttl else m.cooldownUntil }

section
variable (hmac : Bytes → String → Bytes)

def authentic (m : Manager) (l : Lease) : Bool :=
  match m.cfg.macKey with
  | none => true
  | some key => l.authentic hmac key

def noteAuthentic (m : Manager) (l : Lease) : Manager :=
  match m.cfg.macKey with
  | none => m
  | some key => if l.authentic hmac key then { m with noted := true } else m

def encode (m : Manager) (l : Lease) (signed : Bool) : Option Content :=
  let l := { l with mac := "" }
  match signed, m.cfg.macKey with
  | true, some key => (l.sign hmac key).encode
  | _, _ => l.encode

/-- What the lease content `prev` (`none`: no lease existed) is worth. -/
def assess (m : Manager) (prev : Option Content) : Predecessor :=
  match prev with
  | none => { trust := .absent, mark := m.seenMark }
  | some data =>
    match decodeLease data with
    | none => { trust := .untrusted, mark := m.seenMark, reason := "the lease is unreadable" }
    | some l =>
      if !m.authentic hmac l && l.mac = "" then
        { trust := .untrusted, lease := l, legacy := true, mark := m.seenMark
          reason := "the lease has no MAC (written by an earlier version, by an instance whose " ++
            "takeover did not complete, or by someone without secret.key)" }
      else if !m.authentic hmac l then
        { trust := .untrusted, lease := l, mark := m.seenMark
          reason := "the lease's MAC does not match its content (altered, or written without " ++
            "secret.key)" }
      else { trust := .authentic, lease := l, mark := laterMark m.seenMark l.snapshotMark }

/-! ## Renewing -/

/-- The write a renewal has sent: the new lease, and both clocks before it was sent. -/
structure Renewal where
  next : Lease
  now : Int
  wall : Int
  deriving DecidableEq

/-- `renew` up to its storage call: the `ReplaceIfMatch` of the returned content, or no call. -/
def renewSend (m : Manager) (c : Clocks) : Manager × Option (Renewal × Content) :=
  if m.expired c.now c.wall then (m.stepDown true (c.now + c.late), none)
  else
    let next := { m.lease with seq := m.lease.seq + 1, renewedAt := c.stamp }
    match m.encode hmac next m.signed with
    | none => (m.recordError .encode, none)
    | some data => (m, some (⟨next, c.now, c.wall⟩, data))

def renewAnswer (m : Manager) (r : Renewal) (ans : WriteAnswer) (c : Clocks) : Manager :=
  match ans with
  | .ok v =>
    { m with
      lease := r.next, version := some v, sentAt := r.now, sentWall := r.wall
      healthy := true, lastErr := none, retrying := false }
  | .preconditionFailed =>
    (m.recordError .preconditionFailed).stepDown true (c.now + c.late)
  | .failed =>
    let m := m.recordError .storage
    let expired := m.expired c.now c.wall
    let m := { m with retrying := !expired }
    if expired then m.stepDown true (c.now + c.late) else m

/-! ## Observing and acquiring -/

/-- The arguments of `acquire`; `prev` is the lease to replace with its version, if any. -/
structure Acquire where
  epoch : UInt64
  seq : UInt64
  prev : Option (Content × Version)
  deriving DecidableEq

/-- The part of `observe` after a lease was read; `lease` is empty when `data` is unreadable. -/
def observeFound (m : Manager) (data : Content) (version : Version) (now : Int) :
    Manager × Option Acquire :=
  let m := match decodeLease data with
    | some l => { m.noteAuthentic hmac l with healthy := true, lastErr := none }
    | none => { m with healthy := true, lastErr := some .decode }
  let lease := (decodeLease data).getD {}
  if lease.keyID ≠ "" ∧ m.cfg.keyID ≠ "" ∧ lease.keyID ≠ m.cfg.keyID then
    ({ m with keyMismatch := true, lastErr := some .keyMismatch }, none)
  else
    let m := { m with keyMismatch := false }
    let m := if (decodeLease data).isSome && m.authentic hmac lease
      then { m with seenMark := laterMark m.seenMark lease.snapshotMark } else m
    let m := if some version ≠ m.seenVersion
      then { m with seen := lease, seenVersion := some version, seenAt := now } else m
    let m := if lease.epoch > m.seenEpoch then { m with seenEpoch := lease.epoch } else m
    let cooling := decide (now < m.cooldownUntil)
    let released := (decodeLease data).isSome && lease.released
    let expired := released || decide (Go.timeSub now m.seenAt ≥ max m.cfg.ttl lease.ttl)
    if cooling || !expired then (m, none)
    else (m, some ⟨m.seenEpoch + 1, lease.seq + 1, some (data, version)⟩)

/-- `observe` after its read returned; the lease is acquired when it is free or expired. -/
def observeAnswer (m : Manager) (ans : ReadAnswer) (c : Clocks) : Manager × Option Acquire :=
  match ans with
  | .notFound =>
    let m := { m with healthy := true, lastErr := none, seen := {}, seenVersion := none }
    if c.now < m.cooldownUntil then (m, none) else (m, some ⟨m.seenEpoch + 1, 1, none⟩)
  | .failed => (m.recordError .storage, none)
  | .found data version => m.observeFound hmac data version c.now

/-- The write `acquire` has sent. -/
structure Acquisition where
  next : Lease
  epoch : UInt64
  sent : Int
  sentWall : Int
  signed : Bool
  pred : Predecessor
  fresh : Bool
  deriving DecidableEq

/-- The lease `acquire` writes under `epoch`, and its content. -/
def acquireWrite (m : Manager) (a : Acquire) (epoch : UInt64) (c : Clocks) :
    Manager × Option (Acquisition × Content) :=
  let pred := m.assess hmac (a.prev.map (·.1))
  let next : Lease := Lease.withSnapshotMark
    { cluster := m.cfg.cluster, holder := m.cfg.instanceID, holderName := m.cfg.instanceName
      epoch := epoch, seq := a.seq, renewedAt := c.stamp
      ttlSeconds := m.cfg.ttl.tdiv Go.second, keyID := m.cfg.keyID } pred.mark
  -- taken over from a lease that is not authentic, the lease stays unsigned until `Confirm`
  let signed := decide (pred.trust = .authentic)
  match m.encode hmac next signed with
  | none => (m.recordError .encode, none)
  | some data => (m, some (⟨next, epoch, c.now, c.wall, signed, pred, a.prev.isNone⟩, data))

/-- `acquire` up to its storage call: `CreateIfAbsent` when `a.prev` is `none`, else
`ReplaceIfMatch` of the version in it. -/
def acquireSend (m : Manager) (a : Acquire) (floor : FloorAnswer) (c : Clocks) :
    Manager × Option (Acquisition × Content) :=
  match floor with
  | .unset => m.acquireWrite hmac a a.epoch c
  | .failed => (m.recordError .epochFloor, none)
  | .ok f => m.acquireWrite hmac a (max a.epoch (f + 1)) c

def acquireAnswer (m : Manager) (a : Acquisition) (ans : WriteAnswer) : Manager :=
  match ans with
  | .preconditionFailed => m
  | .failed => m.recordError .storage
  | .ok v =>
    let m := { m with
      role := .active, lease := a.next, version := some v, sentAt := a.sent, sentWall := a.sentWall
      seen := a.next, seenVersion := some v, seenAt := a.sent, seenEpoch := a.epoch
      healthy := true, lastErr := none, fresh := a.fresh, retrying := false
      signed := a.signed, pred := a.pred, takeovers := m.takeovers + 1 }
    match a.signed, m.cfg.macKey with
    | true, some key => m.noteAuthentic hmac (a.next.sign hmac key)
    | _, _ => m

/-! ## Confirm, RecordSnapshot, Release -/

/-- `Confirm` before its renewal: the held lease is signed from now on and names `mark`. -/
def confirmBegin (m : Manager) (mark : SnapshotMark) : Except Err Manager :=
  if m.role ≠ .active then .error .notActive
  else .ok { m with
    signed := true
    lease := m.lease.withSnapshotMark (laterMark m.lease.snapshotMark mark) }

/-- `Confirm` after its renewal; `held` is the lease that was to be written. -/
def confirmEnd (m : Manager) (held : Lease) (c : Clocks) : Except Err Manager :=
  match m.check c.now c.wall, m.cfg.macKey with
  | .error e, _ => .error e
  | .ok (), none => .ok m
  | .ok (), some key => .ok (m.noteAuthentic hmac (held.sign hmac key))

/-- `RecordSnapshot` before its renewal; `none` when there is nothing to write. -/
def recordBegin (m : Manager) (mark : SnapshotMark) : Option Manager :=
  if m.role ≠ .active ∨ !m.lease.snapshotMark.before mark then none
  else some { m with lease := m.lease.withSnapshotMark mark }

/-- `releaseLocked` up to its storage call. -/
def releaseSend (m : Manager) (c : Clocks) : Option (Lease × Content) :=
  if m.role ≠ .active then none
  else
    let next := { m.lease with
      holder := "", holderName := "", seq := m.lease.seq + 1, renewedAt := c.stamp }
    (m.encode hmac next m.signed).map fun data => (next, data)

/-- `releaseLocked` after its storage call, which every answer but success fails. -/
def releaseAnswer (m : Manager) (next : Lease) (ans : WriteAnswer) (c : Clocks) : Manager :=
  match ans with
  | .ok v => { m with lease := next, version := some v, sentAt := c.now, sentWall := c.wall }
  | .preconditionFailed => m.recordError .preconditionFailed
  | .failed => m.recordError .storage

end

end Manager

end MongoRescue.HA
