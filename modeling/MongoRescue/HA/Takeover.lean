import MongoRescue.HA.Cluster
import MongoRescue.HA.Snapshot

/-!
# Taking over the metadata

`prepareTakeover` (`internal/app/ha_handover.go`) with the instance's stored state
(`internal/ha/state.go`) and the part of the supervisor around it (`internal/app/ha.go`). `choose`
is the decision, given what was selected; `Member` is one process of an instance: its lease manager,
whose operations go on while the takeover waits for the storage, and the supervisor's phase. All
that others do is in the events: what the lease and the snapshots hold when they are read, and how
writes end.

`Member.read` and `Member.done` are history: the authentic leases this process has read, and the
takeovers that succeeded without an override.
-/

namespace MongoRescue.HA

open Go (Bytes)

def SnapshotMark.isZero (m : SnapshotMark) : Bool := m.epoch = 0 && m.takenAt = Go.zeroTime

/-- The epoch the instance holds, 0 when it is not active. -/
def Manager.epoch (m : Manager) : UInt64 := if m.role = .active then m.lease.epoch else 0

/-! ## The instance's state -/

/-- `ha.json`. -/
structure State where
  instanceID : String
  cluster : String := ""
  lastActiveEpoch : UInt64 := 0
  clusters : String → Option SnapshotMark := fun _ => none
  authenticatedLease : String → Bool := fun _ => false

namespace State

def seen (st : State) (cluster : String) : Bool :=
  (st.clusters cluster).isSome || (st.cluster = cluster && decide (0 < st.lastActiveEpoch))

def highWater (st : State) (cluster : String) : SnapshotMark := (st.clusters cluster).getD {}

def observe (st : State) (cluster : String) (mark : SnapshotMark) (reset : Bool) : State :=
  let mark := if reset then mark else laterMark (st.highWater cluster) mark
  { st with clusters := Function.update st.clusters cluster (some mark) }

def markAuthenticatedLease (st : State) (cluster : String) : State :=
  { st with authenticatedLease := Function.update st.authenticatedLease cluster true }

def sawAuthenticLease (st : State) (cluster : String) : State :=
  if st.authenticatedLease cluster then st
  else (st.markAuthenticatedLease cluster).observe cluster {} false

def recordActiveEpoch (st : State) (cluster : String) (epoch : UInt64) : State :=
  { st with cluster := cluster, lastActiveEpoch := epoch }.observe cluster {} false

end State

/-! ## The decision -/

inductive RollbackReason
  | leaseUntrusted
  | leaseMissing
  | behindLease
  | behindLocal
  | legacy
  | leaseReplayed
  | leaseStale
  deriving DecidableEq

inductive TakeoverErr
  | rollback (reason : RollbackReason)
  /-- no metadata snapshot to take over from -/
  | noSnapshot
  /-- no usable metadata snapshot among those on the HA target -/
  | noneUsable
  deriving DecidableEq

/-- What a takeover does. -/
inductive Plan (cluster : String)
  /-- The first activation of the cluster: the own database is used. -/
  | first
  /-- The newest snapshot is this instance's own, and so is the database that is used. -/
  | keep (newest : SnapshotCheck cluster) (legacy : Bool)
  | restore (newest : SnapshotCheck cluster) (legacy : Bool)
  deriving DecidableEq

namespace Plan

variable {cluster : String}

def legacy : Plan cluster → Bool
  | .first => false
  | .keep _ legacy => legacy
  | .restore _ legacy => legacy

/-- The mark the takeover confirms; the name of a legacy snapshot is not authenticated. -/
def mark : Plan cluster → SnapshotMark
  | .first => {}
  | .keep newest legacy => if legacy then {} else newest.info.mark
  | .restore newest legacy => if legacy then {} else newest.info.mark

end Plan

section
variable {cluster : String}

/-- What the replaced lease is worth when snapshots are listed. -/
def checkPredecessor (pred : Predecessor) (sel : SnapshotSelection cluster) (st : State) :
    Except TakeoverErr Unit :=
  match pred.trust with
  | .absent => .error (.rollback .leaseMissing)
  | .untrusted =>
    if !pred.legacy then .error (.rollback .leaseUntrusted)
    else if sel.headerSeen then .error (.rollback .leaseUntrusted)
    else if st.authenticatedLease cluster then .error (.rollback .leaseUntrusted)
    else .ok ()
  | .authentic => .ok ()

/-- The refusals of a candidate that could roll the metadata back. -/
def checkNewest (pred : Predecessor) (high : SnapshotMark) (newest : SnapshotCheck cluster)
    (rest : List (SnapshotCheck cluster)) (legacy : Bool) : Except TakeoverErr Unit :=
  if !legacy && pred.trust = .authentic && newest.header.any (·.epoch > pred.lease.epoch) then
    .error (.rollback .leaseReplayed)
  else if !legacy && pred.trust = .authentic &&
      rest.head?.any (fun second => pred.lease.snapshotMark.before second.info.mark) then
    .error (.rollback .leaseStale)
  else if legacy && (!pred.mark.isZero || !high.isZero) then .error (.rollback .legacy)
  else if !legacy && newest.info.mark.before pred.mark then .error (.rollback .behindLease)
  else if !legacy && newest.info.mark.before high then .error (.rollback .behindLocal)
  else .ok ()

/-- `prepareTakeover` between the selection and the restore. -/
def choose (pred : Predecessor) (sel : SnapshotSelection cluster) (st : State) :
    Except TakeoverErr (Plan cluster) :=
  if sel.listed = 0 then
    if pred.trust = .absent then
      if st.seen cluster then .error (.rollback .leaseMissing) else .ok .first
    else .error .noSnapshot
  else
    match checkPredecessor pred sel st with
    | .error e => .error e
    | .ok () =>
      match sel.candidates with
      | ([], _) => .error .noneUsable
      | (newest :: rest, legacy) =>
        match checkNewest pred (st.highWater cluster) newest rest legacy with
        | .error e => .error e
        | .ok () =>
          if st.cluster = cluster ∧ newest.info.epoch ≠ 0 ∧
              newest.info.epoch = st.lastActiveEpoch ∧
              (legacy ∨ newest.header.any (·.instanceID = st.instanceID)) then
            .ok (.keep newest legacy)
          else .ok (.restore newest legacy)

end

/-! ## The process -/

/-- A forced takeover that `Override.Validate` accepts: the snapshot to restore, or none to keep the
own database. -/
structure Override where
  cluster : String
  snapshot : Option SnapshotInfo
  deriving DecidableEq

/-- A takeover whose decision is made: what it was made from, and what to do. -/
structure Takeover (cluster : String) where
  pred : Predecessor
  sel : SnapshotSelection cluster
  before : State
  plan : Plan cluster

inductive Job (cluster : String)
  | chosen (t : Takeover cluster)
  | forced (o : Override)

namespace Job

variable {cluster : String}

/-- The snapshot to restore, if any, and whether one without a header is accepted. -/
def source : Job cluster → Option (SnapshotInfo × Bool)
  | .chosen t =>
    match t.plan with
    | .restore newest legacy => some (newest.info, legacy)
    | _ => none
  | .forced o => o.snapshot.map fun info => (info, true)

/-- The mark to confirm, given the header of what was restored. -/
def mark (header : Option SnapshotHeader) : Job cluster → SnapshotMark
  | .chosen t => t.plan.mark
  | .forced o => if header.isSome then (o.snapshot.map (·.mark)).getD {} else {}

def reset : Job cluster → Bool
  | .chosen _ => false
  | .forced _ => true

end Job

/-- A takeover that succeeded: the header of the snapshot it restored, if it has one, and the
authentic leases that the process had read by then. -/
structure Done (cluster : String) extends Takeover cluster where
  header : Option SnapshotHeader
  read : List Lease

/-- Where the supervisor is. -/
inductive Phase (cluster : String)
  /-- `bootstrap`: before it reads the lease, and before it checks the secret key. -/
  | starting
  | checking
  | stopped
  | standby
  /-- `selectForTakeover`. -/
  | selecting (pred : Predecessor) (attempt : Nat)
  /-- `restoreWithRetry`. -/
  | restoring (job : Job cluster) (attempt : Nat)
  /-- `Confirm`: waiting for the operation under way, or for its own write (`sent`). -/
  | confirming (job : Job cluster) (header : Option SnapshotHeader) (sent : Bool)
  | serving

structure Member (cluster : String) where
  mgr : Manager
  /-- What the operation of the manager waits for; requests are not numbered here. -/
  pc : Pc
  state : State
  cache : SnapshotCache cluster
  phase : Phase cluster
  read : List Lease
  done : List (Done cluster)

/-- What the HA target holds during a selection. -/
structure Target where
  objs : List StoredObject
  list : List SnapshotInfo
  retrieve : String → Retrieved

inductive MemberEvent
  /-- `Manager.Observe` at startup. -/
  | observe (ans : ReadAnswer)
  /-- `checkSnapshotKey` at startup; `none` when the snapshots cannot be listed. -/
  | checkKey (t : Option Target)
  /-- An operation of the manager other than `Confirm`, and the answers it gets. -/
  | call (op : Op) (c : Clocks)
  | read (ans : ReadAnswer) (c : Clocks)
  | floor (ans : FloorAnswer) (c : Clocks)
  | write (ans : WriteAnswer) (c : Clocks)
  | leave (c : Clocks)
  /-- `prepareTakeover` begins. -/
  | takeOver (o : Option Override)
  | select (t : Option Target)
  /-- A download of the snapshot, and whether the database could be replaced with it. -/
  | restore (r : Retrieved) (replaced : Bool)
  | confirm (c : Clocks)
  /-- `serveActive` records the epoch. -/
  | activate
  /-- The active instance wrote a snapshot (`OnWritten`). -/
  | written (mark : SnapshotMark)
  /-- The active instance lost the lease. -/
  | lost

/-- `haTakeoverAttempts`. -/
def takeoverAttempts : Nat := 4

namespace Member

variable {cluster : String}

section
variable (hmac : Bytes → String → Bytes)

/-- The authentic leases among what a read returned. -/
def authenticIn (m : Manager) : ReadAnswer → List Lease
  | .found d _ => (decodeLease d).toList.filter fun l => m.authentic hmac l
  | _ => []

/-- The manager goes on; `OnAuthenticLease` is `sawAuthenticLease`. -/
def proceed (s : Member cluster) (q : Piece) : Member cluster :=
  { s with
    mgr := q.mgr, pc := q.pc 0
    state := if q.mgr.noted then s.state.sawAuthenticLease cluster else s.state }

/-- `Manager.Observe` and what `bootstrap` makes of it. -/
def bootstrap (s : Member cluster) (ans : ReadAnswer) : Member cluster :=
  let s := { s with phase := .checking, read := s.read ++ authenticIn hmac s.mgr ans }
  match ans with
  | .notFound => s
  | .failed => s
  | .found d _ =>
    match decodeLease d with
    | none => s
    | some l =>
      if l.keyID ≠ "" ∧ s.mgr.cfg.keyID ≠ "" ∧ l.keyID ≠ s.mgr.cfg.keyID then
        { s with phase := .stopped }
      else
        let st := s.state.observe cluster {} false
        { s with state := if s.mgr.cfg.macKey.any (l.authentic hmac) then
            st.sawAuthenticLease cluster else st }

/-- `checkSnapshotKey`: it fails when no snapshot decrypts. -/
def checkSnapshotKey (s : Member cluster) : Option Target → Member cluster
  | none => { s with phase := .standby }
  | some t =>
    let (sel, cache) := s.cache.select t.list 1 t.retrieve
    let s := { s with
      cache := cache
      state := if 0 < sel.listed then s.state.observe cluster {} false else s.state }
    if !sel.verified.isEmpty || !sel.legacy.isEmpty ||
        sel.refused.any (·.err ≠ some .unreadable) || sel.refused.isEmpty then
      { s with phase := .standby }
    else { s with phase := .stopped }

/-- The selection of a takeover that has read the predecessor `pred`. -/
def selectForTakeover (s : Member cluster) (pred : Predecessor) (attempt : Nat) :
    Option Target → Member cluster
  | none => { s with phase := .standby }
  | some t =>
    let (sel, cache) := s.cache.select t.list 2 t.retrieve
    let s := { s with cache := cache }
    if sel.failedAhead && !sel.failed.isEmpty then
      if attempt ≥ takeoverAttempts then { s with phase := .standby }
      else { s with phase := .selecting pred (attempt + 1) }
    else
      match choose pred sel s.state with
      | .error _ => { s with phase := .standby }
      | .ok plan =>
        let job := Job.chosen ⟨pred, sel, s.state, plan⟩
        match plan with
        | .restore _ _ => { s with phase := .restoring job 1 }
        | _ => { s with phase := .confirming job none false }

/-- One attempt of `restoreWithRetry`. -/
def restoreSnapshot (s : Member cluster) (job : Job cluster) (attempt : Nat) (r : Retrieved)
    (replaced : Bool) : Member cluster :=
  match job.source with
  | none => { s with phase := .confirming job none false }
  | some (info, allowLegacy) =>
    let again : Member cluster :=
      if attempt ≥ takeoverAttempts then { s with phase := .standby }
      else { s with phase := .restoring job (attempt + 1) }
    match openSnapshot cluster info.key r with
    | (some .storage, _) => again
    | (some _, _) => { s with phase := .standby }
    | (none, none) =>
      if !allowLegacy then { s with phase := .standby }
      else if replaced then { s with phase := .confirming job none false } else again
    | (none, some h) =>
      if replaced then { s with phase := .confirming job (some h) false } else again

/-- The takeover is over once `Confirm` returned: it succeeded if the lease is still held. -/
def finish (s : Member cluster) (job : Job cluster) (header : Option SnapshotHeader) (ok : Bool) :
    Member cluster :=
  if !ok then { s with phase := .standby }
  else
    { s with
      phase := .serving
      done := match job with
        | .chosen t => s.done ++ [⟨t, header, s.read⟩]
        | .forced _ => s.done }

/-- `Confirm` ends: the fencing check, and the last piece of its operation. -/
def confirmEnd (s : Member cluster) (m : Manager) (held : Lease) (job : Job cluster)
    (header : Option SnapshotHeader) (c : Clocks) : Member cluster :=
  finish (s.proceed { mgr := afterRenew hmac m (.confirm held) c }) job header
    (m.confirmEnd hmac held c).isOk

/-- `confirmTakeover`: the high-water mark, then `Confirm` up to its write. -/
def confirmTakeover (s : Member cluster) (job : Job cluster) (header : Option SnapshotHeader)
    (c : Clocks) : Member cluster :=
  let mark := job.mark header
  let s := { s with state := s.state.observe cluster mark job.reset }
  match s.mgr.confirmBegin mark with
  | .error _ => { s with phase := .standby }
  | .ok m =>
    match m.renewSend hmac c with
    | (m', none) => s.confirmEnd hmac m' m.lease job header c
    | (m', some (r, _)) =>
      { s with
        mgr := m', pc := .renewing 0 r (.confirm m.lease), phase := .confirming job header true }

/-- The answer to the write of the operation under way. -/
def writeReturn (s : Member cluster) (ans : WriteAnswer) (c : Clocks) : Option (Member cluster) :=
  match s.phase, s.pc with
  | .confirming job header true, .renewing _ r (.confirm held) =>
    some (s.confirmEnd hmac (s.mgr.renewAnswer r ans c) held job header c)
  | _, _ => (writePiece hmac s.mgr s.pc ans c).map s.proceed

/-- The operation is `Confirm`, which only a takeover calls. -/
def confirms : Op → Bool
  | .confirm _ => true
  | _ => false

def step (s : Member cluster) : MemberEvent → Option (Member cluster)
  | .observe ans =>
    match s.phase with
    | .starting => some (s.bootstrap hmac ans)
    | _ => none
  | .checkKey t =>
    match s.phase with
    | .checking =>
      if t.all fun t => decide (IsListing cluster t.objs t.list) then some (s.checkSnapshotKey t)
      else none
    | _ => none
  | .call op c =>
    match s.phase with
    | .starting => none
    | .checking => none
    | .stopped => none
    | _ =>
      if s.pc ≠ .idle ∨ confirms op then none
      else some (s.proceed (callPiece hmac s.mgr op c))
  | .read ans c =>
    match s.pc with
    | .reading _ =>
      some { s.proceed (readPiece hmac s.mgr ans c) with
        read := s.read ++ authenticIn hmac s.mgr ans }
    | _ => none
  | .floor ans c =>
    match s.pc with
    | .flooring a =>
      if s.mgr.cfg.epochFloor = decide (ans = .unset) then none
      else some (s.proceed (floorPiece hmac s.mgr a ans c))
    | _ => none
  | .write ans c => s.writeReturn hmac ans c
  | .leave c =>
    if s.pc ≠ .leaving then none
    else some (s.proceed { mgr := s.mgr.stepDown true c.now })
  | .takeOver o =>
    match s.phase with
    | .standby =>
      match o.filter (·.cluster = cluster) with
      | some o => some { s with phase := .restoring (.forced o) 1 }
      | none => some { s with phase := .selecting s.mgr.pred 1 }
    | _ => none
  | .select t =>
    match s.phase with
    | .selecting pred attempt =>
      if t.all fun t => decide (IsListing cluster t.objs t.list) then
        some (s.selectForTakeover pred attempt t)
      else none
    | _ => none
  | .restore r replaced =>
    match s.phase with
    | .restoring job attempt => some (s.restoreSnapshot job attempt r replaced)
    | _ => none
  | .confirm c =>
    match s.phase with
    | .confirming job header false =>
      if s.pc ≠ .idle then none else some (s.confirmTakeover hmac job header c)
    | _ => none
  | .activate =>
    match s.phase with
    | .serving =>
      some { s with state := s.state.recordActiveEpoch cluster s.mgr.epoch }
    | _ => none
  | .written mark =>
    match s.phase with
    | .serving => some { s with state := s.state.observe cluster mark false }
    | _ => none
  | .lost =>
    match s.phase with
    | .serving => some { s with phase := .standby }
    | _ => none

end

/-- A process that starts, with any stored state. -/
def Initial (s : Member cluster) : Prop :=
  (∃ cfg, cfg.cluster = cluster ∧ Manager.new cfg = .ok s.mgr) ∧ s.pc = .idle ∧ s.cache = [] ∧
    s.phase = .starting ∧ s.read = [] ∧ s.done = []

end Member

def member (hmac : Bytes → String → Bytes) (cluster : String) :
    Trans.Sys (Member cluster) MemberEvent where
  init := Member.Initial
  step := Member.step hmac

end MongoRescue.HA
