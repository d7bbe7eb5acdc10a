import MongoRescue.HA.Manager
import MongoRescue.Lib.Trans

/-!
# A cluster of lease managers over one lease object

Any number of instances, each running at most one process (a `Manager` in the middle of at most
one operation), over one linearizable compare-and-swap object. Time is global and only grows; the
monotonic clock of a process is the global time plus the process's own offset, and wall clocks read
anything. A conditional write is put on the network when it is sent and takes effect at the store
at any later moment at which its condition holds, or never; the sender may see it fail at any
moment, and sees it succeed only after it took effect. A read takes effect at some moment between
its call and its return. A process may crash at any moment; what it sent stays on the network.

The object may also be deleted or overwritten by hand; `Event.byInstances` excludes that.
-/

namespace MongoRescue.HA

open Go (Bytes)
open Manager (Acquire Acquisition Renewal)

/-- The condition of a write: `CreateIfAbsent`, or `ReplaceIfMatch` of a version. -/
inductive Cond
  | absent
  | matches (v : Option Version)
  deriving DecidableEq

/-- A conditional write on the network. -/
structure Request where
  /-- The process that sent it. -/
  pid : Nat
  /-- When it was sent. -/
  sent : Int
  cond : Cond
  data : Content
  deriving DecidableEq

/-- A write of the lease object, in the order of their effect: by a request, or by hand. -/
structure Commit where
  source : Option (Nat × Request)
  data : Content
  time : Int
  deriving DecidableEq

/-- What follows a renewal in the operation that made it. -/
inductive After
  | nothing
  | confirm (held : Lease)
  deriving DecidableEq

/-- What the operation under way waits for. -/
inductive Pc
  | idle
  /-- `ReadVersioned`, with its answer once the store has read the object. -/
  | reading (served : Option ReadAnswer)
  /-- `EpochFloor`. -/
  | flooring (a : Acquire)
  /-- The write of `acquire`, of `renew` and of `releaseLocked`: a request on the network. -/
  | acquiring (rid : Nat) (a : Acquisition)
  | renewing (rid : Nat) (r : Renewal) (after : After)
  | releasing (rid : Nat) (next : Lease)
  /-- Nothing: `releaseLocked` returned and the `stepDown` after it is still to come. -/
  | leaving
  deriving DecidableEq

/-- A process of an instance; `off` is its monotonic clock's offset from the global time. -/
structure Proc where
  pid : Nat
  off : Int
  mgr : Manager
  pc : Pc
  deriving DecidableEq

structure World (ι : Type) where
  time : Int
  procs : ι → Option Proc
  obj : Option (Content × Version)
  net : List Request
  log : List Commit
  /-- The configurations of the processes started so far, by process number. -/
  started : List Config

inductive Op
  | step
  | confirm (mark : SnapshotMark)
  | recordSnapshot (mark : SnapshotMark)
  | stepDown (release : Bool)
  | release
  deriving DecidableEq

/-- What the environment supplies to a piece of an operation: the wall clock's readings, and the
delay before a step-down reads the monotonic clock. -/
structure Env where
  wall : Int
  stamp : Int
  late : Nat := 0
  deriving DecidableEq

/-- The outcome of a conditional write as its sender sees it. -/
inductive Outcome
  | ok
  | preconditionFailed
  | failed
  deriving DecidableEq

inductive Event (ι : Type)
  | tick (d : Nat)
  | start (i : ι) (cfg : Config) (off : Int)
  | crash (i : ι)
  | call (i : ι) (op : Op) (env : Env)
  /-- The store reads the object for the read under way. -/
  | serve (i : ι)
  | readReturn (i : ι) (failed : Bool) (env : Env)
  | floorReturn (i : ι) (ans : FloorAnswer) (env : Env)
  /-- A request reaches the store and its condition holds. -/
  | commit (rid : Nat)
  | writeReturn (i : ι) (out : Outcome) (env : Env)
  /-- `Release` or `StepDown` changes the role, after `releaseLocked`. -/
  | leave (i : ι) (env : Env)
  | deleteByHand
  | writeByHand (data : Content)

/-- What a piece of an operation leaves: the manager, what it waits for next (given the number of
the request it sends), and the request's condition and content. -/
structure Piece where
  mgr : Manager
  pc : Nat → Pc := fun _ => .idle
  write : Option (Cond × Content) := none

section
variable (hmac : Bytes → String → Bytes)

/-- The end of an operation whose renewal is over. -/
def afterRenew (m : Manager) (after : After) (c : Clocks) : Manager :=
  match after with
  | .nothing => m
  | .confirm held =>
    match m.confirmEnd hmac held c with
    | .ok m' => m'
    | .error _ => m

def renewPiece (m : Manager) (after : After) (c : Clocks) : Piece :=
  match m.renewSend hmac c with
  | (m', none) => { mgr := afterRenew hmac m' after c }
  | (m', some (r, data)) =>
    { mgr := m', pc := fun rid => .renewing rid r after, write := some (.matches m'.version, data) }

def releasePiece (m : Manager) (c : Clocks) : Piece :=
  match m.releaseSend hmac c with
  | none => { mgr := m.stepDown true (c.now + c.late) }
  | some (next, data) =>
    { mgr := m, pc := fun rid => .releasing rid next, write := some (.matches m.version, data) }

/-- The first piece of an operation. -/
def callPiece (m : Manager) (op : Op) (c : Clocks) : Piece :=
  match op with
  | .step =>
    if m.role = .active then renewPiece hmac m .nothing c
    else { mgr := m, pc := fun _ => .reading none }
  | .confirm mark =>
    match m.confirmBegin mark with
    | .error _ => { mgr := m }
    | .ok m' => renewPiece hmac m' (.confirm m'.lease) c
  | .recordSnapshot mark =>
    match m.recordBegin mark with
    | none => { mgr := m }
    | some m' => renewPiece hmac m' .nothing c
  | .stepDown false => { mgr := m.stepDown true (c.now + c.late) }
  | .stepDown true => releasePiece hmac m c
  | .release => releasePiece hmac m c

def readPiece (m : Manager) (ans : ReadAnswer) (c : Clocks) : Piece :=
  match m.observeAnswer hmac ans c with
  | (m', none) => { mgr := m' }
  | (m', some a) => { mgr := m', pc := fun _ => .flooring a }

def floorPiece (m : Manager) (a : Acquire) (ans : FloorAnswer) (c : Clocks) : Piece :=
  match m.acquireSend hmac a ans c with
  | (m', none) => { mgr := m' }
  | (m', some (acq, data)) =>
    { mgr := m', pc := fun rid => .acquiring rid acq
      write := some (match a.prev with
        | none => .absent
        | some (_, v) => .matches (some v), data) }

/-- The last piece of an operation that waited for the request `rid`; `none` for one that waits
for no write. -/
def writePiece (m : Manager) (pc : Pc) (ans : WriteAnswer) (c : Clocks) : Option Piece :=
  match pc with
  | .acquiring _ a => some { mgr := m.acquireAnswer hmac a ans }
  | .renewing _ r after => some { mgr := afterRenew hmac (m.renewAnswer r ans c) after c }
  | .releasing _ next =>
    some { mgr := m.releaseAnswer next ans c, pc := fun _ => .leaving }
  | _ => none

end

/-- The request a process waits for. -/
def Pc.rid : Pc → Option Nat
  | .acquiring rid _ => some rid
  | .renewing rid _ _ => some rid
  | .releasing rid _ => some rid
  | _ => none

namespace World

variable {ι : Type} [DecidableEq ι]

def setProc (w : World ι) (i : ι) (p : Option Proc) : World ι :=
  { w with procs := Function.update w.procs i p }

def clocks (w : World ι) (p : Proc) (env : Env) : Clocks :=
  ⟨w.time + p.off, env.wall, env.stamp, env.late⟩

/-- The process `p` of `i` goes on with `q`: its request, if any, is put on the network. -/
def proceed (w : World ι) (i : ι) (p : Proc) (q : Piece) : World ι :=
  { w with
    procs := Function.update w.procs i (some { p with mgr := q.mgr, pc := q.pc w.net.length })
    net := match q.write with
      | none => w.net
      | some (cond, data) => w.net ++ [⟨p.pid, w.time, cond, data⟩] }

/-- The store's answer to a read. -/
def read (w : World ι) : ReadAnswer :=
  match w.obj with
  | none => .notFound
  | some (data, v) => .found data v

/-- The condition of a write holds. -/
def holds (w : World ι) : Cond → Bool
  | .absent => w.obj.isNone
  | .matches v => v.isSome && w.obj.map (·.2) = v

/-- The object gets new content under a version it never had. -/
def write (w : World ι) (source : Option (Nat × Request)) (data : Content) : World ι :=
  { w with obj := some (data, w.log.length), log := w.log ++ [⟨source, data, w.time⟩] }

/-- The version that the request `rid` wrote. -/
def written (w : World ι) (rid : Nat) : Option Version :=
  w.log.findIdx? fun e => e.source.any fun s => s.1 = rid

/-- The answer its sender can get for the request `rid`. -/
def answer (w : World ι) (rid : Nat) : Outcome → Option WriteAnswer
  | .ok => (w.written rid).map .ok
  | .preconditionFailed => some .preconditionFailed
  | .failed => some .failed

variable (hmac : Bytes → String → Bytes)

def step (w : World ι) : Event ι → Option (World ι)
  | .tick d => some { w with time := w.time + d }
  | .start i cfg off =>
    match Manager.new cfg with
    | .error _ => none
    | .ok m =>
      some { w.setProc i (some ⟨w.started.length, off, m, .idle⟩) with
        started := w.started ++ [cfg] }
  | .crash i => some (w.setProc i none)
  | .call i op env => do
    let p ← w.procs i
    if p.pc ≠ .idle then none
    else some (w.proceed i p (callPiece hmac p.mgr op (w.clocks p env)))
  | .serve i => do
    let p ← w.procs i
    if p.pc ≠ .reading none then none
    else some (w.setProc i (some { p with pc := .reading (some w.read) }))
  | .readReturn i failed env => do
    let p ← w.procs i
    match p.pc, failed with
    | .reading _, true => some (w.proceed i p (readPiece hmac p.mgr .failed (w.clocks p env)))
    | .reading (some ans), false =>
      some (w.proceed i p (readPiece hmac p.mgr ans (w.clocks p env)))
    | _, _ => none
  | .floorReturn i ans env => do
    let p ← w.procs i
    match p.pc with
    | .flooring a =>
      if p.mgr.cfg.epochFloor = decide (ans = .unset) then none
      else some (w.proceed i p (floorPiece hmac p.mgr a ans (w.clocks p env)))
    | _ => none
  | .commit rid => do
    let r ← w.net[rid]?
    if w.holds r.cond then some (w.write (some (rid, r)) r.data) else none
  | .writeReturn i out env => do
    let p ← w.procs i
    let rid ← p.pc.rid
    let ans ← w.answer rid out
    let q ← writePiece hmac p.mgr p.pc ans (w.clocks p env)
    some (w.proceed i p q)
  | .leave i env => do
    let p ← w.procs i
    if p.pc ≠ .leaving then none
    else some (w.proceed i p { mgr := p.mgr.stepDown true (w.clocks p env).now })
  | .deleteByHand => some { w with obj := none }
  | .writeByHand data => some (w.write none data)

/-- The fencing check of instance `i`, with `wall` on its wall clock. -/
def check (w : World ι) (i : ι) (wall : Int) : Except Err Unit :=
  match w.procs i with
  | none => .error .notActive
  | some p => p.mgr.check (w.time + p.off) wall

/-- No process runs and the lease object does not exist. -/
def Initial (w : World ι) : Prop :=
  (∀ i, w.procs i = none) ∧ w.obj = none ∧ w.net = [] ∧ w.log = [] ∧ w.started = []

end World

/-- Only the cluster's instances write the lease. -/
def Event.byInstances {ι : Type} : Event ι → Bool
  | .deleteByHand => false
  | .writeByHand _ => false
  | _ => true

/-- The event calls an operation that gives the lease up in the store. -/
def Event.releases {ι : Type} : Event ι → Bool
  | .call _ .release _ => true
  | .call _ (.stepDown true) _ => true
  | _ => false

def cluster (hmac : Bytes → String → Bytes) (ι : Type) [DecidableEq ι] :
    Trans.Sys (World ι) (Event ι) where
  init := World.Initial
  step := World.step hmac

end MongoRescue.HA
