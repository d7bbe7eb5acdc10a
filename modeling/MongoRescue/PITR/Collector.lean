import MongoRescue.Lib.Prog
import MongoRescue.Lib.Trans
import MongoRescue.PITR.Read
import MongoRescue.PITR.Store

/-!
# The collector

`internal/pitr/collector/worker.go`, `chunk.go` and `pause.go`. One `step` of a worker reads and stores
the next chunk, or ends the chain and starts another. Every call it makes of the repository, of a
member, of the storage or of the fence is a `Site`; the environment `Env` says for each site what the
oplog gained before the call, whether the call fails, or whether the process dies there, and what a
member that is asked sees. A worker's fields are lost with the process, the tables and the objects are
not. Lag, alerts and metrics are left out.
-/

namespace MongoRescue.PITR

/-! ## The environment -/

/-- The calls of one step. `confirm` may run three times in a step, so its calls are numbered. -/
inductive Site
  | openSession
  | loadState
  | pin
  | window
  | endedChain
  | confirmWindow (k : Nat)
  | confirmEntry (k : Nat)
  | entryAt
  | lastChunk
  | chainStart
  | capEntry
  | emptyChunk
  | encryptor
  | storage
  | read
  | saveFence
  | save
  | removeFence
  | remove
  | commitFence
  | commit
  | endBroken
  | updateStream
  | oldestEntry
  | startChain
  | adopt (k : Nat)
  | divergeChunks
  | divergeEntry (n : Nat)
  | divergeChains
  | supersede
  | endDiverged
  | pointEntry
  deriving DecidableEq

inductive Outcome
  | ok
  | fail
  /-- The process dies before the call. -/
  | crash
  deriving DecidableEq

/-- What happens at a call. -/
structure Answer where
  /-- The entries that are majority-committed by then. -/
  grow : List OpTime := []
  outcome : Outcome := .ok
  /-- The part of the oplog the member sees, and the majority-committed entry it reports. -/
  lo : Nat := 0
  hi : Nat := 0
  majority : Option Nat := none
  replicaSet : String := "rs"
  replicaSetID : String := ""
  /-- The ID made up for a chain or a chunk. -/
  id : String := ""
  rawBytes : Int := 0
  /-- What a failed upload leaves under its key. -/
  junk : Option (List OpTime) := none
  now : Int := 0

abbrev Env := Site → Answer

/-! ## The state -/

/-- The stream's settings. -/
structure Config where
  streamID : String := "s"
  connectionID : String := "c"
  targetID : String := "t"
  chunkSeconds : Int := 60
  maxChunkBytes : Int := 4 * 2 ^ 30

def second : Int := Go.second

/-- The chunk interval of the stream, in nanoseconds. -/
def Config.configured (cfg : Config) : Int :=
  (if cfg.chunkSeconds ≤ 0 then 60 else cfg.chunkSeconds) * second

/-- What a running worker remembers. -/
structure Worker where
  /-- The stream's replica set as the worker loaded it. -/
  replicaSet : String
  session : Bool := false
  interval : Int
  /-- The stored position was checked. -/
  checked : Bool := false
  /-- The next chunk keeps the entry at its start. -/
  inclusive : Bool := false
  rsID : String := ""
  behind : Nat := 0
  emptyAt : Timestamp := {}
  gapBackoff : Int := 0

structure World where
  /-- The majority-committed oplog, with what members have truncated. -/
  log : List OpTime := []
  db : DB := {}
  objects : ChunkKey → Option (List OpTime) := fun _ => none
  /-- The stored replica set of the stream. -/
  replicaSet : String := "rs"
  /-- The worker, while one runs. -/
  running : Bool := false
  worker : Worker := ⟨"rs", false, 0, false, false, "", 0, {}, 0⟩

/-- The oplog gains entries, each after the ones before. -/
def World.grow (w : World) (es : List OpTime) : World :=
  if (w.log ++ es).Pairwise (·.ts < ·.ts) then { w with log := w.log ++ es } else w

def World.setWorker (w : World) (f : Worker → Worker) : World := { w with worker := f w.worker }

def World.setObject (w : World) (k : ChunkKey) (o : Option (List OpTime)) : World :=
  { w with objects := Function.update w.objects k o }

/-- How a step ends without a delay: the process died, or it returned an error. -/
inductive Stop
  | crash
  | failed (s : Site)
  | store (e : StoreErr)
  | read (e : ReadErr)
  | vanished
  deriving DecidableEq

abbrev M := Prog World Stop

/-- Changes what the worker remembers. -/
def remember (f : Worker → Worker) : M Unit := Prog.modify (·.setWorker f)

/-! ## Calls -/

variable (env : Env)

/-- Comes to a call: the oplog goes on, and the process may die. -/
def reach (s : Site) : M Answer := do
  Prog.modify (·.grow (env s).grow)
  if (env s).outcome = .crash then Prog.fail .crash else return env s

/-- A call whose failure ends the step. -/
def ask (s : Site) : M Answer := do
  let a ← reach env s
  if a.outcome = .fail then Prog.fail (.failed s) else return a

/-- A transaction of the store. -/
def transact (f : DB → Except StoreErr DB) : M (Except StoreErr Unit) := do
  let w ← Prog.get
  match f w.db with
  | .ok db =>
    Prog.modify fun w => { w with db }
    return .ok ()
  | .error e => return .error e

/-- The entries that the member which answers sees. -/
def seen (a : Answer) : M (List OpTime) := do
  let w ← Prog.get
  return view w.log a.lo a.hi

def listChunks (s : Site) (q : ChunkQuery) : M (List Chunk) := do
  let _ ← ask env s
  let w ← Prog.get
  return w.db.listChunks q

def listChains (s : Site) : M (List Chain) := do
  let _ ← ask env s
  let w ← Prog.get
  return w.db.listChains

/-- `OplogWindow`; a member without entries cannot answer. -/
def window (s : Site) : M OplogWindow := do
  let a ← ask env s
  let es ← seen a
  let w ← Prog.get
  let oldest ← Prog.orFail (.failed s) es.head?
  let newest ← Prog.orFail (.failed s) es.getLast?
  return { oldest := oldest.ts, newest := newest.ts
           majorityOpTime := (a.majority.bind (w.log[·]?)).getD {}
           replicaSet := a.replicaSet, replicaSetID := a.replicaSetID }

/-- `EntryAt` on the member that answers. -/
def lookupEntry (s : Site) (ts : Timestamp) : M (Option Int) := do
  let a ← ask env s
  let es ← seen a
  return entryAt es ts

/-! ## Starting and ending chains -/

variable (cfg : Config) (env : Env)

def newWorker (replicaSet : String) : Worker := { replicaSet, interval := cfg.configured }

/-- `adoptReplicaSetID`: a failure to record it is ignored. -/
def adoptReplicaSetID (k : Nat) (id : String) : M Unit :=
  if id = "" then return ()
  else do
    remember ({ · with rsID := id })
    let a ← reach env (.adopt k)
    if a.outcome = .ok then Prog.modify fun w => { w with db := w.db.setReplicaSetID id }

def startChain (start : OpTime) : M Unit := do
  let a ← ask env .startChain
  match ← transact (·.startChain cfg.streamID a.id start) with
  | .error e => Prog.fail (.store e)
  | .ok _ => remember ({ · with inclusive := true, checked := true, emptyAt := {} })

def startAtOldest (win : OplogWindow) : M Unit := do
  match ← lookupEntry env .oldestEntry win.oldest with
  | none => Prog.fail .vanished
  | some term => startChain cfg env ⟨win.oldest, term⟩

/-- `EndChain` at the site `s`; an ended chain is no error. -/
def endChain (s : Site) (chainID : String) (stop : Timestamp) (reason : EndReason) : M Unit := do
  let a ← ask env s
  match ← transact (·.endChain chainID stop reason a.now) with
  | .ok _ => return ()
  | .error .chainEnded => return ()
  | .error e => Prog.fail (.store e)

/-- Stores the replica set's new name. -/
def updateStream (win : OplogWindow) (reason : EndReason) : M Unit := do
  let w ← Prog.get
  if reason = .replicaSetChanged ∧ win.replicaSet ≠ "" ∧ win.replicaSet ≠ w.worker.replicaSet then
    let _ ← ask env .updateStream
    Prog.modify fun w => { w with
      replicaSet := win.replicaSet
      worker := { w.worker with replicaSet := win.replicaSet } }
  else return ()

variable (st : CollectorState)

/-- `breakChain`: ends the chain for a gap or a replica set change, and starts one at the oldest
entry. -/
def breakChain (win : OplogWindow) (reason : EndReason) : M Unit := do
  endChain env .endBroken st.chainID st.last.ts reason
  updateStream env win reason
  startAtOldest cfg env win
  adoptReplicaSetID env 1 win.replicaSetID

/-- The chunks from the newest on: the end of the first whose end entry is still there, or is before
the window. `divergencePoint`'s loop. -/
def divergenceLoop (oldest : Timestamp) : Nat → List Chunk → M (Option Timestamp)
  | _, [] => return none
  | n, c :: older =>
    if c.toTS < oldest then return some c.toTS
    else do
      let term ← lookupEntry env (.divergeEntry n) c.toTS
      if term = some c.lastTerm then return some c.toTS
      else divergenceLoop oldest (n + 1) older

def divergencePoint (win : OplogWindow) : M Timestamp := do
  let chunks ← listChunks env .divergeChunks
    { streamID := cfg.streamID, chainID := st.chainID, status := some .committed }
  match ← divergenceLoop env win.oldest 0 chunks.reverse with
  | some ts => return ts
  | none =>
    let chains ← listChains env .divergeChains
    return ((chains.find? (·.chainID = st.chainID)).map (·.start)).getD st.last.ts

/-- `diverge`: supersedes the chunks after the divergence point, ends the chain there and starts the
next one. -/
def diverge (win : OplogWindow) : M Unit := do
  let point ← divergencePoint cfg env st win
  let _ ← ask env .supersede
  Prog.modify fun w => { w with db := w.db.supersedeChunks st.chainID point }
  endChain env .endDiverged st.chainID point .diverged
  adoptReplicaSetID env 2 win.replicaSetID
  match ← lookupEntry env .pointEntry point with
  | some term => startChain cfg env ⟨point, term⟩
  | none => startAtOldest cfg env win

/-! ## The chain's position -/

variable (chainID : String)

/-- `endedChain`: the state's chain, when it has ended. -/
def endedChain : M (Option Chain) := do
  let chains ← listChains env .endedChain
  return chains.find? fun c => c.chainID = chainID && !c.isOpen

/-- The chain after the ended chain `c`: at the newest entry after a pause, else as close to the old
one as possible. -/
def nextChain (c : Chain) (win : OplogWindow) : M Unit :=
  match c.endReason with
  | some .stopped => startChain cfg env win.majorityOpTime
  | some .diverged => do
    match ← lookupEntry env .pointEntry c.stop with
    | some term => startChain cfg env ⟨c.stop, term⟩
    | none => startAtOldest cfg env win
  | _ => startAtOldest cfg env win

/-- The replica set's ID is recorded at first contact. -/
def firstContact (win : OplogWindow) : M Unit := do
  let w ← Prog.get
  if w.worker.rsID = "" then adoptReplicaSetID env 0 win.replicaSetID else return ()

/-- `resumeEnded`: starts the next chain after one that ended while no collector ran. -/
def resumeEnded (c : Chain) (win : OplogWindow) : M Int := do
  let w ← Prog.get
  if c.endReason = some .stopped ∧ win.majorityOpTime.ts.isZero then return w.worker.interval
  else
    nextChain cfg env c win
    firstContact env win
    return 0

/-- The timestamp just before `ts`. -/
def prev (ts : Timestamp) : Timestamp :=
  if 0 < ts.i then ⟨ts.t, ts.i - 1⟩
  else if 0 < ts.t then ⟨ts.t - 1, 4294967295⟩
  else ts

/-- The chunks of the state's chain that end at or after its position. -/
def lastChunks : ChunkQuery :=
  { streamID := cfg.streamID, chainID := st.chainID, afterTS := prev st.last.ts }

/-- `chainStartsAt`: the chain starts at the stored position. **A failed read counts as no.** -/
def chainStartsAt : M Bool := do
  let a ← reach env .chainStart
  if a.outcome = .fail then return false
  else
    let w ← Prog.get
    match w.db.listChains.find? (·.chainID = st.chainID) with
    | some c => return c.start = st.last.ts
    | none => return false

/-- `startChecked`: decides whether the next chunk is the first of its chain. -/
def startChecked : M Unit := do
  let chunks ← listChunks env .lastChunk (lastChunks cfg st)
  if chunks.isEmpty then
    let starts ← chainStartsAt env st
    remember ({ · with inclusive := starts, checked := true })
  else remember ({ · with inclusive := false, checked := true })

def emptyChunkExists : M Bool := do
  let chunks ← listChunks env .emptyChunk (lastChunks cfg st)
  return chunks.any fun c => c.fromTS = st.last.ts && c.toTS = st.last.ts

def Worker.rsChanged (w : Worker) (win : OplogWindow) : Bool :=
  win.replicaSet ≠ w.replicaSet ||
    (w.rsID ≠ "" && win.replicaSetID ≠ "" && win.replicaSetID ≠ w.rsID)

def maxGapBackoff : Int := 600 * second

/-- `afterBreak`: the wait after a chain ended. -/
def afterBreak : M Int := do
  remember fun w => { w with gapBackoff := max (min (2 * w.gapBackoff) maxGapBackoff) w.interval }
  let w ← Prog.get
  return w.worker.gapBackoff

/-- What `confirm` found: the chain ended, with the wait before the next step, or the step goes on with
the primary's window. -/
inductive Confirmed
  | handled (delay : Int)
  | goOn (win : OplogWindow)

/-- `confirm`: asks the primary whether the chain really broke. -/
def confirm (k : Nat) (st : CollectorState) : M Confirmed := do
  let win ← window env (.confirmWindow k)
  let w ← Prog.get
  if w.worker.rsChanged win then
    let delay ← afterBreak
    breakChain cfg env st win .replicaSetChanged
    return .handled delay
  else
    let term ← lookupEntry env (.confirmEntry k) st.last.ts
    if term.isNone ∧ st.last.ts < win.oldest then
      let delay ← afterBreak
      breakChain cfg env st win .gap
      return .handled delay
    else if term ≠ some st.last.term then
      let delay ← afterBreak
      diverge cfg env st win
      return .handled delay
    else return .goOn win

/-! ## Writing chunks -/

variable (key : ChunkKey)

/-- `removeObject`: an instance without the lease, or a failure, leaves the object. -/
def removeObject : M Unit := do
  let fence ← reach env .removeFence
  if fence.outcome = .ok then
    let a ← reach env .remove
    if a.outcome = .ok then Prog.modify (·.setObject key none)

/-- Removes the object of a chunk that failed, and returns the error. -/
def discard {α : Type} (e : Stop) : M α := do
  removeObject env key
  Prog.fail e

def chunkOf (rng : OplogRange) (fromTerm : Int) (c : Copy) (id : String) : Chunk :=
  { id, streamID := cfg.streamID, chainID, targetID := cfg.targetID, storageKey := key
    fromTS := rng.fromTS, toTS := rng.toTS
    firstTerm := if c.stats.entries = 0 then fromTerm else c.stats.first.term
    lastTerm := if c.stats.entries = 0 then fromTerm else c.stats.last.term
    sha256 := "sha256", encrypted := true }

def commitRow (rng : OplogRange) (fromTerm : Int) (c : Copy) : M Unit := do
  let fence ← reach env .commitFence
  if fence.outcome = .fail then discard env key (.failed .commitFence)
  else
    let done ← reach env .commit
    if done.outcome = .fail then discard env key (.failed .commit)
    else
      match ← transact (·.commitChunk (chunkOf cfg chainID key rng fromTerm c done.id)) with
      | .error e => discard env key (.store e)
      | .ok _ => return ()

def readRange (a : Answer) (rng : OplogRange) (es : List OpTime) : Except ReadErr Copy :=
  if a.outcome = .fail then .error .failed else readOplog rng es

/-- `writeChunk`: reads `rng` into a new object and commits its row. The object is removed when a stage
fails. -/
def writeChunk (rng : OplogRange) (fromTerm : Int) : M (Copy × Int) := do
  let _ ← ask env .encryptor
  let _ ← ask env .storage
  let w ← Prog.get
  let key : ChunkKey := ⟨cfg.connectionID, w.worker.replicaSet, chainID, rng.fromTS, rng.toTS⟩
  let fence ← reach env .saveFence
  let a ← reach env .read
  let es ← seen a
  let up ← reach env .save
  match readRange a rng es with
  | .error e =>
    Prog.modify (·.setObject key up.junk)
    discard env key (.read e)
  | .ok c =>
    if fence.outcome = .fail ∨ up.outcome = .fail then
      Prog.modify (·.setObject key up.junk)
      discard env key (.failed .save)
    else
      Prog.modify (·.setObject key (some c.written))
      commitRow cfg env chainID key rng fromTerm c
      return (c, a.rawBytes)

/-! ## The step -/

def behindRetries : Nat := 3

def behindDelay : Int := second

def adjustInterval (rawBytes : Int) (w : Worker) : Worker :=
  if cfg.maxChunkBytes < rawBytes ∧ second < w.interval then
    { w with interval := max (w.interval / 2) second }
  else if rawBytes < cfg.maxChunkBytes / 4 ∧ w.interval < cfg.configured then
    { w with interval := min (w.interval * 2) cfg.configured }
  else w

/-- A chunk from `a` ends at the entry found after one interval, if that is before `b`; otherwise at
`b`. The flag says that the chunk was capped. -/
def capped (a b : Timestamp) : Option OpTime → Timestamp × Bool
  | some op => if op.ts < b ∧ a < op.ts then (op.ts, true) else (b, false)
  | none => (b, false)

/-- The end of the next chunk, at most one interval after the position while catching up. -/
def chunkEnd (b : Timestamp) : M (Timestamp × Bool) := do
  let w ← Prog.get
  if w.worker.interval < (b.t - st.last.ts.t).toNat * second then
    let a ← ask env .capEntry
    let es ← seen a
    let capAt : Timestamp := ⟨st.last.ts.t + UInt32.ofInt (w.worker.interval / second), 0⟩
    return capped st.last.ts b (entryAtOrAfter es capAt)
  else return (b, false)

/-- A member without an entry at the chunk's end is asked again shortly, a few times. -/
def retryBehind : M Int := do
  remember fun w => { w with behind := w.behind + 1 }
  let w ← Prog.get
  if w.worker.behind < behindRetries then return behindDelay
  else
    remember ({ · with behind := 0 })
    Prog.fail (.read .behind)

/-- After the chunk up to `stop` was committed: the wait before the next step. -/
def committed (stop : Timestamp) (catchUp : Bool) (c : Copy) (rawBytes : Int) : M Int := do
  remember fun w => adjustInterval cfg rawBytes { w with
    behind := 0, inclusive := false
    emptyAt := if c.stats.entries = 0 then stop else w.emptyAt }
  if catchUp then return 0
  else
    remember ({ · with gapBackoff := 0 })
    let w ← Prog.get
    return w.worker.interval

/-- Writes the chunk up to `stop`, and handles the outcome. -/
def writeRange (stop : Timestamp) (catchUp : Bool) : M Int := do
  let w ← Prog.get
  let rng : OplogRange := ⟨st.last.ts, stop, true, st.last.term, w.worker.inclusive⟩
  match ← Prog.attempt (writeChunk cfg env st.chainID rng st.last.term) with
  | .error (.read .behind) => retryBehind
  | .error (.read .gap) =>
    match ← confirm cfg env 2 st with
    | .handled delay => return delay
    -- the primary still holds the position: the range is read again shortly
    | .goOn _ => return behindDelay
  | .error e => Prog.fail e
  | .ok (c, rawBytes) => committed cfg stop catchUp c rawBytes

/-- Reads and stores the next chunk of an open chain, with the window `win`. -/
def collect (win : OplogWindow) : M Int := do
  let w ← Prog.get
  let b := win.majorityOpTime.ts
  -- the member's majority view is behind the stored position
  if b < st.last.ts then return w.worker.interval
  else
    let (stop, catchUp) ← chunkEnd env st b
    if stop = st.last.ts ∧ !w.worker.inclusive then
      -- nothing new: one empty chunk proves that the position was looked at
      if w.worker.emptyAt = st.last.ts then return w.worker.interval
      else
        let found ← emptyChunkExists cfg env st
        if found then
          remember ({ · with emptyAt := st.last.ts })
          return w.worker.interval
        else writeRange cfg env st stop catchUp
    else writeRange cfg env st stop catchUp

/-- Checks the stored position of a worker that has just started. -/
def checkPosition (win : OplogWindow) : M Int := do
  let w ← Prog.get
  if w.worker.checked then collect cfg env st win
  else
    let term ← lookupEntry env .entryAt st.last.ts
    if term = some st.last.term then
      startChecked cfg env st
      collect cfg env st win
    else
      match ← confirm cfg env 1 st with
      | .handled delay => return delay
      | .goOn win =>
        startChecked cfg env st
        collect cfg env st win

/-- Goes on with an open chain: a changed replica set or an overrun window is confirmed first. -/
def goOn (win : OplogWindow) : M Int := do
  let w ← Prog.get
  if w.worker.rsChanged win ∨ st.last.ts < win.oldest then
    match ← confirm cfg env 0 st with
    | .handled delay => return delay
    | .goOn win =>
      firstContact env win
      checkPosition cfg env st win
  else
    firstContact env win
    checkPosition cfg env st win

def openSession : M Unit := do
  let w ← Prog.get
  if w.worker.session then return ()
  else
    let _ ← ask env .openSession
    remember ({ · with session := true })

/-- `step`: reads and stores the next chunk, or handles a gap or a divergence. -/
def step : M Int := do
  openSession env
  let _ ← ask env .loadState
  let w ← Prog.get
  let _ ← ask env .pin
  let win ← window env .window
  match w.db.state with
  | none =>
    -- a replica set just initiated has no majority-committed entry yet
    if win.majorityOpTime.ts.isZero then return w.worker.interval
    else
      startChain cfg env win.majorityOpTime
      adoptReplicaSetID env 0 win.replicaSetID
      return 0
  | some st =>
    if w.worker.checked then goOn cfg env st win
    else
      let ended ← endedChain env st.chainID
      remember ({ · with rsID := st.replicaSetID })
      match ended with
      | some c => resumeEnded cfg env c win
      | none => goOn cfg env st win

/-! ## Runs -/

/-- One stream and its environment: the collector's steps, its starts and stops, pauses, and the
oplog. -/
inductive Event
  | grow (es : List OpTime)
  | start
  | stop
  /-- One step, at whose calls `env` says what happens. A step that dies leaves no worker. -/
  | step (env : Env)
  /-- `PauseStream` once no collector runs: ends the open chain, at the stored position if the state
  can be read. -/
  | pause (stateRead : Bool) (now : Int)

/-- The outcome of a step: a worker that died is gone. -/
def World.afterStep : Except Stop Int × World → World
  | (.error .crash, w) => { w with running := false }
  | (_, w) => w

def World.pause (w : World) (stateRead : Bool) (now : Int) : World :=
  let stop := if stateRead then (w.db.state.map (·.last.ts)).getD {} else {}
  match w.db.chains.find? (·.isOpen) with
  | none => w
  | some c =>
    match w.db.endChain c.chainID stop .stopped now with
    | .ok db => { w with db }
    | .error _ => w

def World.next (w : World) : Event → Option World
  | .grow es => some (w.grow es)
  | .start => if w.running then none
      else some { w with running := true, worker := newWorker cfg w.replicaSet }
  | .stop => some { w with running := false }
  | .step env => if w.running then some (.afterStep (step cfg env w)) else none
  | .pause stateRead now => if w.running then none else some (w.pause stateRead now)

/-- A stream, from an empty store. -/
def collector : Trans.Sys World Event where
  init := fun w => w.log.Pairwise (·.ts < ·.ts) ∧ w.db.chains = [] ∧ w.db.chunks = [] ∧
    w.db.state = none ∧ w.running = false
  step := World.next cfg

end MongoRescue.PITR
