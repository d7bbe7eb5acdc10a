import MongoRescue.PITR.Types

/-!
# The transactions of the PITR store

`internal/store/pitr.go` over all streams, with the arguments and the rows as the tables have them
(`migrations/0021_pitr.sql`, `0023_pitr_retention.sql`, `0025_object_lock.sql`). A transaction that
returns an error is rolled back: the tables it worked on are dropped. `PITR.Store` is the part of these
tables that one collector works with.
-/

namespace MongoRescue.PITR.Store

/-! ## Rows -/

structure ChainRow where
  streamID : String
  chainID : String
  start : Timestamp
  stop : Option Timestamp := none
  endReason : Option String := none
  endedAt : Option Int := none
  deriving DecidableEq

/-- `ended_at IS NULL`. -/
def ChainRow.isOpen (r : ChainRow) : Bool := r.endedAt.isNone

structure ChunkRow where
  id : String
  streamID : String
  chainID : String
  targetID : String
  storageKey : String
  fromTS : Timestamp
  toTS : Timestamp
  firstTerm : Int := 0
  lastTerm : Int := 0
  entries : Int := 0
  sizeBytes : Int := 0
  sha256 : String := ""
  encrypted : Bool := false
  encryptionMode : String := ""
  status : ChunkStatus := .committed
  createdAt : Int := Go.zeroTime
  verifiedAt : Option Int := none
  verifyError : String := ""
  deletedAt : Option Int := none
  purgeAfter : Option Int := none
  versionID : String := ""
  retainUntil : Option Int := none
  deriving DecidableEq

inductive CollectorStatus
  | stopped
  | running
  | failed
  deriving DecidableEq

structure StateRow where
  streamID : String
  chainID : String
  last : OpTime
  status : CollectorStatus := .running
  lastError : String := ""
  updatedAt : Int := 0
  deriving DecidableEq

structure Tables where
  /-- The IDs of the streams. -/
  streams : List String := []
  chains : List ChainRow := []
  /-- In the order in which they were inserted. -/
  chunks : List ChunkRow := []
  states : List StateRow := []
  deriving DecidableEq

inductive TxErr
  | invalidRecord (why : String)
  | notFound
  | alreadyExists
  | chainOpen
  | chainEnded (why : String)
  | discontinuous (why : String)
  | inUse (why : String)
  /-- The database failed, or refused a row for a CHECK. -/
  | database
  deriving DecidableEq

/-- The integer a time is stored as: Unix nanoseconds, clamped to an `int64`. -/
def timeKey (t : Int) : Int := max (-2 ^ 63) (min t (2 ^ 63 - 1))

namespace Tables

/-! ## Streams and chains -/

variable (t : Tables) (id : String)

def streamExists : Except TxErr Unit :=
  if id ∈ t.streams then .ok () else .error .notFound

/-- Inserts a chain: its ID is new in the stream, and it is the only open one. -/
def insertChain (row : ChainRow) : Except TxErr Tables :=
  if t.chains.any fun c => c.streamID = row.streamID &&
      (c.chainID = row.chainID || (c.isOpen && row.isOpen)) then .error .alreadyExists
  else .ok { t with chains := t.chains ++ [row] }

/-- Inserts a state, or moves the one the stream has to a chain and a position. -/
def upsertState (row : StateRow) : Tables :=
  if t.states.any (·.streamID = row.streamID) then
    { t with states := t.states.map fun s => if s.streamID = row.streamID then
        { s with chainID := row.chainID, last := row.last, updatedAt := row.updatedAt } else s }
  else { t with states := t.states ++ [row] }

def startChain (streamID chainID : String) (start : OpTime) (now : Int) : Except TxErr Tables :=
  if streamID = "" ∨ chainID = "" then
    .error (.invalidRecord "chain with stream and chain ID is required")
  else do
    t.streamExists streamID
    if 0 < t.chains.countP fun c => c.streamID = streamID && c.isOpen then .error .chainOpen
    else do
      let t ← t.insertChain { streamID, chainID, start := start.ts }
      return t.upsertState { streamID, chainID, last := start, updatedAt := timeKey now }

/-- An unknown or an ended chain is an error. -/
def openChain (streamID chainID : String) : Except TxErr Unit :=
  match t.chains.find? fun c => c.streamID = streamID && c.chainID = chainID with
  | none => .error .notFound
  | some c => if c.isOpen then .ok () else .error (.chainEnded "")

def endChain (streamID chainID : String) (stop : Timestamp) (reason : String) (now : Int) :
    Except TxErr Tables :=
  if reason = "" then .error (.invalidRecord "a chain needs an end reason")
  else do
    t.openChain streamID chainID
    return { t with chains := t.chains.map fun c =>
      if c.streamID = streamID ∧ c.chainID = chainID then
        { c with stop := some stop, endReason := some reason, endedAt := some (timeKey now) }
      else c }

/-- Removes a stream whose chunks are pruned, with all its rows. -/
def deleteStream : Except TxErr Tables := do
  t.streamExists id
  let stored := t.chunks.countP fun c => c.streamID = id && c.status ≠ .pruned
  if 0 < stored then .error (.inUse (toString stored ++ " chunks"))
  else return { streams := t.streams.filter (· ≠ id)
                chains := t.chains.filter (·.streamID ≠ id)
                chunks := t.chunks.filter (·.streamID ≠ id)
                states := t.states.filter (·.streamID ≠ id) }

/-! ## Chunks -/

/-- Inserts a chunk: its ID is new, and so is its place in the storage. -/
def insertChunk (row : ChunkRow) : Except TxErr Tables :=
  if row.entries < 0 ∨ row.sizeBytes < 0 then .error .database
  else if t.chunks.any fun c => c.id = row.id ||
      (c.targetID = row.targetID && c.storageKey = row.storageKey) then .error .alreadyExists
  else .ok { t with chunks := t.chunks ++ [row] }

/-- Inserts a chunk that continues the stream's state, and moves the state to its end. -/
def commitChunk (chunk : Option ChunkRow) (now : Int) : Except TxErr Tables :=
  match chunk with
  | none => .error (.invalidRecord "chunk with ID, stream, chain, target and storage key is required")
  | some c =>
    let created := timeKey (if c.createdAt = Go.zeroTime then now else c.createdAt)
    if c.id = "" ∨ c.streamID = "" ∨ c.chainID = "" ∨ c.targetID = "" ∨ c.storageKey = "" then
      .error (.invalidRecord "chunk with ID, stream, chain, target and storage key is required")
    else if c.toTS < c.fromTS then
      .error (.invalidRecord ("chunk " ++ c.id ++ " ends at " ++ c.toTS.string ++
        " before its start " ++ c.fromTS.string))
    else match t.states.find? (·.streamID = c.streamID) with
      | none => .error .notFound
      | some st =>
        if st.chainID ≠ c.chainID then
          .error (.chainEnded ("chain " ++ c.chainID ++ ", current chain " ++ st.chainID))
        else do
          t.openChain c.streamID c.chainID
          if st.last.ts ≠ c.fromTS then
            .error (.discontinuous ("chunk " ++ c.id ++ " starts at " ++ c.fromTS.string ++
              ", the chain is at " ++ st.last.ts.string))
          else do
            let t ← t.insertChunk { c with
              status := .committed, createdAt := created, verifiedAt := c.verifiedAt.map timeKey
              deletedAt := none, purgeAfter := none, retainUntil := c.retainUntil.map timeKey }
            return { t with states := t.states.map fun s => if s.streamID = c.streamID then
              { s with last := ⟨c.toTS, c.lastTerm⟩, status := .running, lastError := ""
                       updatedAt := created } else s }

/-- An `UPDATE` of the chunks, with the number of rows it changed. -/
def updateChunks (p : ChunkRow → Bool) (f : ChunkRow → ChunkRow) : Tables × Nat :=
  ({ t with chunks := t.chunks.map fun c => if p c then f c else c }, t.chunks.countP p)

/-- `execOne`: an update of no row is `notFound`. -/
def updateOne (p : ChunkRow → Bool) (f : ChunkRow → ChunkRow) : Except TxErr Tables :=
  if (t.updateChunks p f).2 = 0 then .error .notFound else .ok (t.updateChunks p f).1

def markChunkVerified (now : Int) (verifyError : String) : Except TxErr Tables :=
  t.updateOne (·.id = id) fun c => { c with verifiedAt := some (timeKey now), verifyError }

/-- Deletes one of the chunks given to `DeleteChunks`. -/
def deleteChunk (now purgeAfter : Int) : Tables × Nat :=
  t.updateChunks (fun c => c.id = id && c.deletedAt.isNone && c.status ≠ .pruned) fun c =>
    { c with deletedAt := some (timeKey now), purgeAfter := some (timeKey purgeAfter) }

def deleteChunks (ids : List String) (now purgeAfter : Int) : Tables × Nat :=
  ids.foldl (fun p id => ((p.1.deleteChunk id now purgeAfter).1,
    p.2 + (p.1.deleteChunk id now purgeAfter).2)) (t, 0)

def markChunkPruned : Except TxErr Tables :=
  t.updateOne (fun c => c.id = id && c.deletedAt.isSome && c.status ≠ .pruned) fun c =>
    { c with status := .pruned }

def supersedeChunks (streamID chainID : String) (after : Timestamp) : Tables × Nat :=
  t.updateChunks (fun c => c.streamID = streamID && c.chainID = chainID && c.status = .committed &&
    after < c.toTS) fun c => { c with status := .superseded }

end Tables

/-! ## Runs -/

/-- A call of the repository. -/
inductive Call
  | startChain (streamID chainID : String) (start : OpTime) (now : Int)
  | endChain (streamID chainID : String) (stop : Timestamp) (reason : String) (now : Int)
  | commitChunk (chunk : Option ChunkRow) (now : Int)
  | supersedeChunks (streamID chainID : String) (after : Timestamp)
  | deleteChunks (ids : List String) (now purgeAfter : Int)
  | markChunkPruned (id : String)
  | markChunkVerified (id : String) (now : Int) (verifyError : String)
  | deleteStream (id : String)
  deriving DecidableEq

def Call.exec (t : Tables) : Call → Except TxErr Tables
  | .startChain streamID chainID start now => t.startChain streamID chainID start now
  | .endChain streamID chainID stop reason now => t.endChain streamID chainID stop reason now
  | .commitChunk chunk now => t.commitChunk chunk now
  | .supersedeChunks streamID chainID after => .ok (t.supersedeChunks streamID chainID after).1
  | .deleteChunks ids now purgeAfter => .ok (t.deleteChunks ids now purgeAfter).1
  | .markChunkPruned id => t.markChunkPruned id
  | .markChunkVerified id now verifyError => t.markChunkVerified id now verifyError
  | .deleteStream id => t.deleteStream id

/-- A call that is made; the database may fail while it runs. -/
structure Attempt where
  call : Call
  fails : Bool := false
  deriving DecidableEq

def Attempt.exec (t : Tables) (a : Attempt) : Except TxErr Tables :=
  if a.fails then .error .database else a.call.exec t

/-- The tables after a call: what an error leaves is rolled back. -/
def Attempt.next (t : Tables) (a : Attempt) : Tables :=
  match a.exec t with
  | .ok t' => t'
  | .error _ => t

/-- The tables after calls, and the calls that returned no error. -/
def run (t : Tables) : List Attempt → Tables × List Call
  | [] => (t, [])
  | a :: rest =>
    let after := run (a.next t) rest
    (after.1, match a.exec t with
      | .ok _ => a.call :: after.2
      | .error _ => after.2)

end MongoRescue.PITR.Store
