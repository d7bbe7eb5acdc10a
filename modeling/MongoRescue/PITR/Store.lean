import MongoRescue.PITR.Types
import Mathlib.Data.List.Sort

/-!
# The tables of a stream

`internal/store/pitr.go`: the chains, the chunks and the collector state of one stream, and the
transactions that change them. A transaction that returns an error changes nothing.
-/

namespace MongoRescue.PITR

inductive StoreErr
  | invalidRecord
  | notFound
  | alreadyExists
  | chainOpen
  | chainEnded
  | discontinuous
  deriving DecidableEq

/-- The persisted position of the collector. -/
structure CollectorState where
  chainID : String
  /-- The end of the last committed chunk, or the chain's start, with its term. -/
  last : OpTime
  replicaSetID : String := ""
  deriving DecidableEq

structure DB where
  chains : List Chain := []
  /-- The chunk rows in the order they were inserted. -/
  chunks : List Chunk := []
  state : Option CollectorState := none

namespace DB

/-- `ListChunks`: `ORDER BY from, to, id`. -/
def listChunks (db : DB) (q : ChunkQuery) : List Chunk :=
  (db.chunks.filter q.selects).insertionSort fun a b =>
    a.fromTS < b.fromTS ∨ (a.fromTS = b.fromTS ∧ (a.toTS < b.toTS ∨ (a.toTS = b.toTS ∧ a.id ≤ b.id)))

/-- `ListChains`: `ORDER BY start, chain_id`. -/
def listChains (db : DB) : List Chain :=
  db.chains.insertionSort fun a b => a.start < b.start ∨ (a.start = b.start ∧ a.chainID ≤ b.chainID)

/-- Inserts an open chain and points the state at it. -/
def startChain (db : DB) (streamID chainID : String) (start : OpTime) : Except StoreErr DB :=
  if chainID = "" then .error .invalidRecord
  else if db.chains.any (·.isOpen) then .error .chainOpen
  else if db.chains.any (·.chainID = chainID) then .error .alreadyExists
  else .ok { db with
    chains := db.chains ++ [{ streamID, chainID, start := start.ts }]
    state := some { chainID, last := start
                    replicaSetID := (db.state.map (·.replicaSetID)).getD "" } }

/-- An unknown or ended chain is an error. -/
def openChain (db : DB) (chainID : String) : Except StoreErr Unit :=
  match db.chains.find? (·.chainID = chainID) with
  | none => .error .notFound
  | some c => if c.isOpen then .ok () else .error .chainEnded

/-- Records that an open chain ended. -/
def endChain (db : DB) (chainID : String) (stop : Timestamp) (reason : EndReason) (now : Int) :
    Except StoreErr DB := do
  db.openChain chainID
  return { db with chains := db.chains.map fun c =>
    if c.chainID = chainID then { c with stop, endReason := some reason, endedAt := some now } else c }

/-- Inserts a chunk that continues the state, and moves the state to its end. -/
def commitChunk (db : DB) (c : Chunk) : Except StoreErr DB := do
  if c.id = "" ∨ c.chainID = "" ∨ c.targetID = "" ∨ c.toTS < c.fromTS then .error .invalidRecord
  else match db.state with
    | none => .error .notFound
    | some st =>
      if st.chainID ≠ c.chainID then .error .chainEnded
      else do
        db.openChain c.chainID
        if st.last.ts ≠ c.fromTS then .error .discontinuous
        else if db.chunks.any fun d =>
            d.id = c.id || (d.targetID = c.targetID && d.storageKey = c.storageKey) then
          .error .alreadyExists
        else return { db with
          chunks := db.chunks ++ [{ c with status := .committed }]
          state := some { st with last := ⟨c.toTS, c.lastTerm⟩ } }

/-- Supersedes the committed chunks of a chain that end after `after`. -/
def supersedeChunks (db : DB) (chainID : String) (after : Timestamp) : DB :=
  { db with chunks := db.chunks.map fun c =>
    if c.chainID = chainID ∧ c.status = .committed ∧ after < c.toTS then
      { c with status := .superseded }
    else c }

def setReplicaSetID (db : DB) (id : String) : DB :=
  { db with state := db.state.map fun st => { st with replicaSetID := id } }

end DB

end MongoRescue.PITR
