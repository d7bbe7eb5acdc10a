import MongoRescue.Lib.Go
import Mathlib.Data.Prod.Lex

/-!
# Point-in-time recovery: chains and chunks

`internal/pitr/pitr.go`. A stream's collector stores the oplog as chunks, each a range `(From, To]`;
an unbroken run of chunks is a chain. `Repository` is the part of the persistence port that planning
reads, with what it promises: `ListChunks` returns chunks that match its query, ordered by `From`.
-/

namespace MongoRescue.PITR

/-- A position in the oplog: seconds since the epoch and the ordinal within the second. -/
structure Timestamp where
  t : UInt32 := 0
  i : UInt32 := 0
  deriving DecidableEq

namespace Timestamp

/-- What `Compare` sorts by: `t`, then `i`. -/
def key (ts : Timestamp) : Lex (Nat × Nat) := toLex (ts.t.toNat, ts.i.toNat)

theorem key_injective : Function.Injective key := by
  intro a b h
  obtain ⟨t, i⟩ := a
  obtain ⟨t', i'⟩ := b
  have h' : (t.toNat, i.toNat) = (t'.toNat, i'.toNat) := toLex.injective h
  rw [Prod.mk.injEq] at h'
  rw [UInt32.toNat_inj.mp h'.1, UInt32.toNat_inj.mp h'.2]

instance : LinearOrder Timestamp := LinearOrder.lift' key key_injective

def isZero (ts : Timestamp) : Bool := ts.t = 0 && ts.i = 0

/-- The wall-clock second, in nanoseconds. -/
def time (ts : Timestamp) : Int := ts.t.toNat * Go.second

/-- `T.I`, both padded to ten digits. -/
def string (ts : Timestamp) : String :=
  Go.padded 10 ts.t.toNat ++ "." ++ Go.padded 10 ts.i.toNat

end Timestamp

/-- A position with the term of the entry there. -/
structure OpTime where
  ts : Timestamp := {}
  term : Int := 0
  deriving DecidableEq

/-! ## Chains and chunks -/

inductive EndReason
  | gap
  | replicaSetChanged
  | diverged
  | stopped
  deriving DecidableEq

structure Chain where
  streamID : String := ""
  chainID : String
  /-- The position the first chunk continues from. -/
  start : Timestamp := {}
  /-- Where, why and when the chain ended; the reason and the time are `none` while it is open. -/
  stop : Timestamp := {}
  endReason : Option EndReason := none
  endedAt : Option Int := none
  deriving DecidableEq

/-- `Open`: the chain has not ended. -/
def Chain.isOpen (c : Chain) : Bool := c.endedAt.isNone

inductive ChunkStatus
  | committed
  | superseded
  | pruned
  deriving DecidableEq

/-- `ChunkKey`: the storage key of a chunk, as the parts it is printed from. -/
structure ChunkKey where
  connectionID : String := ""
  replicaSet : String := ""
  chainID : String := ""
  fromTS : Timestamp := {}
  toTS : Timestamp := {}
  deriving DecidableEq

/-- A stored range `(From, To]` of the oplog. -/
structure Chunk where
  id : String
  streamID : String := ""
  chainID : String := ""
  targetID : String := ""
  storageKey : ChunkKey := {}
  fromTS : Timestamp
  toTS : Timestamp
  firstTerm : Int := 0
  lastTerm : Int := 0
  sizeBytes : Int64 := 0
  sha256 : String := ""
  encrypted : Bool := false
  encryptionMode : String := ""
  status : ChunkStatus := .committed
  verifiedAt : Option Int := none
  verifyError : String := ""
  versionID : String := ""
  deletedAt : Option Int := none
  /-- The end of the grace period of a deleted chunk. -/
  purgeAfter : Option Int := none
  /-- The recorded end of the object's lock. -/
  retainUntil : Option Int := none
  deriving DecidableEq

def Chunk.live (c : Chunk) : Bool := c.status = .committed && c.deletedAt.isNone

/-! ## The repository -/

/-- Selects the chunks of one chain whose range overlaps `(After, Until]`. -/
structure ChunkQuery where
  streamID : String
  chainID : String
  afterTS : Timestamp := {}
  untilTS : Timestamp := {}
  /-- Keeps only this status; `none` keeps every status. -/
  status : Option ChunkStatus := none
  live : Bool := false
  deriving DecidableEq

def ChunkQuery.selects (q : ChunkQuery) (c : Chunk) : Bool :=
  c.streamID = q.streamID && c.chainID = q.chainID &&
    (q.afterTS.isZero || q.afterTS < c.toTS) && (q.untilTS.isZero || c.fromTS < q.untilTS) &&
    (match q.status with | none => true | some s => c.status = s) &&
    (!q.live || (c.deletedAt.isNone && c.status ≠ .pruned))

/-- The reads of the persistence port; `none` is a failed read. -/
structure Repository where
  listChains : String → Option (List Chain)
  listChunks : ChunkQuery → Option (List Chunk)
  selected : ∀ {q cs}, listChunks q = some cs → ∀ c ∈ cs, q.selects c
  ordered : ∀ {q cs}, listChunks q = some cs → cs.Pairwise (·.fromTS ≤ ·.fromTS)

end MongoRescue.PITR
