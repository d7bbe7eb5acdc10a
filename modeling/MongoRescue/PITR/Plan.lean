import MongoRescue.PITR.Types
import Mathlib.Data.List.Sort

/-!
# Restore plans

`internal/pitr/plan.go`. `planFrom` walks the chunks of the chain that holds a base's `T_before` up to
the limit; `planRestore` tries the bases, newest consistent point first. Its errors carry the text that
follows the sentinel's own.
-/

namespace MongoRescue.PITR

inductive PlanErr
  | notFound (why : String)
  | invalidTarget (why : String)
  | outsideWindow (why : String)
  | chainBreak (why : String)
  | chunkFailed (why : String)
  | keyMissing (why : String)
  | planStale (why : String)
  /-- A read of the repository failed. -/
  | repo (why : String)
  deriving DecidableEq

/-! ## Targets -/

/-- The moment a restore goes back to: a time, with `Go.zeroTime` for none, or an exact position. -/
structure Target where
  atTime : Int := Go.zeroTime
  ts : Option Timestamp := none
  deriving DecidableEq

/-- The exclusive end of the replay. -/
def Target.limit (t : Target) : Except PlanErr Timestamp :=
  if decide (t.atTime = Go.zeroTime) = t.ts.isNone then
    .error (.invalidTarget "set exactly one of a time and an exact timestamp")
  else match t.ts with
    | some ts => if ts.isZero then .error (.invalidTarget "the timestamp is zero") else .ok ts
    | none =>
      let s := t.atTime / Go.second
      if s ≤ 0 ∨ 2 ^ 32 - 1 ≤ s then
        .error (.invalidTarget ("the time " ++ Go.rfc3339Nano (s * Go.second) ++ " is out of range"))
      else .ok ⟨UInt32.ofInt s + 1, 0⟩

/-- The wall-clock time of the target. -/
def Target.time (t : Target) : Int :=
  match t.ts with
  | some ts => ts.time
  | none => t.atTime / Go.second * Go.second

/-! ## Plans -/

/-- A base backup as the planner sees it. -/
structure Base where
  id : String
  tBefore : OpTime
  tAfter : OpTime
  sizeBytes : Int64 := 0
  encrypted : Bool := false
  encryptionMode : String := ""
  startedAt : Int := 0
  deriving DecidableEq

structure RestorePlan where
  streamID : String := ""
  chainID : String
  base : Base
  chunks : List Chunk := []
  chunkCount : Nat := 0
  oplogBytes : Int64 := 0
  unverifiedChunks : Nat := 0
  limit : Timestamp
  targetTime : Int := Go.zeroTime
  deriving DecidableEq

/-- The chunks from the one that holds `t` on: the first that ends at or after `t`, if it starts at or
before it. Empty when there is none. -/
def runFrom (t : Timestamp) (chunks : List Chunk) : List Chunk :=
  match chunks.dropWhile (·.toTS < t) with
  | [] => []
  | ch :: rest => if ch.fromTS ≤ t then ch :: rest else []

/-- The plan built so far, and whether its chunks hold the base's consistent point. -/
structure Walk where
  plan : RestorePlan
  termOK : Bool := false

/-- `ch` holds the consistent point of `b`. -/
def Chunk.holdsAfter (ch : Chunk) (b : Base) : Bool :=
  ch.fromTS < b.tAfter.ts && b.tAfter.ts ≤ ch.toTS

/-- The term of the consistent point of `b` is none of the chunk's. -/
def Chunk.otherTerm (ch : Chunk) (b : Base) : Bool :=
  b.tAfter.term ≠ 0 && (b.tAfter.term < ch.firstTerm || ch.lastTerm < b.tAfter.term)

def Chunk.span (ch : Chunk) : String := ch.fromTS.string ++ "-" ++ ch.toTS.string

def addChunk (prev : Option Chunk) (w : Walk) (ch : Chunk) : Except PlanErr Walk :=
  let b := w.plan.base
  match prev.filter (·.toTS ≠ ch.fromTS) with
  | some p => .error (.chainBreak ("chain " ++ w.plan.chainID ++ " has no chunk from " ++
      p.toTS.string ++ " to " ++ ch.fromTS.string))
  | none =>
    if Go.blank ch.sha256 then
      .error (.chunkFailed ("chunk " ++ ch.id ++ " (" ++ ch.span ++ ") has no recorded checksum"))
    else if ch.verifyError ≠ "" then
      .error (.chunkFailed ("chunk " ++ ch.id ++ " (" ++ ch.span ++ "): " ++ ch.verifyError))
    else if !w.termOK && ch.holdsAfter b && ch.otherTerm b then
      .error (.chainBreak ("the consistent point of base " ++ b.id ++ " (term " ++
        toString b.tAfter.term ++ ") is not in chain " ++ w.plan.chainID ++ " (rolled back)"))
    else .ok ⟨{ w.plan with
        chunks := w.plan.chunks ++ [ch]
        oplogBytes := w.plan.oplogBytes + ch.sizeBytes
        unverifiedChunks := w.plan.unverifiedChunks + (if ch.verifiedAt.isNone then 1 else 0) },
      w.termOK || ch.holdsAfter b⟩

/-- The plan whose last chunk reaches the limit. -/
def finish (w : Walk) : Except PlanErr RestorePlan :=
  let first := (w.plan.chunks.head?.map (·.fromTS)).getD {}
  if !w.termOK && first < w.plan.base.tAfter.ts then
    .error (.chainBreak ("chain " ++ w.plan.chainID ++
      " does not hold the consistent point of base " ++ w.plan.base.id))
  else .ok { w.plan with chunkCount := w.plan.chunks.length }

/-- Walks the chunks up to the one that reaches the limit; `none` when the chain ends before it. -/
def walk (prev : Option Chunk) (w : Walk) : List Chunk → Except PlanErr (Option RestorePlan)
  | [] => .ok none
  | ch :: rest => do
    let w ← addChunk prev w ch
    if w.plan.limit ≤ ch.toTS then return some (← finish w)
    else walk (some ch) w rest

/-- The plan that restores `b` and replays up to `limit`, from the first chain that holds its
`T_before`. -/
def planFrom (byChain : String → List Chunk) (b : Base) (limit : Timestamp) :
    List Chain → Except PlanErr RestorePlan
  | [] => .error (.chainBreak ("no oplog chain covers base " ++ b.id ++ " from its start"))
  | c :: rest =>
    let chunks := byChain c.chainID
    match runFrom b.tBefore.ts chunks with
    | [] => planFrom byChain b limit rest
    | run => do
      match ← walk none ⟨{ chainID := c.chainID, base := b, limit }, false⟩ run with
      | some plan => return plan
      | none =>
        let stop := (chunks.getLast?.map (·.toTS)).getD {}
        .error (.chainBreak ("chain " ++ c.chainID ++ " of base " ++ b.id ++ " ends at " ++
          stop.string ++ " (" ++ Go.rfc3339Nano stop.time ++ "), before the target"))

/-! ## Keys -/

def modeName (mode : String) : String := if mode = "" then "unknown mode" else mode

def missingKey (hasKey : Option (String → Bool)) (encrypted : Bool) (mode : String) : Bool :=
  encrypted && (match hasKey with | none => true | some h => !h mode)

def checkKeys (plan : RestorePlan) (hasKey : Option (String → Bool)) : Except PlanErr Unit :=
  if missingKey hasKey plan.base.encrypted plan.base.encryptionMode then
    .error (.keyMissing ("base " ++ plan.base.id ++ " is encrypted (" ++
      modeName plan.base.encryptionMode ++ ")"))
  else match plan.chunks.find? fun ch => missingKey hasKey ch.encrypted ch.encryptionMode with
    | some ch => .error (.keyMissing ("chunk " ++ ch.id ++ " is encrypted (" ++
        modeName ch.encryptionMode ++ ")"))
    | none => .ok ()

/-! ## Planning -/

structure PlanSource where
  repo : Repository
  bases : List Base
  hasKey : Option (String → Bool) := none

def PlanSource.liveChunks (src : PlanSource) (streamID chainID : String) :
    Except PlanErr (List Chunk) :=
  match src.repo.listChunks { streamID, chainID, status := some .committed, live := true } with
  | none => .error (.repo ("list chunks of chain " ++ chainID))
  | some chunks => .ok (chunks.filter (·.live))

/-- The live chunks of every chain, in the order of the chains. -/
def PlanSource.byChain (src : PlanSource) (streamID : String) :
    List Chain → Except PlanErr (List (String × List Chunk))
  | [] => .ok []
  | c :: rest => do
    let live ← src.liveChunks streamID c.chainID
    return (c.chainID, live) :: (← src.byChain streamID rest)

def chunksOf (byChain : List (String × List Chunk)) (chainID : String) : List Chunk :=
  ((byChain.find? (·.1 = chainID)).map (·.2)).getD []

def newestEnd (byChain : List (String × List Chunk)) : Timestamp :=
  byChain.foldl (fun newest p => max newest ((p.2.getLast?.map (·.toTS)).getD {})) {}

/-- The bases whose consistent point is before the limit, newest consistent point first. -/
def candidates (bases : List Base) (limit : Timestamp) : List Base :=
  (bases.filter fun b => b.tAfter.ts < limit && !b.tBefore.ts.isZero).insertionSort
    fun a b => b.tAfter.ts ≤ a.tAfter.ts

/-- The plan of the first base that has one; otherwise the reason of the first. -/
def firstPlan (plan : Base → Except PlanErr RestorePlan) :
    Option PlanErr → List Base → Except (Option PlanErr) RestorePlan
  | firstErr, [] => .error firstErr
  | firstErr, b :: rest =>
    match plan b with
    | .ok p => .ok p
    | .error e => firstPlan plan (firstErr.or (some e)) rest

def planRestore (streamID : Option String) (src : PlanSource) (target : Target) :
    Except PlanErr RestorePlan := do
  match streamID with
  | none => .error (.notFound "stream")
  | some streamID =>
    let limit ← target.limit
    match src.repo.listChains streamID with
    | none => .error (.repo "list chains")
    | some chains =>
      let byChain ← src.byChain streamID chains
      let newest := newestEnd byChain
      if newest < limit then
        if newest.isZero then .error (.outsideWindow "the stream has no oplog chunks")
        else .error (.outsideWindow ("the newest collected oplog entry is " ++ newest.string ++ " (" ++
          Go.rfc3339Nano newest.time ++ "); choose a time before it"))
      else
        match firstPlan (fun b => planFrom (chunksOf byChain) b limit chains) none
            (candidates src.bases limit) with
        | .ok plan =>
          let plan := { plan with streamID, targetTime := target.time }
          checkKeys plan src.hasKey
          return plan
        | .error (some e) => .error e
        | .error none =>
          .error (.outsideWindow "no base backup has a consistent point before the target")

end MongoRescue.PITR
