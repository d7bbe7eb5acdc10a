import MongoRescue.Lib.Table
import MongoRescue.HA.Snapshot

/-!
# Retention of snapshots

`prune` and `keptSnapshots` of `internal/ha/snapshot.go`, and what else a takeover asks a selection
(`FailedAhead`, `AuthenticEpoch` of `snapshotheader.go`). A `CheckedListing` is a whole listing in the
order of `ListSnapshots` with the outcome of every check; a snapshot's index is its place in it. The
storage lists a key once. A delete may fail, which leaves the object: `deletes` says which do not.
-/

namespace MongoRescue.HA

variable {cluster : String}

/-- The check failed otherwise: a storage error, a newer format. -/
def SnapshotCheck.failed (c : SnapshotCheck cluster) : Bool := !c.verified && !c.legacy && !c.refused

namespace SnapshotSelection

/-- `FailedAhead`: the first snapshot whose check failed, if it sorts before the first verified one. -/
def firstFailedAhead (sel : SnapshotSelection cluster) : Option (SnapshotCheck cluster) :=
  if sel.failedAhead then sel.failed.head? else none

/-- The highest of an epoch and those of the headers. -/
def maxEpoch (epoch : UInt64) (cs : List (SnapshotCheck cluster)) : UInt64 :=
  cs.foldl (fun e c => c.header.elim e fun h => max e h.epoch) epoch

/-- `AuthenticEpoch`: the highest epoch the selection proves was used, and whether it is known. -/
def authenticEpoch (sel : SnapshotSelection cluster) : UInt64 × Bool :=
  let epoch := maxEpoch 0 sel.verified
  let epoch := maxEpoch epoch (sel.refused.filter (·.header.any (·.cluster = cluster)))
  let epoch := if sel.candidates.2 then sel.candidates.1.foldl (fun e c => max e c.info.epoch) epoch else epoch
  (epoch, !sel.failedAhead && (!sel.verified.isEmpty || sel.complete))

end SnapshotSelection

/-- A listing with the outcome of every check. -/
structure CheckedListing (cluster : String) where
  checks : List (SnapshotCheck cluster)
  sorted : checks.Pairwise fun a b => !b.info.sortsBefore a.info
  distinct : (checks.map (·.info.key)).Nodup

namespace CheckedListing

/-- `selectSnapshots` of every snapshot. -/
def select (l : CheckedListing cluster) : SnapshotSelection cluster :=
  l.checks.foldl .add { listed := l.checks.length }

/-- The listing after some objects were deleted. -/
def without (l : CheckedListing cluster) (deleted : List String) : CheckedListing cluster :=
  { checks := l.checks.filter fun c => c.info.key ∉ deleted
    sorted := l.sorted.filter _
    distinct := Table.nodup_filter _ l.distinct }

end CheckedListing

/-! ## What is kept -/

/-- The state of the loop of `keptSnapshots`; no newest one is the empty key of the source. -/
structure Keeping where
  kept : List String := []
  newest : Option SnapshotInfo := none
  inEpoch : Nat := 0
  deriving DecidableEq

namespace Keeping

/-- Keeps a snapshot whose position is among the first. -/
def keepFirst (st : Keeping) (keep : Nat) (sn : SnapshotInfo) (i : Nat) : Keeping :=
  if i < keep then { st with kept := sn.key :: st.kept } else st

def keepInEpoch (st : Keeping) (current : UInt64) (keep : Nat) (sn : SnapshotInfo) : Keeping :=
  if sn.epoch = current ∧ st.inEpoch < keep then
    { st with kept := sn.key :: st.kept, inEpoch := st.inEpoch + 1 }
  else st

def seeNewest (st : Keeping) (sn : SnapshotInfo) : Keeping :=
  if st.newest.all fun n => n.createdAt < sn.createdAt then { st with newest := some sn } else st

end Keeping

/-- One round of `keptSnapshots`, with the position in the list. -/
def keepOne (current : UInt64) (keep : Nat) (st : Keeping) (sn : SnapshotInfo × Nat) : Keeping :=
  ((st.keepFirst keep sn.1 sn.2).keepInEpoch current keep sn.1).seeNewest sn.1

/-- The keys retention keeps: the first `keep`, the `keep` newest of the current epoch, and the newest
by its time. -/
def keptSnapshots (list : List SnapshotInfo) (current : UInt64) (keep : Nat) : List String :=
  let st := list.zipIdx.foldl (keepOne current keep) {}
  (st.newest.map (·.key)).toList ++ st.kept

section

variable (checks : List (SnapshotCheck cluster))

/-- The index of the last snapshot whose check failed, -1 for none. -/
def lastFailed : Int := (checks.zipIdx.filter (·.1.failed)).foldl (fun m c => max m c.2) (-1)

/-- The snapshots to drop, with their indexes. -/
def droppable (current : UInt64) (keep : Nat) : List (SnapshotCheck cluster × Nat) :=
  let verified := checks.zipIdx.filter (·.1.verified)
  let kept := keptSnapshots (verified.map (·.1.info)) current keep
  verified.filter (·.1.info.key ∉ kept) ++
    if 0 < verified.length then checks.zipIdx.filter (·.1.legacy) else []

end

/-- The keys `prune` deletes. -/
def prunedKeys (l : CheckedListing cluster) (current : UInt64) (cfgKeep : Int) : List String :=
  ((droppable l.checks current (max cfgKeep 1).toNat).filter
    fun old => lastFailed l.checks ≤ old.2).map (·.1.info.key)

/-- The listing after `prune`. -/
def prune (l : CheckedListing cluster) (current : UInt64) (cfgKeep : Int) (deletes : String → Bool) :
    CheckedListing cluster :=
  l.without ((prunedKeys l current cfgKeep).filter deletes)

end MongoRescue.HA
