import MongoRescue.HA.Cluster

/-!
# The fencing epochs of a cluster

The cluster together with the metadata snapshots that its instances write under their epochs, as
far as `EpochFloor` reports them, and with the history of the acquisitions: which requests were sent
by `acquire`, which floor each had read, and how many versions of the lease had been written by then.
-/

namespace MongoRescue.HA

open Go (Bytes)

/-- An acquisition that was sent. -/
structure Grant where
  /-- The number of its request. -/
  rid : Nat
  /-- The floor it had read. -/
  floor : UInt64
  /-- The versions of the lease object that had been written when the floor was read. -/
  written : Nat
  deriving DecidableEq

structure Fencing (ι : Type) where
  world : World ι
  /-- The epochs of the snapshots on the HA target. -/
  snapshots : List UInt64
  grants : List Grant

inductive FenceEvent (ι : Type)
  | ha (ev : Event ι)
  /-- A snapshot is stored under an epoch. -/
  | snapshot (epoch : UInt64)

namespace Fencing

variable {ι : Type} [DecidableEq ι]

/-- The acquisition that a step sent: the request that follows the answer of `EpochFloor`. -/
def granted (w w' : World ι) : Event ι → List Grant
  | .floorReturn _ (.ok f) _ =>
    if w.net.length < w'.net.length then [⟨w.net.length, f, w.log.length⟩] else []
  | _ => []

def step (hmac : Bytes → String → Bytes) (s : Fencing ι) : FenceEvent ι → Option (Fencing ι)
  | .ha ev => (s.world.step hmac ev).map fun w' =>
    { s with world := w', grants := s.grants ++ granted s.world w' ev }
  | .snapshot epoch => some { s with snapshots := s.snapshots ++ [epoch] }

def Initial (s : Fencing ι) : Prop := s.world.Initial ∧ s.snapshots = [] ∧ s.grants = []

/-- No epoch is the largest number, after which the next one would be zero. -/
def largest : UInt64 := 18446744073709551615

/-- What surrounds the instances: each has an `EpochFloor`, which reports at least the epoch of every
snapshot written so far; the lease may be deleted, and replaced by unreadable bytes, by hand; and the
epochs stay below the largest number. -/
def Surroundings (s : Fencing ι) : FenceEvent ι → Prop
  | .ha (.start _ cfg _) => cfg.epochFloor = true
  | .ha (.floorReturn _ (.ok f) _) => (∀ e ∈ s.snapshots, e ≤ f) ∧ f < largest
  | .ha (.writeByHand d) => decodeLease d = none
  | .ha (.commit rid) => ∀ r l, s.world.net[rid]? = some r → r.data = .json l → l.epoch < largest
  | _ => True

end Fencing

def fencing (hmac : Bytes → String → Bytes) (ι : Type) [DecidableEq ι] :
    Trans.Sys (Fencing ι) (FenceEvent ι) where
  init := Fencing.Initial
  step := Fencing.step hmac

end MongoRescue.HA
