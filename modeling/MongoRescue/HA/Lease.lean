import MongoRescue.Lib.Go

/-!
# The lease of an HA cluster

`internal/ha/lease.go`: the lease object that decides which instance of a cluster is active, its
MAC, and the mark of the newest metadata snapshot it names. The lease is stored as JSON; a
`Content` is either the JSON of a lease or bytes that `decodeLease` refuses. HMAC-SHA256 is a
parameter `hmac` of everything that signs or checks a MAC.
-/

namespace MongoRescue.HA

open Go (Bytes)

inductive Role
  | standby
  | active
  deriving DecidableEq

/-- The sentinel errors of the package. -/
inductive Err
  | notActive
  | keyMismatch
  deriving DecidableEq

/-- How new a metadata snapshot is: its epoch, then its time. -/
structure SnapshotMark where
  epoch : UInt64 := 0
  takenAt : Int := Go.zeroTime
  deriving DecidableEq

def SnapshotMark.before (m o : SnapshotMark) : Bool :=
  if m.epoch ≠ o.epoch then decide (m.epoch < o.epoch) else decide (m.takenAt < o.takenAt)

def laterMark (a b : SnapshotMark) : SnapshotMark := if a.before b then b else a

structure Lease where
  cluster : String := ""
  /-- The instance that holds the lease; empty once released. -/
  holder : String := ""
  holderName : String := ""
  /-- The fencing token: grows with every takeover. -/
  epoch : UInt64 := 0
  /-- Grows with every write, so every write has distinct content. -/
  seq : UInt64 := 0
  renewedAt : Int := Go.zeroTime
  ttlSeconds : Int := 0
  keyID : String := ""
  lastSnapshotEpoch : UInt64 := 0
  lastSnapshotAt : Int := Go.zeroTime
  mac : String := ""
  deriving DecidableEq

/-- What the lease object holds. -/
inductive Content
  | json (l : Lease)
  | other (data : Bytes)
  deriving DecidableEq

namespace Lease

def snapshotMark (l : Lease) : SnapshotMark := ⟨l.lastSnapshotEpoch, l.lastSnapshotAt⟩

def withSnapshotMark (l : Lease) (m : SnapshotMark) : Lease :=
  { l with lastSnapshotEpoch := m.epoch, lastSnapshotAt := m.takenAt }

/-- The authenticated content of the lease. -/
def macInput (l : Lease) : String :=
  let at' := if l.lastSnapshotAt = Go.zeroTime then "" else Go.rfc3339Nano l.lastSnapshotAt
  "mongorescue-ha-lease/1\x00" ++ l.cluster ++ "\x00" ++ toString l.epoch ++ "\x00" ++ l.holder ++
    "\x00" ++ toString l.lastSnapshotEpoch ++ "\x00" ++ at'

section
variable (hmac : Bytes → String → Bytes)

def leaseMAC (l : Lease) (key : Bytes) : Bytes := hmac key l.macInput

def sign (l : Lease) (key : Bytes) : Lease := { l with mac := Go.hexEncode (l.leaseMAC hmac key) }

/-- The lease carries a valid MAC under `key`. -/
def authentic (l : Lease) (key : Bytes) : Bool :=
  match Go.hexDecode l.mac with
  | none => false
  | some mac => l.mac ≠ "" && mac = l.leaseMAC hmac key

end

def released (l : Lease) : Bool := l.holder = ""

/-- The holder's TTL. -/
def ttl (l : Lease) : Int := Go.wrap64 (l.ttlSeconds * Go.second)

/-- The JSON of the lease; `none` when one of its times has no JSON form. The zero snapshot time is
omitted. -/
def encode (l : Lease) : Option Content :=
  if Go.marshals l.renewedAt && (l.lastSnapshotAt = Go.zeroTime || Go.marshals l.lastSnapshotAt)
  then some (.json l) else none

theorem encode_eq_some {l : Lease} {c : Content} (h : l.encode = some c) : c = .json l := by
  unfold encode at h
  split at h
  · exact (Option.some.inj h).symm
  · cases h

end Lease

def decodeLease : Content → Option Lease
  | .json l => some l
  | .other _ => none

end MongoRescue.HA
