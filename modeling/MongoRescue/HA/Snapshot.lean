import MongoRescue.HA.Lease

/-!
# Metadata snapshots on the HA target

`internal/ha/snapshot.go` and `snapshotheader.go`: the names of the snapshots, their authenticated
headers, the check of one snapshot and the selection that decisions are made from. The plaintext of
a snapshot is authenticated as a whole; a `Plaintext` tells apart what `parseSnapshotHeader` does.
What a download gives is an argument (`Retrieved`), since others may replace an object at any time.

A `SnapshotInfo` carries that its time and epoch are those of its name, and a `SnapshotCheck`
without an error that the header agrees with the name and the cluster.
-/

namespace MongoRescue.HA

/-! ## Names -/

def snapshotsPrefix : String := "_mongorescue/metadata/ha/"

def snapshotPrefix (cluster : String) : String := snapshotsPrefix ++ cluster ++ "/"

/-- `t.UTC().Format(snapshotLayout)` without its dot: the date, and the time of day to the
millisecond. -/
def stamp (t : Int) : String :=
  let secs := t / Go.second
  let date := Go.civil (secs / 86400)
  let clock := secs % 86400
  Go.padded 4 date.1 ++ Go.padded 2 date.2.1 ++ Go.padded 2 date.2.2 ++ "T" ++
    Go.padded 2 (clock / 3600) ++ Go.padded 2 (clock / 60 % 60) ++ Go.padded 2 (clock % 60) ++
    Go.padded 3 (t % Go.second / 1000000)

/-- The file name of a snapshot. -/
def snapshotFile (t : Int) (epoch : UInt64) : String :=
  "mongorescue-" ++ stamp t ++ "Z-e" ++ Go.padded 20 epoch.toNat ++ ".db.age"

def snapshotKey (cluster : String) (t : Int) (epoch : UInt64) : String :=
  snapshotPrefix cluster ++ snapshotFile t epoch

/-- The number that decimal digits write. -/
def decimal (cs : List Char) : Option Nat :=
  if cs.all Char.isDigit then some (cs.foldl (fun n c => 10 * n + (c.toNat - '0'.toNat)) 0)
  else none

def daysIn (year month : Nat) : Nat :=
  if month = 2 then (if year % 4 = 0 ∧ (year % 100 ≠ 0 ∨ year % 400 = 0) then 29 else 28)
  else if month = 4 ∨ month = 6 ∨ month = 9 ∨ month = 11 then 30 else 31

/-- The days from the Unix epoch to a date. -/
def daysFromCivil (year month day : Int) : Int :=
  let y := if month ≤ 2 then year - 1 else year
  let yoe := y % 400
  let mp := if month ≤ 2 then month + 9 else month - 3
  let doy := (153 * mp + 2) / 5 + day - 1
  y / 400 * 146097 + (yoe * 365 + yoe / 4 - yoe / 100 + doy) - 719468

/-- `time.ParseInLocation` with `snapshotLayout`: the digits of the date, and of the time of day to
the millisecond. -/
def parseStamp (date clock : Nat) : Option Int :=
  let (year, month, day) := (date / 10000, date / 100 % 100, date % 100)
  let (hour, minute, sec) := (clock / 10000000, clock / 100000 % 100, clock / 1000 % 100)
  if 1 ≤ month ∧ month ≤ 12 ∧ 1 ≤ day ∧ day ≤ daysIn year month ∧ hour < 24 ∧ minute < 60 ∧
      sec < 60 then
    some ((daysFromCivil year month day * 86400 + (hour * 3600 + minute * 60 + sec : Nat)) *
      Go.second + (clock % 1000 : Nat) * 1000000)
  else none

/-- `snapshotName`: `mongorescue-<8 digits>T<9 digits>Z-e<20 digits>.db.age`. -/
def parseSnapshotName (name : List Char) : Option (Int × UInt64) :=
  let part (i n : Nat) := (name.drop i).take n
  if name.length = 60 ∧ part 0 12 = "mongorescue-".toList ∧ part 20 1 = ['T'] ∧
      part 30 3 = "Z-e".toList ∧ part 53 7 = ".db.age".toList then
    match decimal (part 12 8), decimal (part 21 9), decimal (part 33 20) with
    | some date, some clock, some epoch =>
      if epoch < 18446744073709551616 then
        (parseStamp date clock).map fun t => (t, UInt64.ofNat epoch)
      else none
    | _, _, _ => none
  else none

/-- The time and epoch of a snapshot's name, which follows the last slash of the key. -/
def parseSnapshotKey (key : String) : Option (Int × UInt64) :=
  parseSnapshotName (key.toList.reverse.takeWhile (· ≠ '/')).reverse

/-- An object in the storage's listing. -/
structure StoredObject where
  key : String
  sizeBytes : Int := 0
  modTime : Int := Go.zeroTime
  etag : String := ""
  deriving DecidableEq

/-- A stored snapshot: its time and epoch are read from its name. -/
structure SnapshotInfo where
  key : String
  createdAt : Int
  epoch : UInt64
  sizeBytes : Int := 0
  modTime : Int := Go.zeroTime
  etag : String := ""
  named : parseSnapshotKey key = some (createdAt, epoch)
  deriving DecidableEq

def SnapshotInfo.mark (i : SnapshotInfo) : SnapshotMark := ⟨i.epoch, i.createdAt⟩

def StoredObject.snapshot (o : StoredObject) (cluster : String) : Option SnapshotInfo :=
  if (snapshotPrefix cluster).toList.isPrefixOf o.key.toList then
    match h : parseSnapshotKey o.key with
    | none => none
    | some (t, epoch) => some ⟨o.key, t, epoch, o.sizeBytes, o.modTime, o.etag, h⟩
  else none

/-- The order of `ListSnapshots`: the highest epoch, then the newest. -/
def SnapshotInfo.sortsBefore (a b : SnapshotInfo) : Bool := b.mark.before a.mark

/-- `ListSnapshots` may return `list` for the stored objects: those of equal rank are in no fixed
order. -/
def IsListing (cluster : String) (objs : List StoredObject) (list : List SnapshotInfo) : Prop :=
  list.Perm (objs.filterMap (·.snapshot cluster)) ∧ list.Pairwise fun a b => !b.sortsBefore a

instance (cluster : String) (objs : List StoredObject) (list : List SnapshotInfo) :
    Decidable (IsListing cluster objs list) :=
  inferInstanceAs (Decidable (_ ∧ _))

/-! ## Headers -/

structure SnapshotHeader where
  format : Int := 1
  cluster : String
  epoch : UInt64
  instanceID : String
  createdAt : Int
  deriving DecidableEq

/-- Why a snapshot that decrypts is refused. -/
inductive Rejection
  /-- the header is too long, truncated or malformed -/
  | malformed
  /-- unknown header format -/
  | oldFormat (format : Int)
  /-- not a snapshot of the cluster -/
  | place
  /-- not a snapshot name -/
  | name
  /-- written for another cluster -/
  | cluster (header : String)
  /-- written under an epoch other than the name's -/
  | epoch (header : UInt64)
  /-- taken at a time other than the name's -/
  | time (header : Int)
  deriving DecidableEq

inductive SnapshotErr
  | legacy
  | rejected (why : Rejection)
  | unreadable
  | format (format : Int)
  | storage
  deriving DecidableEq

/-- The plaintext of a snapshot: without the magic, with a header that cannot be read, or with a
header. -/
inductive Plaintext
  | legacy
  | malformed
  | headed (h : SnapshotHeader)
  deriving DecidableEq

inductive Retrieved
  /-- The download or a read of it failed. -/
  | failed
  /-- The passphrase does not decrypt it. -/
  | undecryptable
  | plain (p : Plaintext)
  deriving DecidableEq

def snapshotFormat : Int := 1

/-- `none` for a plaintext without a header. -/
def parseSnapshotHeader : Plaintext → Except SnapshotErr (Option SnapshotHeader)
  | .legacy => .ok none
  | .malformed => .error (.rejected .malformed)
  | .headed h =>
    if h.format > snapshotFormat then .error (.format h.format)
    else if h.format ≠ snapshotFormat then .error (.rejected (.oldFormat h.format))
    else .ok (some h)

/-- The header belongs to the cluster and to the snapshot stored under the key. -/
def SnapshotHeader.verify (h : SnapshotHeader) (cluster key : String) : Except SnapshotErr Unit :=
  if !(snapshotPrefix cluster).toList.isPrefixOf key.toList then .error (.rejected .place)
  else match parseSnapshotKey key with
    | none => .error (.rejected .name)
    | some (t, epoch) =>
      if h.cluster ≠ cluster then .error (.rejected (.cluster h.cluster))
      else if h.epoch ≠ epoch then .error (.rejected (.epoch h.epoch))
      else if h.createdAt ≠ t then .error (.rejected (.time h.createdAt))
      else .ok ()

/-- `openSnapshot`: the error, if any, and the authentic header, also one that does not match. -/
def openSnapshot (cluster key : String) : Retrieved → Option SnapshotErr × Option SnapshotHeader
  | .failed => (some .storage, none)
  | .undecryptable => (some .unreadable, none)
  | .plain p =>
    match parseSnapshotHeader p with
    | .error e => (some e, none)
    | .ok none => (none, none)
    | .ok (some h) =>
      match h.verify cluster key with
      | .error e => (some e, some h)
      | .ok () => (none, some h)

/-! ## Checks -/

/-- The outcome of reading the header of a snapshot of `cluster`. -/
structure SnapshotCheck (cluster : String) where
  info : SnapshotInfo
  header : Option SnapshotHeader
  err : Option SnapshotErr
  agrees : err = none → ∃ h, header = some h ∧ h.verify cluster info.key = .ok ()
  deriving DecidableEq

namespace SnapshotCheck

variable {cluster : String}

def verified (c : SnapshotCheck cluster) : Bool := c.err.isNone && c.header.isSome

def legacy (c : SnapshotCheck cluster) : Bool := c.err = some .legacy

def refused (c : SnapshotCheck cluster) : Bool :=
  match c.err with
  | some (.rejected _) => true
  | some .unreadable => true
  | _ => false

/-- The header is of a format this version does not know. -/
def newerFormat (c : SnapshotCheck cluster) : Bool :=
  match c.err with
  | some (.format _) => true
  | _ => false

def determinate (c : SnapshotCheck cluster) : Bool :=
  c.err.isNone || c.legacy || c.refused || c.newerFormat

end SnapshotCheck

/-- What `openSnapshot` returns without an error is verified, or has no header. -/
theorem openSnapshot_agrees {cluster key : String} {r : Retrieved} {h : SnapshotHeader}
    (hr : openSnapshot cluster key r = (none, some h)) : h.verify cluster key = .ok () := by
  cases r with
  | failed => cases hr
  | undecryptable => cases hr
  | plain p =>
    simp only [openSnapshot] at hr
    split at hr
    · cases hr
    · cases hr
    · split at hr
      · cases hr
      · rename_i hv
        cases hr
        exact hv

/-- `CheckSnapshot`, given what the download gives. -/
def checkSnapshot (cluster : String) (info : SnapshotInfo) (r : Retrieved) :
    SnapshotCheck cluster :=
  match hr : openSnapshot cluster info.key r with
  | (some e, h) => ⟨info, h, some e, fun he => (by cases he)⟩
  | (none, none) => ⟨info, none, some .legacy, fun he => (by cases he)⟩
  | (none, some h) => ⟨info, some h, none, fun _ => ⟨h, rfl, openSnapshot_agrees hr⟩⟩

/-! ## Selection -/

structure SnapshotSelection (cluster : String) where
  verified : List (SnapshotCheck cluster) := []
  legacy : List (SnapshotCheck cluster) := []
  refused : List (SnapshotCheck cluster) := []
  failed : List (SnapshotCheck cluster) := []
  listed : Nat
  complete : Bool := true
  headerSeen : Bool := false
  failedAhead : Bool := false
  deriving DecidableEq

namespace SnapshotSelection

variable {cluster : String}

def add (sel : SnapshotSelection cluster) (c : SnapshotCheck cluster) : SnapshotSelection cluster :=
  let sel :=
    if c.verified then { sel with verified := sel.verified ++ [c] }
    else if c.legacy then { sel with legacy := sel.legacy ++ [c] }
    else if c.refused then { sel with refused := sel.refused ++ [c] }
    else { sel with
      failed := sel.failed ++ [c], failedAhead := sel.failedAhead || sel.verified.isEmpty }
  { sel with
    headerSeen := sel.headerSeen || c.header.any (·.cluster = cluster) || c.newerFormat
    complete := sel.complete && c.determinate }

/-- The snapshots a takeover may restore, and whether they are legacy ones. -/
def candidates (sel : SnapshotSelection cluster) : List (SnapshotCheck cluster) × Bool :=
  if sel.failedAhead then ([], false)
  else if !sel.verified.isEmpty then (sel.verified, false)
  else if sel.complete && !sel.headerSeen && !sel.legacy.isEmpty then (sel.legacy, true)
  else ([], false)

end SnapshotSelection

def sameObject (a b : SnapshotInfo) : Bool :=
  a.key = b.key && a.sizeBytes = b.sizeBytes && a.modTime = b.modTime && a.etag = b.etag

/-- The outcomes a `SnapshotChecker` remembers, by key. -/
abbrev SnapshotCache (cluster : String) := List (SnapshotCheck cluster)

section
variable {cluster : String}

/-- A remembered outcome, or a new check, which is remembered when it settles what the snapshot
is. -/
def checkCached (cache : SnapshotCache cluster) (info : SnapshotInfo) (r : Retrieved) :
    SnapshotCheck cluster × SnapshotCache cluster :=
  match cache.find? (·.info.key = info.key) with
  | some old => (old, cache)
  | none =>
    let c := checkSnapshot cluster info r
    (c, if c.determinate then c :: cache else cache)

/-- `selectSnapshots`: the snapshots in order until `want` are verified (0: all). -/
def selectSnapshots (want : Nat) (retrieve : String → Retrieved) :
    List SnapshotInfo → SnapshotSelection cluster → SnapshotCache cluster →
      SnapshotSelection cluster × SnapshotCache cluster
  | [], sel, cache => (sel, cache)
  | info :: rest, sel, cache =>
    if 0 < want ∧ want ≤ sel.verified.length then ({ sel with complete := false }, cache)
    else
      let (c, cache) := checkCached cache info (retrieve info.key)
      selectSnapshots want retrieve rest (sel.add c) cache

/-- `SnapshotChecker.Select` of a listing; outcomes of objects that are gone or changed are
forgotten. -/
def SnapshotCache.select (cache : SnapshotCache cluster) (list : List SnapshotInfo) (want : Nat)
    (retrieve : String → Retrieved) : SnapshotSelection cluster × SnapshotCache cluster :=
  let kept := cache.filter fun old =>
    (list.reverse.find? (·.key = old.info.key)).any (sameObject old.info)
  selectSnapshots want retrieve list { listed := list.length } kept

end

end MongoRescue.HA
