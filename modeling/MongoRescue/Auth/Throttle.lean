import MongoRescue.Lib.Go
import MongoRescue.Lib.Table
import MongoRescue.Lib.Trans

/-!
# Login throttling

`Throttle.Reserve` and `Attempt.Succeeded`, `Failed` and `Released` with `releaseLocked`,
`entryLocked`, `forgetStaleLocked`, `lockoutFor` and `pruneLocked` (internal/auth/throttle.go). Every
call is one critical section of the mutex and reads the clock in it. Go goes through the map of the
entries in any order, so a call of `Reserve` names the order of its last pass.

`fails` are the times of the failures of a pair since its last success, newest first, as history.
-/

namespace MongoRescue.Auth

def freeAttempts : Nat := 5
def lockoutBase : Int := 30 * Go.second
def maxLockout : Int := 15 * 60 * Go.second
def forgetAfter : Int := 30 * 60 * Go.second
def maxTrackedKeys : Nat := 10000
def ipFreeAttempts : Nat := 4 * freeAttempts
def noisyPairBudget : Nat := 1
def maxInFlightPerPair : Nat := 1
def maxInFlightPerIP : Nat := 4
def busyRetry : Int := Go.second

structure ThrottleEntry where
  failures : Nat := 0
  inFlight : Nat := 0
  lockedUntil : Int := Go.zeroTime
  lastFailure : Int := Go.zeroTime
  deriving DecidableEq

/-- `forgetStaleLocked`. -/
def forgetStale (e : ThrottleEntry) (now : Int) : ThrottleEntry :=
  if 0 < e.failures ∧ ¬ now < e.lockedUntil ∧ forgetAfter < Go.timeSub now e.lastFailure then
    { e with failures := 0 }
  else e

def lockoutFor («over» : Nat) : Int :=
  if 16 ≤ «over» then maxLockout else min (lockoutBase * 2 ^ «over») maxLockout

structure Throttle where
  entries : Table (Prod.fst : String × ThrottleEntry → String) := .empty

namespace Throttle

/-- `t.entries[key]`, a new entry if there is none. -/
def entry (t : Throttle) (key : String) : ThrottleEntry := ((t.entries.get key).map (·.2)).getD {}

/-- Changes the entry of the key, creating it. -/
def modify (t : Throttle) (key : String) (f : ThrottleEntry → ThrottleEntry) : Throttle :=
  { t with entries := t.entries.put (key, f (t.entry key)) }

def delete (t : Throttle) (key : String) : Throttle := { t with entries := t.entries.erase key }

def len (t : Throttle) : Nat := t.entries.rows.length

/-- The entry is not in use and not locked. -/
def idle (e : ThrottleEntry) (now : Int) : Bool := e.inFlight = 0 && decide (e.lockedUntil < now)

def stale (e : ThrottleEntry) (now : Int) : Bool :=
  idle e now && decide (forgetAfter < Go.timeSub now e.lastFailure)

/-- The last pass of `pruneLocked`: drops idle entries until few are left. -/
def dropIdle (now : Int) : List String → Throttle → Throttle
  | [], t => t
  | key :: order, t =>
    let t := if (t.entries.get key).any fun e => idle e.2 now then t.delete key else t
    if t.len < maxTrackedKeys / 2 then t else dropIdle now order t

def pruneLocked (t : Throttle) (now : Int) (order : List String) : Throttle :=
  if t.len < maxTrackedKeys / 2 then t
  else
    let t : Throttle := { t with entries := t.entries.filter fun e => !stale e.2 now }
    if t.len < maxTrackedKeys then t else dropIdle now order t

/-- One attempt less, of an entry that has one. -/
def release (t : Throttle) (key : String) : Throttle :=
  if (t.entries.get key).any fun e => 0 < e.2.inFlight then
    t.modify key fun e => { e with inFlight := e.inFlight - 1 }
  else t

def releaseLocked (t : Throttle) (pairKey ipKey : String) : Throttle :=
  let t := t.release pairKey
  if ipKey ≠ "" then t.release ipKey else t

/-- Reserves the attempt. -/
def inFlight (t : Throttle) (key : String) : Throttle :=
  t.modify key fun e => { e with inFlight := e.inFlight + 1 }

/-- The part of `Reserve` after the entry of the pair was found free. -/
def reserveIP (t : Throttle) (now : Int) (pairKey ipKey : String) : Throttle × Option Int :=
  if ipKey ≠ "" then
    let t := t.modify ipKey (forgetStale · now)
    if 0 < (t.entry pairKey).failures ∧ maxInFlightPerIP ≤ (t.entry ipKey).inFlight then
      (t, some busyRetry)
    else ((t.inFlight ipKey).inFlight pairKey, none)
  else (t.inFlight pairKey, none)

/-- `Reserve`: the time to wait if the attempt is refused. -/
def reserve (t : Throttle) (now : Int) (order : List String) (pairKey ipKey : String) :
    Throttle × Option Int :=
  let t := (t.pruneLocked now order).modify pairKey (forgetStale · now)
  let wait := Go.timeSub (t.entry pairKey).lockedUntil now
  if 0 < wait then (t, some wait)
  else if maxInFlightPerPair ≤ (t.entry pairKey).inFlight then (t, some busyRetry)
  else t.reserveIP now pairKey ipKey

def succeeded (t : Throttle) (pairKey ipKey : String) : Throttle :=
  (t.releaseLocked pairKey ipKey).delete pairKey

/-- A failure of the IP, and the failures its pairs may have. -/
def failIP (t : Throttle) (now : Int) (ipKey : String) : Throttle × Nat :=
  if ipKey ≠ "" then
    let t := t.modify ipKey fun e => { e with failures := e.failures + 1, lastFailure := now }
    (t, if ipFreeAttempts ≤ (t.entry ipKey).failures then noisyPairBudget else freeAttempts)
  else (t, freeAttempts)

/-- A failure of the pair locks it once its budget is exhausted. -/
def failPair (e : ThrottleEntry) (now : Int) (budget : Nat) : ThrottleEntry :=
  let e := { e with failures := e.failures + 1, lastFailure := now }
  if budget ≤ e.failures then { e with lockedUntil := now + lockoutFor (e.failures - budget) } else e

def failed (t : Throttle) (now : Int) (pairKey ipKey : String) : Throttle :=
  let r := (t.releaseLocked pairKey ipKey).failIP now ipKey
  r.1.modify pairKey (failPair · now r.2)

end Throttle

/-! ## Attempts -/

inductive Settling
  | succeeded
  | failed
  | released
  deriving DecidableEq

/-- A reserved attempt, and whether it was settled. -/
structure Attempt where
  pairKey : String
  ipKey : String
  settled : Bool := false
  deriving DecidableEq

structure Logins where
  throttle : Throttle := {}
  attempts : List Attempt := []
  now : Int
  fails : String → List Int := fun _ => []

inductive LoginEvent
  | tick (now : Int)
  | reserve (pairKey ipKey : String) (order : List String)
  | settle (i : Nat) (how : Settling)
  deriving DecidableEq

namespace Logins

def reserve (s : Logins) (pairKey ipKey : String) (order : List String) : Logins :=
  let r := s.throttle.reserve s.now order pairKey ipKey
  { s with
    throttle := r.1
    attempts := if r.2 = none then s.attempts ++ [⟨pairKey, ipKey, false⟩] else s.attempts }

/-- `Succeeded`, `Failed` or `Released`; only the first call has an effect. -/
def settle (s : Logins) (i : Nat) (a : Attempt) (how : Settling) : Logins :=
  if a.settled then s
  else
    let s := { s with attempts := s.attempts.modify i fun a => { a with settled := true } }
    match how with
    | .succeeded =>
      { s with
        throttle := s.throttle.succeeded a.pairKey a.ipKey
        fails := Function.update s.fails a.pairKey [] }
    | .failed =>
      { s with
        throttle := s.throttle.failed s.now a.pairKey a.ipKey
        fails := Function.update s.fails a.pairKey (s.now :: s.fails a.pairKey) }
    | .released => { s with throttle := s.throttle.releaseLocked a.pairKey a.ipKey }

/-- The runs, with a clock that never goes back and starts after the zero time. -/
def sys : Trans.Sys Logins LoginEvent where
  init s := ∃ now, Go.zeroTime ≤ now ∧ s = { now := now }
  step s
    | .tick now => if s.now ≤ now then some { s with now := now } else none
    | .reserve pairKey ipKey order => some (s.reserve pairKey ipKey order)
    | .settle i how => s.attempts[i]?.map fun a => s.settle i a how

end Logins

end MongoRescue.Auth
