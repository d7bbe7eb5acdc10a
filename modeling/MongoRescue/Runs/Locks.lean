import MongoRescue.Lib.Trans
import Mathlib.Logic.Function.Basic

/-!
# Key locks

`KeyLocks.Lock` with `lock`, `unlock` and `drop` (internal/runs/locks.go). The entry of a key is a one-slot
channel that holds a token while the key is held, and the number of holders and waiters. Every call of
`Lock` is a `Call` of its own that takes one step at a time: a critical section of the mutex is one
step, except that of `unlock`, which receives from the channel in its middle. A step that is not
enabled waits.

`taken` pairs each key with the entry whose channel took the token; the code keeps the keys alone.
-/

namespace MongoRescue.Runs

/-! ## Keys -/

def deletionKey (jobID connectionID database : String) : String :=
  if jobID ≠ "" then "delete:job:" ++ jobID else "delete:db:" ++ connectionID ++ "/" ++ database

def archiveKey (targetID key : String) : String := "archive:" ++ targetID ++ "\x00" ++ key

/-! ## Entries -/

structure KeyLock where
  full : Bool := false
  refs : Int := 0
  deriving DecidableEq

/-- What the callers share: the entries made so far, the map of the keys, and whether the mutex is
locked. -/
structure KeyLocks where
  heap : List KeyLock := []
  held : String → Option Nat := fun _ => none
  mu : Bool := false

namespace KeyLocks

/-- The part of `lock` under the mutex: the entry of the key, with one more reference. -/
def enter (k : KeyLocks) (key : String) : KeyLocks × Nat :=
  match k.held key with
  | some l => ({ k with heap := k.heap.modify l fun e => { e with refs := e.refs + 1 } }, l)
  | none =>
    ({ k with
        heap := k.heap ++ [{ refs := 1 }]
        held := Function.update k.held key (some k.heap.length) }, k.heap.length)

/-- The token is in the channel of the entry. -/
def full (k : KeyLocks) (l : Nat) : Bool := (k.heap[l]?.map (·.full)).getD false

def setFull (k : KeyLocks) (l : Nat) (b : Bool) : KeyLocks :=
  { k with heap := k.heap.modify l fun e => { e with full := b } }

/-- Forgets one holder or waiter of the entry. -/
def drop (k : KeyLocks) (key : String) (l : Nat) : KeyLocks :=
  let k := { k with heap := k.heap.modify l fun e => { e with refs := e.refs - 1 } }
  if (k.heap[l]?.map (·.refs)) = some 0 then { k with held := Function.update k.held key none } else k

end KeyLocks

/-! ## Calls -/

/-- Where a call of `Lock`, or of the function it returned, stands. -/
inductive Stage
  /-- The loop over the keys. -/
  | locking (taken : List (String × Nat)) (todo : List String)
  /-- In the `select`. -/
  | waiting (taken : List (String × Nat)) (key : String) (l : Nat) (todo : List String)
  /-- The context ended. -/
  | leaving (taken : List (String × Nat)) (key : String) (l : Nat)
  | holding (taken : List (String × Nat))
  /-- The keys that are still to unlock. -/
  | releasing (rest : List (String × Nat)) (failed : Bool)
  /-- In `unlock`, with the token received and the mutex held. -/
  | dropping (rest : List (String × Nat)) (key : String) (l : Nat) (failed : Bool)
  | returned (failed : Bool)
  deriving DecidableEq

namespace Stage

/-- The next step, `none` while it waits. -/
def run (k : KeyLocks) : Stage → Option (KeyLocks × Stage)
  | locking taken [] => some (k, holding taken)
  | locking taken (key :: todo) =>
    if key ∈ taken.map (·.1) then some (k, locking taken todo)
    else if k.mu then none
    else some ((k.enter key).1, waiting taken key (k.enter key).2 todo)
  | waiting taken key l todo =>
    if k.full l then none else some (k.setFull l true, locking (taken ++ [(key, l)]) todo)
  | leaving taken key l => if k.mu then none else some (k.drop key l, releasing taken.reverse true)
  | holding taken => some (k, releasing taken.reverse false)
  | releasing [] failed => some (k, returned failed)
  | releasing (p :: rest) failed =>
    if k.mu then none
    else
      match k.held p.1 with
      | some l => if k.full l then some ({ k.setFull l false with mu := true }, dropping rest p.1 l failed)
        else none
      | none => none
  | dropping rest key l failed => some ({ k.drop key l with mu := false }, releasing rest failed)
  | returned _ => none

/-- The context of the call ends while it waits. -/
def cancel : Stage → Option Stage
  | waiting taken key l _ => some (leaving taken key l)
  | _ => none

end Stage

/-- A call and the goroutine that made it. -/
structure Call where
  owner : Nat
  stage : Stage
  deriving DecidableEq

structure Locks where
  locks : KeyLocks := {}
  calls : List Call := []

inductive LockEvent
  | call (owner : Nat) (keys : List String)
  | run (i : Nat)
  | cancel (i : Nat)
  deriving DecidableEq

namespace Locks

def setStage (s : Locks) (i : Nat) (st : Stage) : Locks :=
  { s with calls := s.calls.modify i fun c => { c with stage := st } }

/-- The runs: any number of calls, their steps in any order. -/
def sys : Trans.Sys Locks LockEvent where
  init s := s = {}
  step s
    | .call owner keys => some { s with calls := s.calls ++ [⟨owner, .locking [] keys⟩] }
    | .run i => s.calls[i]?.bind fun c => (c.stage.run s.locks).map fun r =>
        { s.setStage i r.2 with locks := r.1 }
    | .cancel i => s.calls[i]?.bind fun c => c.stage.cancel.map (s.setStage i)

end Locks

end MongoRescue.Runs
