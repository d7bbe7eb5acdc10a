import MongoRescue.Oplog.Filter
import MongoRescue.Oplog.Scanner

/-!
# Replaying chunks

`Filter.Copy` (internal/oplog/filter.go) reads a stream entry by entry and filters it, and
`writeOplogArchive` (internal/restore/pitr.go) does so chunk by chunk with one filter. What the MongoDB
driver makes of the bytes of an entry is a parameter (`decode`), and so is the write at which the
archive's writer fails, if any (`failAt`).
-/

namespace MongoRescue.Oplog

open Go (Bytes)

inductive CopyErr
  | stream (e : StreamErr)
  | filter (e : Err)
  deriving DecidableEq

/-- What `Copy` leaves: the filter, its error and what it did not read of the stream. -/
structure Copied where
  state : State
  err : Option CopyErr := none
  left : Bytes := []

namespace Filter

variable (f : Filter) (decode : Bytes → Raw) (failAt : Option Nat)

/-- The entry of this call at which the writer fails. -/
def failsIn (s : State) : Option Nat := failAt.map (· - s.emitted.length)

def copyLoop : Nat → Bytes → State → Copied
  | 0, src, s => ⟨s, none, src⟩
  | fuel + 1, src, s =>
    match Reader.next src with
    | none => ⟨s, none, []⟩
    | some (.error e) => ⟨s, some (.stream e), if e = .truncated then [] else src.drop 4⟩
    | some (.ok (doc, rest)) =>
      match f.apply (decode doc) (failsIn failAt s) s with
      | (.error e, s') => ⟨s', some (.filter e), rest⟩
      | (.ok true, s') => ⟨s', none, rest⟩
      | (.ok false, s') => copyLoop fuel rest s'

/-- `Copy`. Every entry has a byte, so the length of the stream is fuel enough. -/
def copy (src : Bytes) (s : State) : Copied := f.copyLoop decode failAt src.length src s

/-- The loop of `writeOplogArchive` over the chunks of the plan. -/
def copyChunks : List Bytes → State → Copied
  | [], s => { state := s }
  | chunk :: chunks, s =>
    let r := f.copy decode failAt chunk s
    if r.err.isSome || r.state.limitReached then r else copyChunks chunks r.state

end Filter

end MongoRescue.Oplog
