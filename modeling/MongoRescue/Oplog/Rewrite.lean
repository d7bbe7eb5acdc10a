import MongoRescue.Lib.Prog
import MongoRescue.Oplog.Bson

/-!
# The filter of a point-in-time replay: its parts

`internal/oplog/filter.go`: the configuration and the state of a `Filter`, the selection and renaming
of databases, and what every rewriter builds entries with. A `Filter` here is the configuration; what
its methods change is the `State` of the programs `M`, where `emitted` is what the caller's `emit`
has received so far. Documents have passed `Raw.Validate`, so `rebuild` and `Marshal` cannot fail.
-/

namespace MongoRescue.Oplog

open Go (Bytes)

inductive Err
  | noTarget
  | malformed (why : String)
  | unknownOp (opType : String)
  | unknownCommand (what : String)
  | crossSelectionRename (src dst : String)
  | badRename (dst : String)
  /-- The error of the caller's `emit`. -/
  | emit
  deriving DecidableEq

structure Filter where
  /-- The databases to keep; `none` keeps all but the system databases. -/
  select : Option (String → Bool) := none
  exclude : Option (String → Bool) := none
  rename : Option (String → String) := none
  inPlace : Bool := false
  /-- The exclusive end of the replay; the zero timestamp sets none. -/
  limit : Timestamp := {}

/-- A transaction whose entries span several oplog entries: its entries written, the operations in
them, and those mongorestore applies when it commits. -/
structure TxnState where
  written : Int := 0
  ops : Int := 0
  pending : Int := 0

/-- An index specification the filter wrote, with its name and the bytes of its key pattern. -/
structure IndexSpec where
  name : String
  key : Bytes
  spec : Doc

structure State where
  ops : Int := 0
  entries : Int := 0
  limitReached : Bool := false
  txns : Bytes → Option TxnState := fun _ => none
  /-- The index specifications written per collection, by `indexKey`. -/
  indexes : String → List IndexSpec := fun _ => []
  emitted : List Doc := []

abbrev M := Prog State Err

/-! ## Fields -/

/-- Dropped from every entry and nested operation: collection UUIDs, the retryable-write fields and
the references to findAndModify images. -/
def strippedFields : List String :=
  ["ui", "lsid", "txnNumber", "stmtId", "prevOpTime", "preImageOpTime", "postImageOpTime",
    "needsRetryImage", "multiOpType", "fromMigrate"]

/-- The fields a transaction entry keeps. -/
def txnFields : List String := ["lsid", "txnNumber", "prevOpTime"]

def ignoredOps : List String := ["n", "cd", "ci", "cu", "km"]

def maxApplyOpsDepth : Nat := 8

def maxDatabaseName : Nat := 63

/-- The first field name of an entry's `o` document. -/
def commandName (entry : Doc) : String :=
  match entry.doc "o" with
  | some ((name, _) :: _) => name
  | _ => ""

/-! ## Databases -/

def systemDB (db : String) : Bool := db = "admin" || db = "config" || db = "local"

namespace Filter

/-- The database is replayed. -/
def selected (f : Filter) (db : String) : Bool :=
  if systemDB db || (match f.exclude with | none => false | some p => p db) then false
  else match f.select with
    | none => true
    | some s => s db

/-- The database name is one that `Rename` may return for `db`. -/
def validTarget (db dst : String) : Bool :=
  !(dst = db || dst = "" || dst.utf8ByteSize > maxDatabaseName ||
    dst.toList.any ("./\\ \"$\x00".toList.contains ·) || systemDB dst)

/-- The database `db` is replayed into. -/
def renameDB (f : Filter) (db : String) : Except Err String :=
  if f.inPlace then .ok db
  else match f.rename with
    | none => .error .noTarget
    | some r => if validTarget db (r db) then .ok (r db) else .error (.badRename (r db))

end Filter

/-- Replaces the database of a namespace when it is `src`. -/
def renameNS (ns src dst : String) : String :=
  match cutPrefix ns (src ++ ".") with
  | some rest => dst ++ "." ++ rest
  | none => ns

/-- An index specification with its `ns` field renamed. -/
def renameSpecNS (spec : Doc) (src dst : String) : Doc :=
  spec.rebuild fun k v => match v.str?, decide (k = "ns") with
    | some s, true => some (.str (renameNS s src dst))
    | _, _ => some v

/-! ## Building entries -/

/-- Operations as an applyOps array. -/
def nestedArray (ops : List Doc) : Value :=
  .array (ops.zipIdx.map fun (op, i) => (toString i, .doc op))

/-- The integer `n` in the integer type of `v`. -/
def sameIntType (v : Value) (n : Int) : Value :=
  match v with
  | .int32 _ => if n ≤ 2 ^ 31 - 1 then .int32 (Int32.ofInt n) else .int64 (Int64.ofInt n)
  | _ => .int64 (Int64.ofInt n)

/-- A command entry on the database `dst`, from `entry`: `o` becomes `cmd`, and `o2` goes. -/
def commandEntry (entry : Doc) (dst : String) (cmd : Doc) : Doc :=
  entry.rebuild fun k v =>
    if k ∈ strippedFields ∨ k = "o2" then none
    else if k = "op" then some (.str "c")
    else if k = "ns" then some (.str (dst ++ ".$cmd"))
    else if k = "o" then some (.doc cmd)
    else some v

/-- The entry with a new `ns` and a new `o`, without the stripped fields. -/
def rewriteEntry (entry : Doc) (ns : String) (o : Doc) : Doc :=
  entry.rebuild fun k v =>
    if k ∈ strippedFields then none
    else if k = "ns" then some (.str ns)
    else if k = "o" then some (.doc o)
    else some v

end MongoRescue.Oplog
