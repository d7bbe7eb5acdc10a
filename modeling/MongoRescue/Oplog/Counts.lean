import MongoRescue.Oplog.Filter

/-!
# Document counts over a run of oplog entries

`internal/oplog/counts.go`. `CountDelta` sums how the entries of a run change the number of documents of
each namespace; a namespace whose count cannot be derived is unknown, with a reason. The operations of a
transaction are held until it commits. The sums are kept as integers without a bound.
-/

namespace MongoRescue.Oplog

open Go (Bytes)

/-- A count-changing operation: `n` documents added to `ns`, or, with `what` set, a change that makes
`ns` unknown (the whole database it names when `db` is set). -/
structure CountOp where
  ns : String
  n : Int := 0
  what : String := ""
  db : Bool := false
  deriving DecidableEq

/-- The operations of a transaction until it commits; `incomplete` when an entry of it before the first
one seen exists. -/
structure CountTxn where
  ops : List CountOp := []
  incomplete : Bool := false
  deriving DecidableEq

structure CountDelta where
  /-- Ends the counted part of the run; the zero timestamp sets none. -/
  taintAfter : Timestamp := {}
  delta : String → Int := fun _ => 0
  unknown : String → Option String := fun _ => none
  dbs : String → Option String := fun _ => none
  all : String := ""
  txns : Bytes → Option CountTxn := fun _ => none

/-! ## Operations -/

/-- Commands that change no document count. -/
def countNeutral : List String :=
  ["collMod", "createIndexes", "dropIndexes", "dropIndex", "deleteIndexes", "deleteIndex",
    "commitIndexBuild", "startIndexBuild", "abortIndexBuild", "dbCheck"]

/-- The DDL commands that make a collection's count unknown, and what they did. -/
def ddlWhat (name : String) : Option String :=
  if name = "create" then some "created"
  else if name = "drop" then some "dropped"
  else if name = "convertToCapped" then some "converted to capped"
  else if name = "emptycapped" then some "emptied"
  else none

/-- `commandCountOps`, where `nested` counts the operations of an applyOps. -/
def commandCountOps (nested : Doc → Except Err (List CountOp)) (doc : Doc) (db : String) :
    Except Err (List CountOp) :=
  match doc.doc "o" with
  | none => .error (.malformed "command without a document o")
  | some [] => .error (.malformed "empty command")
  | some ((name, v) :: rest) =>
    let o : Doc := (name, v) :: rest
    if name = "applyOps" then nested o
    else if name = "renameCollection" then
      match o.str "renameCollection", o.str "to" with
      | some src, some dst =>
        .ok [{ ns := src, what := "renamed to " ++ dst }, { ns := dst, what := "renamed from " ++ src }]
      | _, _ => .error (.malformed "renameCollection without source and target namespaces")
    else match ddlWhat name with
      | some what =>
        match v.str? with
        | none => .error (.malformed (name ++ " without a collection name"))
        | some coll => .ok [{ ns := db ++ "." ++ coll, what }]
      | none =>
        if name = "dropDatabase" then .ok [{ ns := db, what := "dropped", db := true }]
        else if name ∈ countNeutral then .ok []
        else .ok [{ ns := db, what := "command " ++ name, db := true }]

/-- `countOps`. -/
def countOpsWith (nested : Doc → Except Err (List CountOp)) (doc : Doc) : Except Err (List CountOp) :=
  match doc.str "op" with
  | none => .error (.malformed "no operation type op")
  | some opType =>
    if opType ∈ ignoredOps ∨ opType = "u" then .ok []
    else match doc.str "ns" with
      | none => .error (.malformed "no namespace ns")
      | some ns =>
        match (cut ns).filter fun p => p.1 ≠ "" with
        | none => .error (.malformed ("namespace " ++ ns ++ " has no database"))
        | some (db, _) =>
          if opType = "i" then .ok [{ ns, n := 1 }]
          else if opType = "d" then .ok [{ ns, n := -1 }]
          else if opType = "c" then commandCountOps nested doc db
          else .error (.unknownOp opType)

/-- The operations of the documents of an applyOps array. -/
def eachCountOps (count : Doc → Except Err (List CountOp)) : Doc → Except Err (List CountOp)
  | [] => .ok []
  | (_, v) :: rest =>
    match v.doc? with
    | none => .error (.malformed "applyOps operation is not a document")
    | some doc => do
      let ops ← count doc
      return ops ++ (← eachCountOps count rest)

/-- `nestedCountOps`, with `levels` levels of nesting left. -/
def nestedCountOps : Nat → Doc → Except Err (List CountOp)
  | 0, _ => .error (.malformed "applyOps nested more than 8 levels")
  | levels + 1, o =>
    match o.array "applyOps" with
    | none => .error (.malformed "applyOps is not an array")
    | some arr => eachCountOps (countOpsWith (nestedCountOps levels)) arr

def countOps (doc : Doc) : Except Err (List CountOp) :=
  countOpsWith (nestedCountOps maxApplyOpsDepth) doc

/-- `hasPrevOpTime`: the entry links to an earlier entry of its transaction. -/
def hasPrevOpTime (entry : Doc) : Bool :=
  match ((entry.doc "prevOpTime").bind fun d => d.lookup "ts").bind Value.timestamp? with
  | none => false
  | some ts => ts ≠ {}

/-! ## Adding entries -/

def tsString (ts : Timestamp) : String :=
  "Timestamp(" ++ toString ts.t.toNat ++ ", " ++ toString ts.i.toNat ++ ")"

/-- `setFirst`: keeps the first reason. -/
def setFirst (m : String → Option String) (key reason : String) : String → Option String :=
  if (m key).isSome then m else Function.update m key (some reason)

namespace CountDelta

/-- The position is after the counted part of the run. -/
def taints (d : CountDelta) (pos : Timestamp) : Bool := d.taintAfter ≠ {} && d.taintAfter.before pos

/-- One round of the loop of `apply`. -/
def applyOne (pos : Timestamp) (d : CountDelta) (op : CountOp) : CountDelta :=
  if op.what ≠ "" then
    let why := op.what ++ " at " ++ tsString pos
    if op.db then { d with dbs := setFirst d.dbs op.ns ("database " ++ op.ns ++ ": " ++ why) }
    else { d with unknown := setFirst d.unknown op.ns why }
  else if d.taints pos then
    let why := "written at " ++ tsString pos ++ ", while the counts were read"
    { d with unknown := setFirst d.unknown op.ns why }
  else { d with delta := Function.update d.delta op.ns (d.delta op.ns + op.n) }

/-- `apply`: accounts for operations that are visible from `pos` on. -/
def apply (d : CountDelta) (ops : List CountOp) (pos : Timestamp) : CountDelta :=
  ops.foldl (applyOne pos) d

def setTxn (d : CountDelta) (id : Bytes) (t : Option CountTxn) : CountDelta :=
  { d with txns := Function.update d.txns id t }

/-- `commit` of a transaction; `none` when none of its entries was seen. -/
def commit (d : CountDelta) (st : Option CountTxn) (pos : Timestamp) : CountDelta :=
  match st.filter (!·.incomplete) with
  | some st => d.apply st.ops pos
  | none =>
    let why := "a transaction committed at " ++ tsString pos ++ " began before the oplog entries read"
    if d.all = "" then { d with all := why } else d

def transaction (d : CountDelta) (entry : Doc) (id : Bytes) (pos : Timestamp) :
    Except Err CountDelta :=
  if commandName entry = "abortTransaction" then .ok (d.setTxn id none)
  else if commandName entry = "commitTransaction" then .ok ((d.setTxn id none).commit (d.txns id) pos)
  else do
    let o := (entry.doc "o").getD []
    let ops ← nestedCountOps maxApplyOpsDepth o
    let st := (d.txns id).getD { incomplete := hasPrevOpTime entry }
    let st := { st with ops := st.ops ++ ops }
    if o.isTrue "partialTxn" || o.isTrue "prepare" then return d.setTxn id (some st)
    else return (d.setTxn id none).commit (some st) pos

def add (d : CountDelta) (entry : Filter.Raw) : Except Err CountDelta :=
  match entry with
  | .malformed => .error (.malformed "not a valid document")
  | .doc e =>
    match (e.lookup "ts").bind Value.timestamp? with
    | none => .error (.malformed "no timestamp field ts")
    | some pos =>
      match txnID e with
      | some id => d.transaction e id pos
      | none => do
        let ops ← countOps e
        return d.apply ops pos

/-- The database of a namespace: what is before its first dot. -/
def dbOf (ns : String) : String := ((cut ns).map (·.1)).getD ns

/-- `Delta`: how the count of the namespace changed, or the reason why it cannot be derived. -/
def deltaOf (d : CountDelta) (ns : String) : Int × String :=
  if d.all ≠ "" then (0, d.all)
  else if (d.dbs (dbOf ns)).getD "" ≠ "" then (0, (d.dbs (dbOf ns)).getD "")
  else if (d.unknown ns).getD "" ≠ "" then (0, (d.unknown ns).getD "")
  else (d.delta ns, "")

end CountDelta

end MongoRescue.Oplog
