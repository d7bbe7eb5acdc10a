import MongoRescue.Oplog.Indexes
import MongoRescue.Oplog.Views

/-!
# The filter of a point-in-time replay

`internal/oplog/filter.go`. `op` filters one operation and returns what replaces it with its
mongorestore count; an applyOps command filters its operations with `nested`, which is `op` one level
down (`levels` counts the levels of nesting that are left). `transaction` filters an entry of a
transaction, and `apply` one entry of the stream.
-/

namespace MongoRescue.Oplog

open Go (Bytes)

/-- What replaces an operation, and its mongorestore count. -/
abbrev Replaced := List Doc × Int

namespace Filter

variable (f : Filter)

/-- Rewrites an insert, update or delete in `db.coll`. -/
def crud (doc : Doc) (db coll : String) : M Doc := do
  let dst ← Prog.lift (f.renameDB db)
  return doc.rebuild fun k v =>
    if k ∈ strippedFields then none
    else if k = "ns" then some (.str (dst ++ "." ++ coll))
    else some v

/-! ## Commands -/

/-- The `o` document of a DDL command: the `ns` fields older servers put in index specifications
are renamed. -/
def ddlCommand (o : Doc) (db dst : String) : Doc :=
  o.rebuild fun k v => match k, v with
    | "ns", .str s => some (.str (renameNS s db dst))
    | "idIndex", .doc spec => some (.doc (renameSpecNS spec db dst))
    | _, _ => some v

/-- Rewrites a DDL command on `db`. -/
def ddl (doc o : Doc) (db : String) : M Doc := do
  let dst ← Prog.lift (f.renameDB db)
  return doc.rebuild fun k v =>
    if k ∈ strippedFields then none
    else if k = "ns" then some (.str (dst ++ ".$cmd"))
    else if k = "o" then some (.doc (ddlCommand o db dst))
    else if k = "o2" then match v with
      | .doc spec => some (.doc (renameSpecNS spec db dst))
      | _ => some v
    else some v

/-- The `o` document of a rename. -/
def renameCommand (o : Doc) (src dst : String) : Doc :=
  o.rebuild fun k v =>
    if k = "renameCollection" then some (.str src)
    else if k = "to" then some (.str dst)
    else if k = "dropTarget" then some (.bool false)
    else some v

/-- `dropTarget` is set: a UUID or true. -/
def dropsTarget (o : Doc) : Bool :=
  match o.lookup "dropTarget" with
  | none => false
  | some (.bool b) => b
  | some _ => true

/-- The entry that drops the target of a rename, for a rename over an existing collection. -/
def dropTarget (doc o : Doc) (dst coll : String) : M (List Doc) :=
  if dropsTarget o then do
    let drop : Doc := [("drop", .str coll)]
    trackIndexes "drop" drop dst
    return [commandEntry doc dst drop]
  else return []

/-- Filters a rename. Both namespaces must be on the same side of the selection. -/
def renameCollection (doc o : Doc) : M Replaced := do
  let why := Err.malformed "renameCollection without source and target namespaces"
  let src ← Prog.orFail why (o.str "renameCollection")
  let dst ← Prog.orFail why (o.str "to")
  let (srcDB, srcColl) ← Prog.orFail why (cut src)
  let (dstDB, dstColl) ← Prog.orFail why (cut dst)
  if f.selected srcDB ≠ f.selected dstDB then Prog.fail (.crossSelectionRename src dst)
  else if !f.selected srcDB then return ([], 0)
  else
    let newSrc ← Prog.lift (f.renameDB srcDB)
    let newDst ← Prog.lift (f.renameDB dstDB)
    let d := rewriteEntry doc (newSrc ++ ".$cmd")
      (renameCommand o (renameNS src srcDB newSrc) (renameNS dst dstDB newDst))
    let dropped ← dropTarget doc o newDst dstColl
    let moves ← moveIndexes doc newSrc srcColl newDst dstColl
    let out := dropped ++ [d] ++ moves
    return (out, out.length)

/-- Turns a commitIndexBuild into one createIndexes entry per index. -/
def commitIndexBuild (doc o : Doc) (db : String) : M Replaced := do
  let coll ← Prog.orFail (.malformed "commitIndexBuild without a collection")
    (o.str "commitIndexBuild")
  let specs ← Prog.orFail (.malformed "commitIndexBuild without indexes") (o.array "indexes")
  let dst ← Prog.lift (f.renameDB db)
  let out ← Prog.each (fun (x : String × Value) => do
    let spec ← Prog.orFail (.malformed "index specification is not a document") x.2.doc?
    let renamed := renameSpecNS spec db dst
    addIndex dst coll renamed
    return rewriteEntry doc (dst ++ ".$cmd") (("createIndexes", .str coll) :: renamed)) specs
  return (out, out.length)

/-- The DDL commands that are replayed as they are, renamed. -/
def ddlNames : List String :=
  ["create", "drop", "collMod", "createIndexes", "dropDatabase", "dropIndexes", "dropIndex",
    "deleteIndexes", "deleteIndex", "convertToCapped", "emptycapped"]

/-- Filters a DDL command named `name` on a selected database. -/
def ddlOp (doc o : Doc) (db name : String) : M Replaced := do
  if name = "create" ∧ o.str "create" = some viewsCollection then return ([], 0)
  match decide (name = "create"), timeseriesCreate o with
  | true, some cmd =>
    let d ← asCommand f doc db cmd
    return ([d], 1)
  | _, _ =>
    let d ← f.ddl doc o db
    let dst ← Prog.lift (f.renameDB db)
    trackIndexes name o dst
    return ([d], 1)

/-- The applyOps command with the operations that are left. -/
def applyOpsCommand (o : Doc) (ops : List Doc) : Doc :=
  o.rebuild fun k v => if k = "applyOps" then some (nestedArray ops) else some v

/-- The namespace an applyOps command on `db` is written on. -/
def applyOpsNS (db : String) : M String :=
  if f.selected db then do
    let dst ← Prog.lift (f.renameDB db)
    return dst ++ ".$cmd"
  else return "admin.$cmd"

/-- Filters a non-transaction applyOps command whose operations `nested` filters. -/
def applyOps (nested : Doc → M Replaced) (doc o : Doc) (db : String) : M Replaced := do
  let (ops, n) ← nested o
  if ops.isEmpty then return ([], 0)
  let ns ← f.applyOpsNS db
  return ([rewriteEntry doc ns (applyOpsCommand o ops)], 1 + n)

/-- Filters a command entry on `db.$cmd`. -/
def command (nested : Doc → M Replaced) (doc : Doc) (db : String) : M Replaced := do
  let o ← Prog.orFail (.malformed "command without a document o") (doc.doc "o")
  let (name, _) ← Prog.orFail (.malformed "empty command") o.head?
  -- checked before the database: a rename out of admin into a selected database is refused
  if name = "renameCollection" then f.renameCollection doc o
  else if systemDB db ∧ (db ≠ "admin" ∨ name ≠ "applyOps") then return ([], 0)
  else if name = "applyOps" then f.applyOps nested doc o db
  else if name ∈ ddlNames then
    if !f.selected db then return ([], 0) else f.ddlOp doc o db name
  else if name = "commitIndexBuild" then
    if !f.selected db then return ([], 0) else f.commitIndexBuild doc o db
  else if name = "startIndexBuild" ∨ name = "abortIndexBuild" ∨ name = "dbCheck" then
    return ([], 0)
  else Prog.fail (.unknownCommand (name ++ " on " ++ db))

/-! ## Operations -/

/-- Filters one operation, whose nested operations `nested` filters. -/
def opWith (nested : Doc → M Replaced) (doc : Doc) : M Replaced := do
  let opType ← Prog.orFail (.malformed "no operation type op") (doc.str "op")
  if opType ∈ ignoredOps then return ([], 0)
  else
    let ns ← Prog.orFail (.malformed "no namespace ns") (doc.str "ns")
    let (db, coll) ← Prog.orFail (.malformed ("namespace " ++ ns ++ " has no database"))
      ((cut ns).filter fun p => p.1 ≠ "")
    if opType = "i" ∨ opType = "u" ∨ opType = "d" then
      if !f.selected db then return ([], 0)
      else if coll = viewsCollection then viewOp f doc opType db
      else do
        let d ← f.crud doc db coll
        return ([d], 1)
    else if opType = "c" then f.command nested doc db
    else Prog.fail (.unknownOp opType)

/-- Filters the operations of an applyOps command document, with `levels` levels of nesting left. -/
def nested : Nat → Doc → M Replaced
  | 0, _ => Prog.fail (.malformed "applyOps nested more than 8 levels")
  | levels + 1, o => do
    let arr ← Prog.orFail (.malformed "applyOps is not an array") (o.array "applyOps")
    let outs ← Prog.each (fun (x : String × Value) => do
      let doc ← Prog.orFail (.malformed "applyOps operation is not a document") x.2.doc?
      f.opWith (nested levels) doc) arr
    return (outs.flatMap (·.1), (outs.map (·.2)).sum)

/-- Filters a top-level entry that belongs to no transaction. -/
def op (doc : Doc) : M Replaced := f.opWith (f.nested maxApplyOpsDepth) doc

/-! ## Transactions -/

end Filter

/-- The transaction an entry belongs to: a command entry with lsid and txnNumber whose command is
applyOps, commitTransaction or abortTransaction, and that is no retryable batched insert. -/
def txnID (entry : Doc) : Option Bytes := do
  if entry.str "op" ≠ some "c" then none
  let lsid ← entry.lookup "lsid"
  let txn ← entry.lookup "txnNumber"
  if (entry.lookup "multiOpType").bind Value.asInt64? = some 1 then none
  if commandName entry ∈ ["applyOps", "commitTransaction", "abortTransaction"] then
    some (lsid.encode ++ [0] ++ txn.encode)
  else none

def State.setTxn (s : State) (id : Bytes) (t : Option TxnState) : State :=
  { s with txns := Function.update s.txns id t }

/-- A transaction entry without the stripped fields that it does not need. -/
def txnEntry (entry : Doc) (edit : String → Value → Value) : Doc :=
  entry.rebuild fun k v =>
    if k = "o" then some (edit k v)
    else if k ∈ strippedFields ∧ k ∉ txnFields then none
    else some v

/-- The command of a transaction entry with the operations that are left, and their count. -/
def txnCommand (o : Doc) (ops : List Doc) (count : Int) : Doc :=
  o.rebuild fun k v =>
    if k = "applyOps" then some (nestedArray ops)
    else if k = "count" then some (sameIntType v count)
    else some v

namespace Filter

variable (f : Filter)

/-- A commitTransaction or abortTransaction: it matters when an entry of the transaction was
written. -/
def txnEnd (entry : Doc) (id : Bytes) : M Replaced := do
  let s ← Prog.get
  Prog.modify fun s => s.setTxn id none
  match s.txns id with
  | none => return ([], 0)
  | some st =>
    if st.written = 0 then return ([], 0)
    else
      let d := txnEntry entry fun _ v => v
      if commandName entry = "abortTransaction" then return ([d], 0) else return ([d], st.pending)

/-- Filters an applyOps entry of a transaction. -/
def txnApplyOps (entry : Doc) (id : Bytes) : M Replaced := do
  let s ← Prog.get
  let o := (entry.doc "o").getD []
  let commit := !o.isTrue "partialTxn" && !o.isTrue "prepare"
  let (ops, n) ← f.nested maxApplyOpsDepth o
  let old := (s.txns id).getD {}
  let st : TxnState := ⟨old.written, old.ops + ops.length, old.pending + n⟩
  -- an entry with nothing left is dropped, unless it commits a transaction that was written
  if ops.isEmpty ∧ (!commit ∨ st.written = 0) then
    Prog.modify fun s => s.setTxn id (if commit then none else some st)
    return ([], 0)
  else
    let st := { st with written := st.written + 1 }
    Prog.modify fun s => s.setTxn id (if commit then none else some st)
    let d := txnEntry entry fun _ _ => .doc (txnCommand o ops st.ops)
    if commit then return ([d], st.pending) else return ([d], 0)

def transaction (entry : Doc) (id : Bytes) : M Replaced := do
  if entry.str "ns" ≠ some "admin.$cmd" then
    Prog.fail (.malformed "transaction entry on a namespace that is not admin.$cmd")
  else if commandName entry = "commitTransaction" ∨ commandName entry = "abortTransaction" then
    txnEnd entry id
  else f.txnApplyOps entry id

/-! ## The stream -/

/-- A raw entry: a valid document, or bytes that `Validate` refuses. -/
inductive Raw
  | malformed
  | doc (d : Doc)

/-- Writes the entries through `emit`, which fails at entry number `fails`, if any. -/
def emitAll (out : List Doc) (fails : Option Nat) : M Unit := do
  let sent := match fails with
    | none => out
    | some n => out.take n
  Prog.modify fun s => { s with
    emitted := s.emitted ++ sent, entries := s.entries + sent.length }
  match fails with
  | none => return ()
  | some n => if n < out.length then Prog.fail .emit else return ()

/-- Filters one entry, as part of its transaction if it has one. -/
def entryOp (d : Doc) : M Replaced :=
  match txnID d with
  | some id => f.transaction d id
  | none => f.op d

/-- Filters one entry and emits what replaces it; `true` for an entry at or after the limit, where
the stream must end. -/
def apply (entry : Raw) (fails : Option Nat) : M Bool := do
  if f.rename.isNone = !f.inPlace then Prog.fail .noTarget
  else
    let s ← Prog.get
    if s.limitReached then return true
    else match entry with
      | .malformed => Prog.fail (.malformed "not a valid document")
      | .doc d =>
        let ts ← Prog.orFail (.malformed "no timestamp field ts")
          ((d.lookup "ts").bind Value.timestamp?)
        if f.limit ≠ {} ∧ !ts.before f.limit then
          Prog.modify fun s => { s with limitReached := true }
          return true
        else
          let (out, ops) ← f.entryOp d
          emitAll out fails
          Prog.modify fun s => { s with ops := s.ops + ops }
          return false

end Filter

end MongoRescue.Oplog
