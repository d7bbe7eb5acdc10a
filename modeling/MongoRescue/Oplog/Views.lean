import MongoRescue.Oplog.Rewrite

/-!
# Views and time-series collections

`internal/oplog/views.go`: writes to `system.views` and the creation of a time-series buckets
collection become the user-level commands that applyOps accepts.
-/

namespace MongoRescue.Oplog

def viewsCollection : String := "system.views"

def bucketsPrefix : String := "system.buckets."

def asCommand (f : Filter) (entry : Doc) (db : String) (cmd : Doc) : M Doc := do
  let dst ← Prog.lift (f.renameDB db)
  return commandEntry entry dst cmd

/-- The view a write to `system.views` names. -/
def viewName (doc o : Doc) (db : String) : Option String := do
  let id ← match o.str "_id" with
    | some id => some id
    | none => (doc.doc "o2").bind (Doc.str · "_id")
  let name ← cutPrefix id (db ++ ".")
  if name = "" then none else some name

/-- Turns a write to `db.system.views` into the command it stands for, or nothing. -/
def viewOp (f : Filter) (doc : Doc) (opType db : String) : M (List Doc × Int) := do
  let o ← Prog.orFail (.malformed "system.views write without a document o") (doc.doc "o")
  let name ← Prog.orFail (.malformed ("view _id is not in database " ++ db)) (viewName doc o db)
  if opType = "d" then
    let d ← asCommand f doc db [("drop", .str name)]
    return ([d], 1)
  else
    match o.str "viewOn", o.lookup "pipeline" with
    | some viewOn, some (.array pipeline) =>
      if (cutPrefix viewOn bucketsPrefix).isSome then return ([], 0)
      let verb := if opType = "u" then "collMod" else "create"
      let collation := match o.lookup "collation" with
        | some c => if opType = "i" then [("collation", c)] else []
        | none => []
      let d ← asCommand f doc db
        ([(verb, .str name), ("viewOn", .str viewOn), ("pipeline", .array pipeline)] ++ collation)
      return ([d], 1)
    | _, _ =>
      Prog.fail (.unknownCommand ("system.views " ++ opType ++ " of view " ++ name ++
        " without viewOn and pipeline"))

/-- The create of a time-series collection for that of its buckets collection; `none` for other
creates. -/
def timeseriesCreate (o : Doc) : Option Doc := do
  let name ← cutPrefix ((o.str "create").getD "") bucketsPrefix
  let ts ← o.doc "timeseries"
  if name = "" then none
  -- the server derives the bucket span from the granularity and refuses both
  let options := ts.rebuild fun k v =>
    if (ts.str "granularity").isSome ∧ (k = "bucketMaxSpanSeconds" ∨ k = "bucketRoundingSeconds")
    then none else some v
  let expire := match o.lookup "expireAfterSeconds" with
    | some e => [("expireAfterSeconds", e)]
    | none => []
  return [("create", .str name), ("timeseries", .doc options)] ++ expire

end MongoRescue.Oplog
