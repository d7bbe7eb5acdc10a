import MongoRescue.Oplog.Rewrite

/-!
# The indexes the filter wrote

`internal/oplog/indexes.go`: mongorestore builds replayed indexes at the end, by collection name, so
the filter remembers the specifications it wrote per collection and moves them after a rename.
-/

namespace MongoRescue.Oplog

def indexKey (db coll : String) : String := db ++ "\x00" ++ coll

/-- The specifications of the collection `k` become `specs`. -/
def State.setIndexes (s : State) (k : String) (specs : List IndexSpec) : State :=
  { s with indexes := Function.update s.indexes k specs }

/-- Remembers an index specification written for `db.coll`. -/
def addIndex (db coll : String) (spec : Doc) : M Unit :=
  Prog.modify fun s =>
    let k := indexKey db coll
    s.setIndexes k (s.indexes k ++
      [⟨(spec.str "name").getD "", ((spec.lookup "key").map Value.encode).getD [], spec⟩])

def dropIndexesNames : List String := ["dropIndexes", "dropIndex", "deleteIndexes", "deleteIndex"]

/-- A dropIndexes by `index` keeps the specification: neither its name nor its key pattern match. -/
def keptBy (index : Option Value) (spec : IndexSpec) : Bool :=
  match index with
  | some (.str s) => spec.name ≠ s
  | some (.doc d) => spec.key ≠ (Value.doc d).encode
  | _ => true

/-- Updates the indexes written for `db` (as written) after a command `o` named `name`. -/
def trackIndexes (name : String) (o : Doc) (db : String) : M Unit :=
  let coll := (o.str name).getD ""
  if name = "createIndexes" then
    addIndex db coll (o.rebuild fun k v => if k = "createIndexes" then none else some v)
  else if name = "drop" then
    Prog.modify fun s => s.setIndexes (indexKey db coll) []
  else if name = "dropDatabase" then
    Prog.modify fun s => { s with
      indexes := fun k => if (cutPrefix k (db ++ "\x00")).isSome then [] else s.indexes k }
  else if name ∈ dropIndexesNames then
    Prog.modify fun s =>
      let k := indexKey db coll
      if o.str "index" = some "*" then s.setIndexes k []
      else s.setIndexes k ((s.indexes k).filter (keptBy (o.lookup "index")))
  else pure ()

def dropAll (coll : String) : Doc := [("dropIndexes", .str coll), ("index", .str "*")]

/-- The entries that move the indexes written for `fromDB.fromColl` to `toDB.toColl` in
mongorestore's catalog after a rename entry. -/
def moveIndexes (entry : Doc) (fromDB fromColl toDB toColl : String) : M (List Doc) := do
  let srcKey := indexKey fromDB fromColl
  let dstKey := indexKey toDB toColl
  let s ← Prog.get
  let specs := s.indexes srcKey
  let dropped := if (s.indexes dstKey).isEmpty then []
    else [commandEntry entry toDB (dropAll toColl)]
  Prog.modify fun s => s.setIndexes dstKey []
  if specs.isEmpty then return dropped
  let created := specs.map fun x =>
    commandEntry entry toDB (("createIndexes", .str toColl) :: x.spec)
  Prog.modify fun s => (s.setIndexes dstKey specs).setIndexes srcKey []
  return dropped ++ created ++ [commandEntry entry fromDB (dropAll fromColl)]

end MongoRescue.Oplog
