import MongoRescue.Lib.Glob
import MongoRescue.Oplog.Rewrite
import MongoRescue.Restore.Request

/-!
# The databases of a point-in-time restore

Pass 1 restores the base with mongorestore, which is told what to restore and under which names by its
arguments (`pitrBaseArgs`); pass 2 replays the oplog through a filter (`pitrFilter`). Both are in
`internal/restore/pitr.go`, `escapeNamespace` in `internal/restore/engine.go`.

Of mongorestore the model has how it reads namespace arguments. In a pattern `*` stands for any run of
characters and a backslash makes the next character literal; `--nsExclude` wins over `--nsInclude`; a
namespace is renamed by the first `--nsFrom` it matches, whose `*` and `$name$` are put into its
`--nsTo`.
-/

namespace MongoRescue.Restore

/-! ## mongorestore -/

abbrev Tok := Glob.Tok Char String

/-- The pieces of a pattern, `k` being the number of its next `*`. -/
def patternFrom (k : Nat) : List Char → List Tok
  | [] => []
  | '\\' :: c :: rest => .lit c :: patternFrom k rest
  | '*' :: rest => .hole (toString k) :: patternFrom (k + 1) rest
  | c :: rest => .lit c :: patternFrom k rest

/-- The pieces of `--nsInclude` and `--nsExclude`. -/
def pattern (s : String) : List Tok := patternFrom 1 s.toList

/-- The pieces of `--nsFrom` and `--nsTo`: `name` is the part of a `$name$` that was read. -/
def templateFrom (k : Nat) (name : Option (List Char)) : List Char → List Tok
  | [] => []
  | '$' :: rest =>
    match name with
    | none => templateFrom k (some []) rest
    | some read => .hole (String.ofList read.reverse) :: templateFrom k none rest
  | '\\' :: c :: rest =>
    match name with
    | none => .lit c :: templateFrom k none rest
    | some read => templateFrom k (some (c :: '\\' :: read)) rest
  | '*' :: rest =>
    match name with
    | none => .hole (toString k) :: templateFrom (k + 1) none rest
    | some read => templateFrom k (some ('*' :: read)) rest
  | c :: rest =>
    match name with
    | none => .lit c :: templateFrom k none rest
    | some read => templateFrom k (some (c :: read)) rest

def template (s : String) : List Tok := templateFrom 1 none s.toList

/-- The value of an argument of the form `flag` value. -/
def flagValue (flag arg : String) : Option String :=
  if flag.toList.isPrefixOf arg.toList then some (String.ofList (arg.toList.drop flag.toList.length))
  else none

def flagValues (flag : String) (args : List String) : List String := args.filterMap (flagValue flag)

/-- The namespace is among those to restore. -/
def included (args : List String) (ns : String) : Bool :=
  let includes := flagValues "--nsInclude=" args
  (includes.isEmpty || includes.any fun p => Glob.matchesWord (pattern p) ns.toList) &&
    !(flagValues "--nsExclude=" args).any fun p => Glob.matchesWord (pattern p) ns.toList

/-- What the holes of `--nsFrom` took, by name. -/
def taken (found : List (String × List Char)) (name : String) : List Char :=
  ((found.find? (·.1 = name)).map (·.2)).getD []

/-- The namespace under its new name. -/
def renamed (ns : String) : List (String × String) → String
  | [] => ns
  | (src, dst) :: rest =>
    match Glob.find (template src) ns.toList with
    | some found => String.ofList (Glob.fill (taken found) (template dst))
    | none => renamed ns rest

/-- The namespace into which `mongorestore args` restores `ns`; `none` if it does not restore it. -/
def mongorestore (args : List String) (ns : String) : Option String :=
  if included args ns then
    some (renamed ns ((flagValues "--nsFrom=" args).zip (flagValues "--nsTo=" args)))
  else none

/-! ## The two passes -/

/-- `strings.ReplaceAll` of one character. -/
def replaceChar (c : Char) (by' : List Char) (l : List Char) : List Char :=
  l.flatMap fun x => if x = c then by' else [x]

def escapeNamespace (name : String) : String :=
  String.ofList (replaceChar '*' ['\\', '*'] (replaceChar '\\' ['\\', '\\'] name.toList))

/-- What the two passes read of a restore's record. -/
structure PITRRestore where
  databases : List String := []
  cloneSuffix : String
  limit : Oplog.Timestamp := {}

/-- The mongorestore arguments of pass 1. -/
def pitrBaseArgs (configArg : String) (info : PITRRestore) (baseDatabases : List String) (isGzip : Bool) :
    List String :=
  let args := [configArg, "--archive"] ++ (if isGzip then ["--gzip"] else [])
  if info.databases.length = 0 then
    args ++ ["--nsExclude=admin.*", "--nsExclude=config.*", "--nsExclude=local.*"] ++
      (baseDatabases.filter isRescueClone).map (fun db => "--nsExclude=" ++ (escapeNamespace db ++ ".*")) ++
      ["--nsFrom=$db$.$coll$", "--nsTo=" ++ ("$db$" ++ escapeNamespace info.cloneSuffix ++ ".$coll$")]
  else
    args ++ info.databases.map (fun db => "--nsInclude=" ++ (escapeNamespace db ++ ".*")) ++
      info.databases.flatMap fun db => ["--nsFrom=" ++ (escapeNamespace db ++ ".*"),
        "--nsTo=" ++ (escapeNamespace (db ++ info.cloneSuffix) ++ ".*")]

/-- The oplog filter of pass 2. -/
def pitrFilter (info : PITRRestore) : Oplog.Filter where
  rename := some (· ++ info.cloneSuffix)
  exclude := some isRescueClone
  limit := info.limit
  select := if 0 < info.databases.length then some fun db => info.databases.contains db else none

end MongoRescue.Restore
