import MongoRescue.Lib.Errors
import MongoRescue.Selection.Pattern
import Mathlib.Data.List.Sort

/-!
# Database selections

`DatabaseSelection` with `Normalize` and its checks (models/selection.go, models/dbfilter.go,
models/namespace.go), `Matches`, and `ResolveSelection`: which databases of a server a selection backs
up. Strings are byte strings, ordered as Go orders them. The maps `included` and `excluded` of the
source are lists without repeated names (`Picks`); both are sorted at the end.
-/

namespace MongoRescue.Selection

open Go (Bytes)

inductive SelectionMode
  | single
  | list
  | all
  | pattern
  /-- The empty string. -/
  | unset
  | other (text : String)
  deriving DecidableEq

structure DatabaseFilter where
  name : Bytes
  collections : List Bytes
  excludeCollections : List Bytes
  deriving DecidableEq

structure DatabaseSelection where
  mode : SelectionMode
  databases : List Bytes
  collectionFilters : List DatabaseFilter
  «include» : List Bytes
  exclude : List Bytes
  autoIncludeNew : Bool
  deriving DecidableEq

def maxSelectionDatabases : Nat := 500
def maxSelectionPatterns : Nat := 50
def maxFilterCollections : Nat := 1000
def maxDatabaseNameLength : Nat := 63

def systemDatabases : List Bytes := [Go.ascii "admin", Go.ascii "config", Go.ascii "local"]

def isSystemDatabase (name : Bytes) : Bool := systemDatabases.contains name

namespace DatabaseSelection

def multi (s : DatabaseSelection) : Bool := s.mode ≠ .single && s.mode ≠ .unset

/-- The selection lists the server's databases to find what it matches. -/
def discovers (s : DatabaseSelection) : Bool := s.mode = .all || s.mode = .pattern

end DatabaseSelection

/-! ## Names -/

/-- Why a name or a pattern is refused (`ErrInvalidNamespace`). -/
inductive NamespaceErr
  | required
  | tooLong
  | invalidUtf8
  | control
  | forbidden
  | leadingDash
  | dollar
  deriving DecidableEq

def databaseNameForbidden : Bytes := Go.ascii "/\\. \"$"

def hasControl (s : Bytes) : Bool := s.any fun b => b < 0x20 || b == 0x7f

def validateDatabaseName (name : Bytes) : Except NamespaceErr Unit :=
  if name = [] then .error .required
  else if maxDatabaseNameLength < name.length then .error .tooLong
  else if hasControl name then .error .control
  else if name.any databaseNameForbidden.contains then .error .forbidden
  else if (Go.ascii "-").isPrefixOf name then .error .leadingDash
  else .ok ()

def validateDatabasePattern (pattern : Bytes) : Except NamespaceErr Unit :=
  if pattern = [] then .error .required
  else if maxDatabaseNameLength < pattern.length then .error .tooLong
  else if Go.chars pattern = none then .error .invalidUtf8
  else if hasControl pattern then .error .control
  else if pattern.any databaseNameForbidden.contains then .error .forbidden
  else if (Go.ascii "-").isPrefixOf pattern then .error .leadingDash
  else .ok ()

def validateCollectionName (name : Bytes) : Except NamespaceErr Unit :=
  if name = [] then .error .required
  else if hasControl name then .error .control
  else if name.any (Go.ascii "$").contains then .error .dollar
  else .ok ()

def validateCollectionNames (names : List Bytes) : Except NamespaceErr Unit :=
  (names.map Go.trimSpaceBytes).forM fun n => if n ≠ [] then validateCollectionName n else .ok ()

/-- Trims the entries and drops empty and repeated ones. -/
def cleanList (list : List Bytes) : List Bytes :=
  list.foldl (fun out v =>
    let v := Go.trimSpaceBytes v
    if v ≠ [] ∧ v ∉ out then out ++ [v] else out) []

/-- The first of the patterns that the name matches, or the empty string. -/
def matchesAny (patterns : List Bytes) (name : Bytes) : Bytes :=
  (patterns.find? (matchDatabasePattern · name)).getD []

/-! ## Collection filters -/

/-- Why a collection filter is refused; all but the first name its database. -/
inductive FilterErr
  | name (e : NamespaceErr)
  | tooMany (name : Bytes)
  | collections (name : Bytes) (e : NamespaceErr)
  | excludeCollections (name : Bytes) (e : NamespaceErr)
  | includeAndExclude (name : Bytes)
  deriving DecidableEq

namespace DatabaseFilter

variable (f : DatabaseFilter)

def filtered : Bool :=
  f.collections.length > 0 || f.excludeCollections.length > 0

/-- The name trimmed, blank and repeated collections dropped. -/
def cleaned : DatabaseFilter :=
  { name := Go.trimSpaceBytes f.name
    collections := cleanList f.collections
    excludeCollections := cleanList f.excludeCollections }

def check : Except FilterErr Unit := do
  (validateDatabaseName f.name).mapError .name
  Go.refuse (maxFilterCollections < f.collections.length ∨
    maxFilterCollections < f.excludeCollections.length) (.tooMany f.name)
  (validateCollectionNames f.collections).mapError (.collections f.name)
  (validateCollectionNames f.excludeCollections).mapError (.excludeCollections f.name)
  Go.refuse (0 < f.collections.length ∧ 0 < f.excludeCollections.length) (.includeAndExclude f.name)

def normalize : Except FilterErr DatabaseFilter := do
  f.cleaned.check
  return f.cleaned

end DatabaseFilter

/-- Why a selection is refused (`ErrInvalidSelection`). -/
inductive SelectionErr
  | tooManyDatabases
  | tooManyPatterns
  | databases (e : NamespaceErr)
  | «include» (e : NamespaceErr)
  | exclude (e : NamespaceErr)
  /-- A single-database job names exactly one database. -/
  | singleNamesOne
  /-- `include`, `exclude` and `auto_include_new` need mode all or pattern. -/
  | needsDiscovery
  | listNeedsDatabase
  | includeNeedsPattern
  | patternNeedsInclude
  | mode
  | systemDatabase (name : Bytes)
  | tooManyFilters
  | collectionFilters (e : FilterErr)
  | moreThanOneFilter (name : Bytes)
  | filterNotListed (name : Bytes)
  | filterSystem (name : Bytes)
  | filterExcluded (name pattern : Bytes)
  | filtersNeedListOrAll
  deriving DecidableEq

namespace DatabaseSelection

/-- Adds a filter, normalized, if it restricts something; a database has at most one. -/
def addFilter (out : List DatabaseFilter) (f : DatabaseFilter) :
    Except SelectionErr (List DatabaseFilter) := do
  let f ← f.normalize.mapError .collectionFilters
  Go.refuse (f.filtered ∧ f.name ∈ out.map (·.name)) (.moreThanOneFilter f.name)
  return if f.filtered then out ++ [f] else out

variable (s : DatabaseSelection)

/-- What the mode asks of a filter. -/
def checkFilter (f : DatabaseFilter) : Except SelectionErr Unit :=
  match s.mode with
  | .list => if f.name ∈ s.databases then .ok () else .error (.filterNotListed f.name)
  | .all =>
    if f.name ∈ s.databases then .ok ()
    else if isSystemDatabase f.name then .error (.filterSystem f.name)
    else if matchesAny s.exclude f.name ≠ [] then
      .error (.filterExcluded f.name (matchesAny s.exclude f.name))
    else .ok ()
  | _ => .error .filtersNeedListOrAll

def normalizeFilters : Except SelectionErr DatabaseSelection := do
  Go.refuse (maxSelectionDatabases < s.collectionFilters.length) .tooManyFilters
  let out ← s.collectionFilters.foldlM addFilter []
  out.forM s.checkFilter
  return { s with collectionFilters := out.insertionSort fun a b => a.name ≤ b.name }

/-- What each mode needs. -/
def checkMode : Except SelectionErr Unit :=
  match s.mode with
  | .single =>
    if s.databases.length ≠ 1 then .error .singleNamesOne
    else if 0 < s.include.length ∨ 0 < s.exclude.length ∨ s.autoIncludeNew then .error .needsDiscovery
    else .ok ()
  | .list =>
    if s.databases.length = 0 then .error .listNeedsDatabase
    else if 0 < s.include.length ∨ 0 < s.exclude.length ∨ s.autoIncludeNew then .error .needsDiscovery
    else .ok ()
  | .all => if 0 < s.include.length then .error .includeNeedsPattern else .ok ()
  | .pattern => if s.include.length = 0 then .error .patternNeedsInclude else .ok ()
  | _ => .error .mode

/-- System databases are never backed up by a job of several databases. -/
def checkSystem : Except SelectionErr Unit :=
  if s.multi then s.databases.forM fun name => Go.refuse (isSystemDatabase name) (.systemDatabase name)
  else .ok ()

/-- The names and patterns trimmed, empty and repeated ones dropped. -/
def cleaned : DatabaseSelection :=
  { s with
    databases := cleanList s.databases
    «include» := cleanList s.include
    exclude := cleanList s.exclude }

/-- The checks of `Normalize`, and the filters. -/
def check : Except SelectionErr DatabaseSelection := do
  Go.refuse (maxSelectionDatabases < s.databases.length) .tooManyDatabases
  Go.refuse (maxSelectionPatterns < s.include.length ∨ maxSelectionPatterns < s.exclude.length)
    .tooManyPatterns
  s.databases.forM fun name => (validateDatabaseName name).mapError .databases
  s.include.forM fun p => (validateDatabasePattern p).mapError .include
  s.exclude.forM fun p => (validateDatabasePattern p).mapError .exclude
  s.checkMode
  s.checkSystem
  s.normalizeFilters

def normalize : Except SelectionErr DatabaseSelection := s.cleaned.check

/-- `Matches`: the selection backs the database up, its known databases aside. -/
def «matches» (name : Bytes) : Bool :=
  if s.databases.contains name then true
  else
    match s.mode with
    | .all => !isSystemDatabase name && matchesAny s.exclude name = []
    | .pattern => !isSystemDatabase name && matchesAny s.include name ≠ [] && matchesAny s.exclude name = []
    | _ => false

end DatabaseSelection

end MongoRescue.Selection
