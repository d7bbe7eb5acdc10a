import MongoRescue.Selection.Selection

/-!
# What a selection backs up

`ResolveSelection` (models/selection.go): the databases of a server a selection backs up, the others
with the reason, the named ones the server does not have, and the known databases after it.
-/

namespace MongoRescue.Selection

open Go (Bytes)

inductive Reason
  | system
  | excluded
  | notMatched
  | notSelected
  | new
  | notFound
  deriving DecidableEq

structure ExcludedDatabase where
  name : Bytes
  reason : Reason
  /-- The exclude pattern that matched. -/
  pattern : Bytes
  deriving DecidableEq

inductive Warning
  | includeMatchesNothing (pattern : Bytes)
  | excludeMatchesNothing (pattern : Bytes)
  | nothingIncluded
  deriving DecidableEq

structure DatabaseResolution where
  included : List Bytes
  excluded : List ExcludedDatabase
  missing : List Bytes
  new : List Bytes
  /-- None for nil. -/
  known : Option (List Bytes)
  warnings : List Warning
  deriving DecidableEq

/-- The maps `included` and `excluded` while a selection is resolved, and `res.Missing`. -/
structure Picks where
  included : List Bytes
  excluded : List ExcludedDatabase
  missing : List Bytes
  nodup : included.Nodup
  /-- No name is in both maps. -/
  apart : ∀ e ∈ excluded, e.name ∉ included

namespace Picks

def empty : Picks := ⟨[], [], [], List.nodup_nil, fun _ h => absurd h List.not_mem_nil⟩

theorem apart_include {included : List Bytes} {excluded : List ExcludedDatabase}
    (h : ∀ e ∈ excluded, e.name ∉ included) (name : Bytes) :
    ∀ e ∈ excluded.filter (·.name ≠ name), e.name ∉ included.insert name := by
  intro e he hmem
  rw [List.mem_filter, decide_eq_true_eq] at he
  rcases List.mem_insert_iff.mp hmem with heq | hmem
  · exact he.2 heq
  · exact h e he.1 hmem

theorem apart_exclude {included : List Bytes} {excluded : List ExcludedDatabase}
    (h : ∀ e ∈ excluded, e.name ∉ included) {x : ExcludedDatabase} (hx : x.name ∉ included) :
    ∀ e ∈ x :: excluded.filter (·.name ≠ x.name), e.name ∉ included := by
  intro e he
  rcases List.mem_cons.mp he with rfl | he
  · exact hx
  · exact h e (List.mem_filter.mp he).1

def «include» (k : Picks) (name : Bytes) : Picks :=
  { included := k.included.insert name
    excluded := k.excluded.filter (·.name ≠ name)
    missing := k.missing
    nodup := k.nodup.insert
    apart := apart_include k.apart name }

def exclude (k : Picks) (name : Bytes) (reason : Reason) (pattern : Bytes) : Picks :=
  if h : name ∈ k.included then k
  else
    { k with
      excluded := ⟨name, reason, pattern⟩ :: k.excluded.filter (·.name ≠ name)
      apart := apart_exclude k.apart h }

/-- A named database the server does not have. -/
def addMissing (k : Picks) (name : Bytes) : Picks :=
  { k with missing := k.missing ++ [name] }.exclude name .notFound []

end Picks

def systemOr (name : Bytes) (reason : Reason) : Reason :=
  if isSystemDatabase name then .system else reason

/-- Drops repeated neighbours (`slices.Compact`). -/
def compact : List Bytes → List Bytes
  | a :: b :: l => if a = b then compact (b :: l) else a :: compact (b :: l)
  | l => l

/-- `slices.Sort`. -/
def sorted (l : List Bytes) : List Bytes := l.insertionSort (· ≤ ·)

section

variable (sel : DatabaseSelection) (server : List Bytes)

/-- The named databases the server has are included, the others are missing. -/
def includeNamed (k : Picks) : Picks :=
  sel.databases.foldl (fun k name => if name ∈ server then k.include name else k.addMissing name) k

/-- The databases of the server that a single or list selection does not name. -/
def excludeRest (k : Picks) : Picks :=
  server.foldl (fun k name =>
    if name ∈ k.included then k else k.exclude name (systemOr name .notSelected) []) k

/-- Why the patterns of an all or pattern selection do not match a database; none if they do. -/
def unmatched (name : Bytes) : Option (Reason × Bytes) :=
  if isSystemDatabase name then some (.system, [])
  else if sel.mode = .pattern ∧ matchesAny sel.include name = [] then some (.notMatched, [])
  else if matchesAny sel.exclude name ≠ [] then some (.excluded, matchesAny sel.exclude name)
  else none

/-- The picks, and the databases matched so far. -/
def matchOne (st : Picks × List Bytes) (name : Bytes) : Picks × List Bytes :=
  match unmatched sel name with
  | some (reason, pattern) => (st.1.exclude name reason pattern, st.2)
  | none => (st.1, st.2 ++ [name])

/-- The first loop over the server: the databases the patterns do not match, and those they do. -/
def matchServer (k : Picks) : Picks × List Bytes := server.foldl (matchOne sel) (k, [])

/-- The picks with `res.Known` and `res.New`. -/
structure Discovery where
  picks : Picks
  known : List Bytes
  new : List Bytes

/-- A database the patterns match. -/
def discover (known : Option (List Bytes)) (st : Discovery) (name : Bytes) : Discovery :=
  match known with
  | none => { st with known := st.known ++ [name], picks := st.picks.include name }
  | some ks =>
    if name ∈ ks then { st with picks := st.picks.include name }
    else if sel.autoIncludeNew then
      { picks := st.picks.include name, known := st.known ++ [name], new := st.new ++ [name] }
    else { st with new := st.new ++ [name], picks := st.picks.exclude name .new [] }

def warnings : List Warning :=
  (sel.include.filter fun p => !server.any (matchDatabasePattern p)).map .includeMatchesNothing ++
    (sel.exclude.filter fun p => !server.any (matchDatabasePattern p)).map .excludeMatchesNothing

/-- What an all or pattern selection matches. -/
def discoverServer (known : Option (List Bytes)) : Discovery :=
  let (k, matched) := matchServer sel server .empty
  (sorted matched).foldl (discover sel known) ⟨k, known.getD [], []⟩

/-- The lists a resolution returns. -/
def finish (k : Picks) (new : List Bytes) (known : Option (List Bytes)) (notes : List Warning) :
    DatabaseResolution :=
  { included := sorted k.included
    excluded := k.excluded.insertionSort fun a b => a.name ≤ b.name
    missing := k.missing
    new
    known
    warnings := notes ++ if k.included.length = 0 ∧ sel.multi then [.nothingIncluded] else [] }

def resolveSelection (known : Option (List Bytes)) : DatabaseResolution :=
  match sel.mode with
  | .single | .unset =>
    finish sel (excludeRest server (sel.databases.foldl .include .empty)) [] none []
  | .list => finish sel (excludeRest server (includeNamed sel server .empty)) [] none []
  | .all | .pattern =>
    let st := discoverServer sel server known
    finish sel (includeNamed sel server st.picks) st.new (some (compact (sorted st.known)))
      (warnings sel server)
  | .other _ => finish sel .empty [] none []

end

end MongoRescue.Selection
