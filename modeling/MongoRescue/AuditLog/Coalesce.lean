import MongoRescue.AuditLog.Event
import MongoRescue.Lib.Table
import MongoRescue.Lib.Trans
import Mathlib.Data.List.Perm.Basic

/-!
# Coalescing of refusals

`Record`, `coalesce`, `takeWindows` and `flushRefusals` (internal/auditlog/auditlog.go, coalesce.go).
The first refusal of a caller opens a `Window` and is stored; identical ones within the window are
counted, and a summary entry stands for them when the window closes. Go goes through the map of the
windows in any order, so an operation names the order in which it hands the summaries of one pass to the
writer; the ones it may name are those sorted by time.

`Service.submitted` are the entries handed to the writer and `Service.recorded` the recorded events as
`normalize` made them, both as history.
-/

namespace MongoRescue.AuditLog

open Go (Bytes)
open Go.Json (StringMap)

def outcomeDenied : Bytes := ascii "denied"
def outcomeRateLimited : Bytes := ascii "rate_limited"

def coalesceWindow : Int := 10 * Go.second
def maxCoalesceKeys : Nat := 4096
def maxSummaryNames : Nat := 10
def maxSummaryNameLength : Nat := 64

def targetCoalescedFrom : Bytes := ascii "coalesced_from"
def targetCoalescedUntil : Bytes := ascii "coalesced_until"
def targetNamePrefix : Bytes := ascii "name_"
def targetNamesMore : Bytes := ascii "names_more"
def targetReason : Bytes := ascii "reason"

/-- `m[k]`, empty for a missing key. -/
def lookup (m : StringMap) (k : Bytes) : Bytes := ((m.pairs.find? (·.1 = k)).map (·.2)).getD []

def itoa (n : Int) : Bytes := ascii (Go.padded 1 n)

/-! ## Windows -/

structure Window where
  first : Event
  since : Int
  last : Int
  suppressed : Int
  names : List Bytes
  moreNames : Int
  names_le : names.length ≤ maxSummaryNames

def isRefusal (e : Event) : Bool := e.outcome = outcomeDenied || e.outcome = outcomeRateLimited

/-- `strings.Join` with a NUL between the parts. -/
def joinNul (parts : List Bytes) : Bytes := [0].intercalate parts

/-- The caller and the refusal; the attempted name of an anonymous caller is not part of it. -/
def refusalKey (e : Event) : Bytes :=
  let name := if e.actorKind = actorAnonymous then [] else e.actorName
  joinNul [e.actorKind, e.actorUserID, name, e.actorKeyID, e.clientIP, e.action, e.outcome,
    itoa e.status, lookup e.targets targetReason]

namespace Window

def opened (e : Event) : Window :=
  { first := e, since := e.time, last := e.time, suppressed := 0, names := [], moreNames := 0
    names_le := Nat.zero_le _ }

/-- Counts the refusal; the distinct names of anonymous callers are kept, as many as fit. -/
def addName (w : Window) (name : Bytes) : Window :=
  if name ∈ w.names then w
  else if h : w.names.length < maxSummaryNames then
    { w with names := w.names ++ [name], names_le := by rw [List.length_append]; exact h }
  else { w with moreNames := Go.wrap64 (w.moreNames + 1) }

def add (w : Window) (e : Event) : Window :=
  let w := { w with
    suppressed := Go.wrap64 (w.suppressed + e.count)
    last := if w.last < e.time then e.time else w.last }
  if e.actorKind ≠ actorAnonymous ∨ e.actorName = [] then w
  else w.addName (clean e.actorName maxSummaryNameLength)

/-- The targets of the summary of an anonymous caller's refusals: the attempted names. -/
def nameTargets (w : Window) (m : StringMap) : StringMap :=
  let m := w.names.zipIdx.foldl (fun m n => m.set (targetNamePrefix ++ itoa (n.2 + 1)) n.1) m
  if 0 < w.moreNames then m.set targetNamesMore (itoa w.moreNames) else m

/-- The targets of the summary. -/
def targets (w : Window) : StringMap :=
  let m := (StringMap.empty.set targetCoalescedFrom (formatTime w.since)).set targetCoalescedUntil
    (formatTime w.last)
  let reason := lookup w.first.targets targetReason
  let m := if reason ≠ [] then m.set targetReason reason else m
  if w.first.actorKind = actorAnonymous then w.nameTargets m else m

/-- The entry that stands for the counted refusals, before it is normalised. -/
def rawSummary (w : Window) : Event :=
  { w.first with
    time := w.last
    count := w.suppressed
    targets := w.targets
    actorName := if w.first.actorKind = actorAnonymous then [] else w.first.actorName }

def summary (w : Window) : Option Event :=
  if w.suppressed = 0 then none else some (normalize w.rawSummary)

end Window

/-! ## The service -/

structure Service where
  windows : Table (Prod.fst : Bytes × Window → Bytes) := .empty
  submitted : List Event := []
  recorded : List Event := []

/-- The order of the summaries of one pass over the windows: by time, in any order among equals. -/
def InOrder (windows : List (Bytes × Window)) (closed : Window → Bool) (order : List Event) : Prop :=
  order.Perm ((windows.filter (closed ·.2)).filterMap (·.2.summary)) ∧
    order.Pairwise fun a b => a.time ≤ b.time

instance (windows : List (Bytes × Window)) (closed : Window → Bool) (order : List Event) :
    Decidable (InOrder windows closed order) :=
  inferInstanceAs (Decidable (_ ∧ _))

namespace Service

/-- `takeWindows`, and the summaries handed to the writer. -/
def takeWindows (s : Service) (closed : Window → Bool) (order : List Event) : Option Service :=
  if InOrder s.windows.rows closed order then
    some { s with
      windows := s.windows.filter fun w => !closed w.2
      submitted := s.submitted ++ order }
  else none

/-- The refusal is counted into the window. -/
def counts (w : Window) (e : Event) : Bool :=
  decide (w.since ≤ e.time) && decide (Go.timeSub e.time w.since < coalesceWindow)

/-- An index that is full is flushed. -/
def makeRoom (s : Service) (order : List Event) : Option Service :=
  if maxCoalesceKeys ≤ s.windows.rows.length then s.takeWindows (fun _ => true) order else some s

/-- A refusal opens a window and is stored. -/
def openWindow (s : Service) (e : Event) (order : List Event) : Option Service :=
  (s.makeRoom order).map fun s =>
    { s with
      windows := s.windows.put (refusalKey e, .opened e)
      submitted := s.submitted ++ [e] }

/-- A normalised event is counted, or stored. -/
def coalesce (s : Service) (e : Event) (order : List Event) : Option Service :=
  if isRefusal e then
    match s.windows.get (refusalKey e) with
    | some (k, w) =>
      if counts w e then some { s with windows := s.windows.put (k, w.add e) }
      else
        { s with
          windows := s.windows.erase (refusalKey e)
          submitted := s.submitted ++ w.summary.toList }.openWindow e order
    | none => s.openWindow e order
  else some { s with submitted := s.submitted ++ [e] }

/-- The time of the call and the client of its context, where the event has none. -/
def fill (e : Event) (now : Int) (client : Option (Bytes × Bytes)) : Event :=
  { e with
    time := if e.time = Go.zeroTime then now else e.time
    clientIP := if e.clientIP = [] then (client.map (·.1)).getD [] else e.clientIP
    userAgent := if e.userAgent = [] then (client.map (·.2)).getD [] else e.userAgent }

def record (s : Service) (e : Event) (order : List Event) : Option Service :=
  { s with recorded := s.recorded ++ [normalize e] }.coalesce (normalize e) order

/-- `flushRefusals`: the windows closed at `now`, or all of them. -/
def flushRefusals (s : Service) (now : Int) (all : Bool) (order : List Event) : Option Service :=
  s.takeWindows (fun w => all || decide (coalesceWindow ≤ Go.timeSub now w.since) || decide (now < w.since))
    order

end Service

/-- A call of the service, with the order of the summaries it hands to the writer. -/
inductive Op
  | record (e : Event) (now : Int) (client : Option (Bytes × Bytes)) (order : List Event)
  | flushRefusals (now : Int) (all : Bool) (order : List Event)
  deriving DecidableEq

def Op.flush (order : List Event) : Op := .flushRefusals Go.zeroTime true order

/-- The service from its start on. -/
def coalescing : Trans.Sys Service Op where
  init s := s = {}
  step s
    | .record e now client order => s.record (Service.fill e now client) order
    | .flushRefusals now all order => s.flushRefusals now all order

end MongoRescue.AuditLog
