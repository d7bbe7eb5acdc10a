import MongoRescue.AuditLog.Coalesce
import MongoRescue.AuditLog.Proof.Canonical
import Mathlib.Algebra.BigOperators.Group.List.Basic

/-!
# Coalescing conserves refusals

Every recorded event is counted once: in an entry handed to the writer or in a window that is still open
(`Balanced`). A pass over the windows moves counts from windows to entries (`takeWindows_balanced`),
counting a refusal adds to one window (`coalesce_balanced`), as long as its counter does not overflow
(`Fits`). The targets of a summary stay below the cap of `normalize`, whose keys they keep
(`summary_targets`), and at most `maxCoalesceKeys` windows are open.
-/

namespace MongoRescue.AuditLog.Proof

open Go (Bytes)
open Go.Json (StringMap)
open Trans

/-! ## Counts -/

def total (es : List Event) : Int := (es.map (·.count)).sum

def suppressedTotal (ws : List (Bytes × Window)) : Int := (ws.map (·.2.suppressed)).sum

@[simp] theorem total_nil : total [] = 0 := rfl

@[simp] theorem total_append (es es' : List Event) : total (es ++ es') = total es + total es' := by
  simp [total]

@[simp] theorem total_singleton (e : Event) : total [e] = e.count := by
  simp [total]

theorem total_perm {es es' : List Event} (h : es.Perm es') : total es = total es' :=
  (h.map _).sum_eq

@[simp] theorem suppressedTotal_cons (w : Bytes × Window) (ws : List (Bytes × Window)) :
    suppressedTotal (w :: ws) = w.2.suppressed + suppressedTotal ws := by
  simp [suppressedTotal]

theorem suppressedTotal_perm {ws ws' : List (Bytes × Window)} (h : ws.Perm ws') :
    suppressedTotal ws = suppressedTotal ws' :=
  (h.map _).sum_eq

theorem suppressedTotal_append (ws ws' : List (Bytes × Window)) :
    suppressedTotal (ws ++ ws') = suppressedTotal ws + suppressedTotal ws' := by
  simp [suppressedTotal]

/-! ## Windows -/

/-- A summary stands for the refusals its window counted. -/
theorem total_summary {w : Window} (h : 0 ≤ w.suppressed) : total w.summary.toList = w.suppressed := by
  unfold Window.summary
  by_cases h0 : w.suppressed = 0
  · rw [if_pos h0, h0]
    rfl
  · rw [if_neg h0]
    have hcount : (normalize w.rawSummary).count = max w.suppressed 1 := rfl
    simp only [Option.toList_some, total_singleton, hcount]
    omega

theorem total_summaries {ws : List (Bytes × Window)} (h : ∀ w ∈ ws, 0 ≤ w.2.suppressed) :
    total (ws.filterMap (·.2.summary)) = suppressedTotal ws := by
  induction ws with
  | nil => rfl
  | cons w ws ih =>
    have hw := total_summary (h w List.mem_cons_self)
    have hrest := ih fun v hv => h v (List.mem_cons_of_mem _ hv)
    rw [suppressedTotal_cons, ← hw, ← hrest, ← total_append]
    congr 1
    rw [List.filterMap_cons]
    cases w.2.summary <;> rfl

theorem suppressedTotal_filter (p : Bytes × Window → Bool) (ws : List (Bytes × Window)) :
    suppressedTotal (ws.filter p) + suppressedTotal (ws.filter fun w => !p w) = suppressedTotal ws := by
  rw [← suppressedTotal_append]
  exact suppressedTotal_perm (List.filter_append_perm p ws)

@[simp] theorem suppressed_addName (w : Window) (name : Bytes) :
    (w.addName name).suppressed = w.suppressed := by
  unfold Window.addName
  split
  · rfl
  · split <;> rfl

theorem suppressed_add (w : Window) (e : Event) :
    (w.add e).suppressed = Go.wrap64 (w.suppressed + e.count) := by
  unfold Window.add
  dsimp only
  split
  · rfl
  · rw [suppressed_addName]

/-! ## The invariant -/

/-- **Every recorded event is counted once**, `owed` of them in no entry and no window yet. -/
structure Balanced (owed : Int) (s : Service) : Prop where
  nonneg : ∀ w ∈ s.windows.rows, 0 ≤ w.2.suppressed
  balance : total s.submitted + suppressedTotal s.windows.rows + owed = total s.recorded
  bounded : s.windows.rows.length ≤ maxCoalesceKeys

/-- Counting an event does not overflow the counter of its window. -/
def CountFits (s : Service) (e : Event) : Prop :=
  ∀ w, s.windows.get (refusalKey e) = some w → Service.counts w.2 e = true →
    w.2.suppressed + e.count ≤ Go.maxInt64

def Fits (s : Service) : Op → Prop
  | .record e now client _ => CountFits s (normalize (Service.fill e now client))
  | .flushRefusals .. => True

section Steps

variable {s s' : Service} {order : List Event} {owed : Int} {e : Event}

theorem takeWindows_some {closed : Window → Bool} (h : s.takeWindows closed order = some s') :
    InOrder s.windows.rows closed order ∧
      s' = { s with windows := s.windows.filter fun w => !closed w.2, submitted := s.submitted ++ order } := by
  unfold Service.takeWindows at h
  by_cases ho : InOrder s.windows.rows closed order
  · rw [if_pos ho] at h
    exact ⟨ho, (Option.some.inj h).symm⟩
  · rw [if_neg ho] at h
    cases h

/-- A pass over the windows moves counts from windows to entries. -/
theorem takeWindows_balanced {closed : Window → Bool} (hs : Balanced owed s)
    (h : s.takeWindows closed order = some s') : Balanced owed s' := by
  obtain ⟨ho, rfl⟩ := takeWindows_some h
  refine ⟨fun w hw => hs.nonneg w (List.mem_filter.mp hw).1, ?_, ?_⟩
  · have hmoved : total order = suppressedTotal (s.windows.rows.filter (closed ·.2)) := by
      rw [total_perm ho.1]
      exact total_summaries fun w hw => hs.nonneg w (List.mem_filter.mp hw).1
    have hsplit := suppressedTotal_filter (fun w => closed w.2) s.windows.rows
    have hbalance := hs.balance
    dsimp only [Table.filter]
    rw [total_append, hmoved]
    omega
  · exact (List.length_filter_le _ _).trans hs.bounded

theorem takeWindows_all (h : s.takeWindows (fun _ => true) order = some s') : s'.windows.rows = [] := by
  obtain ⟨-, rfl⟩ := takeWindows_some h
  simp [Table.filter]

/-- A stored event is no longer owed. -/
theorem store_balanced (hs : Balanced e.count s) :
    Balanced 0 { s with submitted := s.submitted ++ [e] } := by
  refine ⟨hs.nonneg, ?_, hs.bounded⟩
  have hbalance := hs.balance
  dsimp only
  rw [total_append, total_singleton]
  omega

/-- A window that closes becomes its summary. -/
theorem close_balanced {w : Bytes × Window} (hs : Balanced owed s)
    (hw : s.windows.get (refusalKey e) = some w) : Balanced owed { s with
      windows := s.windows.erase (refusalKey e), submitted := s.submitted ++ w.2.summary.toList } := by
  have hperm := Table.perm_of_get hw
  have hsum := suppressedTotal_perm hperm
  have hw0 := hs.nonneg w (Table.mem_of_get hw)
  refine ⟨fun v hv => hs.nonneg v (List.mem_filter.mp hv).1, ?_, ?_⟩
  · have hbalance := hs.balance
    rw [suppressedTotal_cons] at hsum
    dsimp only
    rw [total_append, total_summary hw0]
    omega
  · exact (List.length_filter_le _ _).trans hs.bounded

/-- Opening a window stores the refusal; the index has room for it. -/
theorem put_opened_balanced (hs : Balanced e.count s) (hroom : s.windows.rows.length < maxCoalesceKeys)
    (hkey : s.windows.get (refusalKey e) = none) : Balanced 0 { s with
      windows := s.windows.put (refusalKey e, .opened e), submitted := s.submitted ++ [e] } := by
  have hrows : (s.windows.put (refusalKey e, .opened e)).rows =
      s.windows.rows ++ [(refusalKey e, .opened e)] := Table.rows_put_of_none hkey
  refine ⟨?_, ?_, ?_⟩
  · dsimp only
    rw [hrows]
    intro w hw
    rcases List.mem_append.mp hw with hw | hw
    · exact hs.nonneg w hw
    · rw [List.mem_singleton.mp hw]
      exact le_rfl
  · have hbalance := hs.balance
    have hnew : suppressedTotal [(refusalKey e, Window.opened e)] = 0 := rfl
    dsimp only
    rw [hrows, suppressedTotal_append, hnew, total_append, total_singleton]
    omega
  · dsimp only
    rw [hrows, List.length_append, List.length_singleton]
    omega

theorem openWindow_balanced (hs : Balanced e.count s) (hkey : s.windows.get (refusalKey e) = none)
    (h : s.openWindow e order = some s') : Balanced 0 s' := by
  obtain ⟨s₁, hs₁, rfl⟩ := Option.map_eq_some_iff.mp h
  unfold Service.makeRoom at hs₁
  by_cases hfull : maxCoalesceKeys ≤ s.windows.rows.length
  · rw [if_pos hfull] at hs₁
    have hempty := takeWindows_all hs₁
    refine put_opened_balanced (takeWindows_balanced hs hs₁) ?_ ?_
    · rw [hempty]
      decide
    · rw [Table.get, hempty]
      rfl
  · rw [if_neg hfull] at hs₁
    cases hs₁
    exact put_opened_balanced hs (by omega) hkey

theorem count_balanced {w : Bytes × Window} (hs : Balanced e.count s) (he : 1 ≤ e.count)
    (hw : s.windows.get (refusalKey e) = some w) (hfits : w.2.suppressed + e.count ≤ Go.maxInt64) :
    Balanced 0 { s with windows := s.windows.put (w.1, w.2.add e) } := by
  have hkey : w.1 = refusalKey e := Table.key_of_get hw
  have hw0 := hs.nonneg w (Table.mem_of_get hw)
  have hold := Table.perm_of_get hw
  have hnew := Table.perm_put s.windows (w.1, w.2.add e)
  dsimp only at hnew
  rw [hkey] at hnew ⊢
  have hadd : (w.2.add e).suppressed = w.2.suppressed + e.count := by
    rw [suppressed_add]
    exact Go.wrap64_of_bounds (by unfold Go.minInt64; omega) hfits
  refine ⟨fun v hv => ?_, ?_, ?_⟩
  · rcases List.mem_cons.mp (hnew.mem_iff.mp hv) with rfl | hv
    · rw [hadd]
      omega
    · exact hs.nonneg v (List.mem_filter.mp hv).1
  · have hbalance := hs.balance
    have h1 := suppressedTotal_perm hold
    have h2 := suppressedTotal_perm hnew
    rw [suppressedTotal_cons] at h1 h2
    dsimp only at h2 ⊢
    omega
  · have h1 := hold.length_eq
    have h2 := hnew.length_eq
    rw [List.length_cons] at h1 h2
    have := hs.bounded
    dsimp only
    omega

theorem coalesce_balanced (hs : Balanced e.count s) (he : 1 ≤ e.count) (hfits : CountFits s e)
    (h : s.coalesce e order = some s') : Balanced 0 s' := by
  unfold Service.coalesce at h
  by_cases hr : isRefusal e = true
  · rw [if_pos hr] at h
    rcases hw : s.windows.get (refusalKey e) with _ | ⟨k, w⟩
    · rw [hw] at h
      exact openWindow_balanced hs hw h
    · rw [hw] at h
      dsimp only at h
      by_cases hc : Service.counts w e = true
      · rw [if_pos hc] at h
        cases h
        exact count_balanced hs he hw (hfits _ hw hc)
      · rw [if_neg hc] at h
        exact openWindow_balanced (close_balanced hs hw) (Table.get_erase_self _ _) h
  · rw [if_neg hr] at h
    cases h
    exact store_balanced hs

theorem step_balanced {op : Op} (hs : Balanced 0 s) (hok : Fits s op)
    (h : coalescing.step s op = some s') : Balanced 0 s' := by
  cases op with
  | record e now client order =>
    refine coalesce_balanced (s := { s with recorded := s.recorded ++ [_] }) ?_ (le_max_right _ 1) hok h
    refine ⟨hs.nonneg, ?_, hs.bounded⟩
    have hbalance := hs.balance
    dsimp only
    rw [total_append, total_singleton]
    omega
  | flushRefusals now all order => exact takeWindows_balanced hs h

end Steps

/-! ## The targets of a summary -/

theorem toValidUTF8_chars (b : Bool) (cs : List Char) : toValidUTF8 b (cs.map .char) = cs := by
  induction cs generalizing b with
  | nil => rfl
  | cons c cs ih => rw [List.map_cons, toValidUTF8, ih]

theorem cutBytes_ascii {n : Nat} {cs : List Char} (h : ∀ c ∈ cs, c.utf8Size = 1) (hn : cs.length ≤ n) :
    cutBytes n cs = cs := by
  induction cs generalizing n with
  | nil => rfl
  | cons c cs ih =>
    rw [List.length_cons] at hn
    have hc := h c List.mem_cons_self
    rw [cutBytes, if_pos (by omega), hc, ih (fun d hd => h d (List.mem_cons_of_mem _ hd)) (by omega)]

/-- Small letters, digits and underscores. -/
def keyChar (c : Char) : Bool :=
  (48 ≤ c.toNat && c.toNat ≤ 57) || (97 ≤ c.toNat && c.toNat ≤ 122) || c.toNat = 95

theorem keyChar_bounds {c : Char} (h : keyChar c = true) : 48 ≤ c.toNat ∧ c.toNat ≤ 122 := by
  simp only [keyChar, Bool.or_eq_true, Bool.and_eq_true, decide_eq_true_eq] at h
  omega

theorem keyChar_of_isDigit {c : Char} (h : c.isDigit = true) : keyChar c = true := by
  obtain ⟨hlt, hle⟩ := Go.digit_value h
  have h48 : '0'.toNat = 48 := rfl
  simp only [keyChar, Bool.or_eq_true, Bool.and_eq_true, decide_eq_true_eq]
  omega

/-- Short keys of such characters stay as they are. -/
theorem clean_key {cs : List Char} (h : cs.all keyChar = true) (hn : cs.length ≤ maxTargetKeyLength) :
    clean (Go.utf8 cs) maxTargetKeyLength = Go.utf8 cs := by
  have hchar := List.all_eq_true.mp h
  have hdropped : ∀ c ∈ cs, (!dropped c) = true := by
    intro c hc
    have hb := keyChar_bounds (hchar c hc)
    have hne : c ≠ '\u2028' ∧ c ≠ '\u2029' := by
      constructor <;> rintro rfl <;> revert hb <;> decide
    simp [dropped, Go.isControl, hne.1, hne.2]
    omega
  have hsize : ∀ c ∈ cs, c.utf8Size = 1 := by
    intro c hc
    have hb := keyChar_bounds (hchar c hc)
    unfold Char.utf8Size
    exact if_pos (UInt32.le_iff_toNat_le.mpr (hb.2.trans (by decide)))
  rw [clean, Go.runes_utf8, toValidUTF8_chars, List.filter_eq_self.mpr hdropped, cutBytes_ascii hsize hn]

/-- A key that `normalize` keeps. -/
def GoodKey (k : Bytes) : Prop := clean k maxTargetKeyLength = k ∧ k ≠ []

/-- Keys in order that `clean` keeps are all kept, as long as they are not more than the cap. -/
theorem keepTargets {ps : List (Bytes × Bytes)} {m : StringMap}
    (hsorted : (m.pairs.map (·.1) ++ ps.map (·.1)).Pairwise (· < ·))
    (hlen : m.pairs.length + ps.length ≤ maxTargets) (hkeys : ∀ p ∈ ps, GoodKey p.1) :
    (ps.foldl keepTarget m).pairs =
      m.pairs ++ ps.map fun p => (p.1, clean p.2 maxTargetValueLength) := by
  induction ps generalizing m with
  | nil => simp
  | cons p ps ih =>
    obtain ⟨hclean, hne⟩ := hkeys p List.mem_cons_self
    rw [List.length_cons] at hlen
    have hlast : ∀ q ∈ m.pairs, q.1 < p.1 := fun q hq =>
      (List.pairwise_append.mp hsorted).2.2 q.1 (List.mem_map_of_mem hq) p.1 (by simp)
    have hstep : (keepTarget m p).pairs = m.pairs ++ [(p.1, clean p.2 maxTargetValueLength)] := by
      unfold keepTarget
      dsimp only
      rw [hclean, if_neg (by push Not; exact ⟨hne, by omega⟩)]
      exact Go.Json.insertPair_append hlast
    rw [List.foldl_cons, ih ?_ ?_ fun q hq => hkeys q (List.mem_cons_of_mem _ hq), hstep]
    · simp
    · rw [hstep]
      simpa using hsorted
    · rw [hstep, List.length_append, List.length_singleton]
      omega

/-- At most `n` targets, under keys that `normalize` keeps. -/
structure Tidy (n : Nat) (m : StringMap) : Prop where
  length : m.pairs.length ≤ n
  keys : ∀ p ∈ m.pairs, GoodKey p.1

theorem length_insertPair (k v : Bytes) (ps : List (Bytes × Bytes)) :
    (Go.Json.insertPair k v ps).length ≤ ps.length + 1 := by
  induction ps with
  | nil => simp [Go.Json.insertPair]
  | cons p ps ih =>
    rw [Go.Json.insertPair]
    split
    · simp
    · split
      · simp
      · simpa using ih

theorem Tidy.set {n : Nat} {m : StringMap} (h : Tidy n m) {k : Bytes} (hk : GoodKey k) (v : Bytes) :
    Tidy (n + 1) (m.set k v) := by
  refine ⟨(length_insertPair k v m.pairs).trans (Nat.succ_le_succ h.length), fun p hp => ?_⟩
  rcases Go.Json.mem_insertPair hp with rfl | hp
  · exact hk
  · exact h.keys p hp

theorem Tidy.mono {n n' : Nat} {m : StringMap} (h : Tidy n m) (hn : n ≤ n') : Tidy n' m :=
  ⟨h.length.trans hn, h.keys⟩

theorem goodKey_ascii {cs : List Char} (h : cs.all keyChar = true) (hn : cs.length ≤ maxTargetKeyLength)
    (hne : cs ≠ []) : GoodKey (Go.utf8 cs) := by
  refine ⟨clean_key h hn, fun hnil => hne ?_⟩
  exact Go.utf8_injective (hnil.trans rfl)

theorem goodKey_name {i : Nat} (h : i ≤ maxSummaryNames) : GoodKey (targetNamePrefix ++ itoa i) := by
  have htext : targetNamePrefix ++ itoa i = Go.utf8 ("name_".toList ++ Go.digits 1 i) := by
    rw [targetNamePrefix, itoa, ascii, ascii, Go.toList_padded_of_nonneg 1 (Int.natCast_nonneg i),
      Int.natAbs_natCast, Go.utf8_append]
  have hlen : (Go.digits 1 i).length ≤ 2 := by
    have := (Nat.length_toDigits_le_iff (b := 10) (k := 2) (n := i) (by decide) (by decide)).mpr
      (by unfold maxSummaryNames at h; omega)
    rw [Go.digits, List.length_append, List.length_replicate]
    omega
  rw [htext]
  refine goodKey_ascii (List.all_eq_true.mpr fun c hc => ?_) ?_ (by simp)
  · rcases List.mem_append.mp hc with hc | hc
    · exact List.all_eq_true.mp (by decide : "name_".toList.all keyChar = true) c hc
    · exact keyChar_of_isDigit (Go.isDigit_of_mem_digits hc)
  · rw [List.length_append]
    exact (Nat.add_le_add_left hlen _).trans (by decide)

/-- The attempted names take one target each. -/
theorem names_tidy {n : Nat} {m : StringMap} (hm : Tidy n m) {names : List Bytes} {k : Nat}
    (hk : k + names.length ≤ maxSummaryNames) : Tidy (n + names.length) ((names.zipIdx k).foldl
      (fun m p => m.set (targetNamePrefix ++ itoa (p.2 + 1)) p.1) m) := by
  induction names generalizing n m k with
  | nil => exact hm
  | cons name names ih =>
    rw [List.length_cons] at hk
    rw [List.zipIdx_cons, List.foldl_cons, List.length_cons]
    have hstep := hm.set (goodKey_name (i := k + 1) (by omega)) name
    exact (ih hstep (by omega)).mono (by omega)

theorem nameTargets_tidy {n : Nat} {m : StringMap} (hm : Tidy n m) (w : Window) :
    Tidy (n + maxSummaryNames + 1) (w.nameTargets m) := by
  have hnames := (names_tidy hm (k := 0) (by rw [Nat.zero_add]; exact w.names_le)).mono
    (Nat.add_le_add_left w.names_le n)
  unfold Window.nameTargets
  dsimp only
  split
  · exact hnames.set (goodKey_ascii (by decide) (by decide) (by decide)) _
  · exact hnames.mono (Nat.le_succ _)

theorem targets_tidy (w : Window) : Tidy maxTargets w.targets := by
  have hempty : Tidy 0 StringMap.empty := ⟨le_rfl, fun p hp => by cases hp⟩
  have hspan := (hempty.set (k := targetCoalescedFrom)
    (goodKey_ascii (by decide) (by decide) (by decide)) (formatTime w.since)).set
    (k := targetCoalescedUntil) (goodKey_ascii (by decide) (by decide) (by decide)) (formatTime w.last)
  have hreason : Tidy 3 (if lookup w.first.targets targetReason ≠ [] then
      ((StringMap.empty.set targetCoalescedFrom (formatTime w.since)).set targetCoalescedUntil
        (formatTime w.last)).set targetReason (lookup w.first.targets targetReason)
      else (StringMap.empty.set targetCoalescedFrom (formatTime w.since)).set targetCoalescedUntil
        (formatTime w.last)) := by
    split
    · exact hspan.set (goodKey_ascii (by decide) (by decide) (by decide)) _
    · exact hspan.mono (by decide)
  unfold Window.targets
  dsimp only
  split
  · exact (nameTargets_tidy hreason w).mono (by decide)
  · exact hreason.mono (by decide)

/-- **A summary keeps the targets of its window**, with their values cut to what an entry holds. -/
theorem summary_targets (w : Window) : (normalize w.rawSummary).targets.pairs =
    w.targets.pairs.map fun p => (p.1, clean p.2 maxTargetValueLength) := by
  have htidy := targets_tidy w
  refine (keepTargets (m := StringMap.empty) ?_ ?_ htidy.keys).trans (List.nil_append _)
  · exact List.pairwise_map.mpr w.targets.sorted
  · exact (Nat.zero_add _).trans_le htidy.length

/-! ## Runs -/

theorem init_balanced : Balanced 0 {} :=
  ⟨fun _ hw => (List.not_mem_nil hw).elim, rfl, Nat.zero_le _⟩

theorem reach_balanced {s : Service} (h : Sys.Reach coalescing Fits s) : Balanced 0 s :=
  Sys.Reach.inv (fun _ hinit => hinit ▸ init_balanced) (fun _ _ _ hs hok => step_balanced hs hok) h

/-- Every pass over the windows has an order to hand its summaries over in. -/
theorem exists_inOrder (ws : List (Bytes × Window)) (closed : Window → Bool) :
    ∃ order, InOrder ws closed order := by
  refine ⟨((ws.filter (closed ·.2)).filterMap (·.2.summary)).mergeSort
    fun a b => decide (a.time ≤ b.time), List.mergeSort_perm _ _, ?_⟩
  refine (List.pairwise_mergeSort ?_ ?_ _).imp fun h => by simpa using h
  · intro a b c hab hbc
    simp only [decide_eq_true_eq] at hab hbc ⊢
    omega
  · intro a b
    simp only [Bool.or_eq_true, decide_eq_true_eq]
    omega

/-- **Coalescing conserves refusals** in every run that does not overflow a window's counter: the entries
handed to the writer and the open windows count what was recorded, the index stays within its limit, a
flush leaves no window, and no summary loses a target. -/
theorem coalescing_conserves {s : Service} (h : Sys.Reach coalescing Fits s) :
    total s.submitted + suppressedTotal s.windows.rows = total s.recorded ∧
      s.windows.rows.length ≤ maxCoalesceKeys ∧
      (∃ order s', coalescing.step s (.flush order) = some s') ∧
      (∀ order s', coalescing.step s (.flush order) = some s' → s'.windows.rows = []) ∧
      ∀ w e, Window.summary w = some e → e.targets.pairs.map (·.1) = w.targets.pairs.map (·.1) := by
  have hs := reach_balanced h
  refine ⟨by simpa using hs.balance, hs.bounded, ?_, fun order s' hstep => takeWindows_all hstep, ?_⟩
  · obtain ⟨order, ho⟩ := exists_inOrder s.windows.rows fun _ => true
    exact ⟨order, _, if_pos ho⟩
  · intro w e hsummary
    unfold Window.summary at hsummary
    split at hsummary
    · cases hsummary
    · cases hsummary
      rw [summary_targets, List.map_map]
      rfl

/-- A refused login. -/
def refused (count : Int) : Event :=
  { time := 1, actorKind := actorAnonymous, actorName := ascii "bob", status := 401
    outcome := outcomeDenied, count := count }

def recordRefused (count : Int) : Op := .record (refused count) 1 none []

/-- The test of `Fits` on a state. -/
def fitsTest (s : Service) : Op → Bool
  | .record e now client _ =>
    let e := normalize (Service.fill e now client)
    (s.windows.get (refusalKey e)).all fun w => decide (w.2.suppressed + e.count ≤ Go.maxInt64)
  | .flushRefusals .. => true

theorem fits_of_test {s : Service} {op : Op} (h : fitsTest s op = true) : Fits s op := by
  cases op with
  | record e now client order =>
    intro w hw hc
    unfold fitsTest at h
    dsimp only at h
    rw [hw] at h
    exact of_decide_eq_true h
  | flushRefusals now all order => trivial

theorem coalescing_conserves_twice : ∃ s, coalescing.exec {} [recordRefused 1, recordRefused 2] = some s ∧
    total s.submitted = 1 ∧ suppressedTotal s.windows.rows = 2 ∧
    total s.submitted + suppressedTotal s.windows.rows = total s.recorded := by
  obtain ⟨s, hs, htest⟩ := Sys.exists_exec (M := coalescing) {} [recordRefused 1, recordRefused 2]
    (fun s => decide (total s.submitted = 1 ∧ suppressedTotal s.windows.rows = 2)) (by decide +kernel)
  have hreach : Sys.Reach coalescing Fits s := Sys.reach_of_exec (.init rfl)
    (Sys.along_of_meets fitsTest (fun _ _ => fits_of_test) (by decide +kernel)) hs
  have hcounts := of_decide_eq_true htest
  exact ⟨s, hs, hcounts.1, hcounts.2, (coalescing_conserves hreach).1⟩

/-- The counter of a window overflows: two events of the greatest count after the first refusal. -/
theorem suppressed_overflows : ∃ s, coalescing.exec {}
      [recordRefused 1, recordRefused Go.maxInt64, recordRefused Go.maxInt64] = some s ∧
    suppressedTotal s.windows.rows = -2 ∧
    total s.submitted + suppressedTotal s.windows.rows ≠ total s.recorded := by
  obtain ⟨s, hs, htest⟩ := Sys.exists_exec (M := coalescing) {}
    [recordRefused 1, recordRefused Go.maxInt64, recordRefused Go.maxInt64]
    (fun s => decide (suppressedTotal s.windows.rows = -2 ∧
      total s.submitted + suppressedTotal s.windows.rows ≠ total s.recorded)) (by decide +kernel)
  exact ⟨s, hs, of_decide_eq_true htest⟩

end MongoRescue.AuditLog.Proof
