import MongoRescue.AuditLog.Proof.Chain

/-!
# Verifying beside writers

`Verify` reads the anchor and each batch in transactions of their own, so entries are appended and
pruned between them. Everything that was ever appended is one chain (`Sound`), and the walk stands
somewhere on it (`Stands`). A batch continues from there as long as the anchor has not moved past the
place where the walk stands (`read_batch`). When it has, `Verify` can report entries as missing that
retention removed; `pruned_entries_reported` is such a run.
-/

namespace MongoRescue.AuditLog.Proof

open Go (Bytes)
open HashChain (headNumber headHash chained_append)

variable {sha256 : Bytes → Bytes}

/-- Where a walk stands that has checked everything up to the first `n` of the entries `all`. -/
structure Stands (all : List Event) (n : Nat) (w : Walk) : Prop where
  between : Between w
  le : n ≤ all.length
  headID : w.v.headID = n
  headHash : w.v.headHash = headHash Event.hash genesisHash (all.take n)

theorem after_eq {removed : List Event} {log : Log} (h : Sound sha256 removed log) {n : Nat}
    (hn : removed.length ≤ n) :
    (log.after n).map readRow = (removed ++ log.rows.map readRow).drop n := by
  obtain ⟨j, rfl⟩ : ∃ j, n = removed.length + j := ⟨n - removed.length, by omega⟩
  have hkept := h.kept
  rw [h.lastID_eq, ← List.take_append_drop j log.rows, List.map_append] at hkept
  obtain ⟨htake, hdrop⟩ := chained_append.mp hkept
  have hhead := htake.headNumber_eq
  rw [List.length_map, List.length_take] at hhead
  have hfilter : log.after (removed.length + j : Nat) = log.rows.drop j := by
    unfold Log.after
    conv => lhs; rw [← List.take_append_drop j log.rows]
    rw [List.filter_append, List.filter_eq_nil_iff.mpr, List.filter_eq_self.mpr, List.nil_append]
    · intro r hr
      have hlt : _ < (readRow r).id := hdrop.lt_of_mem (List.mem_map_of_mem hr)
      have hj : j < log.rows.length := by
        have := List.length_pos_of_mem hr
        rw [List.length_drop] at this
        omega
      have hid : (readRow r).id = r.id := rfl
      simp only [Bool.or_eq_true, decide_eq_true_eq]
      omega
    · intro r hr
      have hpos := htake.lt_of_mem (List.mem_map_of_mem hr)
      have hle := htake.le_headNumber (List.mem_map_of_mem hr)
      have hid : (readRow r).id = r.id := rfl
      have hj : 0 < j := by
        rcases Nat.eq_zero_or_pos j with rfl | hj
        · cases hr
        · exact hj
      simp only [Bool.or_eq_true, decide_eq_true_eq]
      omega
  rw [hfilter, List.drop_length_add_append, List.map_drop]

/-- What follows the first `n` entries of a chain is chained to them. -/
theorem chained_drop {all : List Event} (h : Chained sha256 0 genesisHash all) {n : Nat}
    (hn : n ≤ all.length) :
    Chained sha256 n (headHash Event.hash genesisHash (all.take n)) (all.drop n) := by
  rw [← List.take_append_drop n all] at h
  obtain ⟨htake, hdrop⟩ := chained_append.mp h
  rw [htake.headNumber_eq, List.length_take, Nat.min_eq_left hn, Int.zero_add] at hdrop
  exact hdrop

theorem step_empty {log : Log} {w : Walk} (hw : Between w) (h : log.rows = []) :
    Walk.step sha256 log w = .inr { w.v with ok := true } := by
  have hbatch : log.batch w.afterID = [] := by simp [Log.batch, Log.after, h]
  simp [Walk.step, hbatch, Walk.checkAll, hw.broken, walkBatch]

/-- **A batch goes on from where the walk stands**, if the anchor has not moved past it or no entry is
left. -/
theorem read_batch {removed : List Event} {log : Log} (h : Sound sha256 removed log) {n : Nat} {w : Walk}
    (hw : Stands (removed ++ log.rows.map readRow) n w)
    (hcond : log.anchor.lastID ≤ w.v.headID ∨ log.rows = []) :
    (∃ w', Walk.step sha256 log w = .inl w' ∧
        ∃ n', Stands (removed ++ log.rows.map readRow) n' w') ∨
      ∃ v, Walk.step sha256 log w = .inr v ∧ v.broken = none := by
  rcases hcond with hle | hnil
  · rw [h.lastID_eq, hw.headID] at hle
    have hafter := after_eq h (show removed.length ≤ n by omega)
    have hrest := chained_drop h.chained hw.le
    generalize removed ++ log.rows.map readRow = all at *
    have hbatch : log.batch w.afterID = (all.drop n).take walkBatch := by
      rw [Log.batch, hw.between.afterID, hw.headID, List.map_take, hafter]
    have hc : Chained sha256 w.v.headID w.v.headHash ((all.drop n).take walkBatch) := by
      rw [hw.headID, hw.headHash]
      rw [← List.take_append_drop walkBatch (all.drop n)] at hrest
      exact (chained_append.mp hrest).1
    unfold Walk.step
    simp only [hbatch]
    rw [checkAll_chained hc, if_neg (by simp [advanced, hw.between.broken])]
    by_cases hlen : ((all.drop n).take walkBatch).length < walkBatch
    · rw [if_pos hlen]
      exact .inr ⟨_, rfl, hw.between.broken⟩
    · rw [if_neg hlen, getLast_id, hw.between.afterID]
      have hhead := hc.headNumber_eq
      rw [List.length_take, List.length_drop] at hlen hhead
      refine .inl ⟨_, rfl, n + walkBatch, ⟨rfl, ?_, hw.between.broken⟩, ?_, ?_, ?_⟩
      · have := hw.between.nonneg
        simp only [advanced]
        omega
      · have hpos : 0 < walkBatch := by decide
        omega
      · have := hw.headID
        simp only [advanced]
        omega
      · simp only [advanced]
        rw [hw.headHash, ← HashChain.headHash_append, List.take_add]
  · exact .inr ⟨_, step_empty hw.between hnil, hw.between.broken⟩

/-! ## Runs -/

/-- The condition on a step: an entry that is appended has a time that can be stored, and where a batch
is read, the anchor has not moved past the last entry that the walk has checked, or no entry is left. -/
def Undisturbed (s : Beside) : BesideEvent → Prop
  | .write tx => Tx.Storable tx
  | .start _ _ => True
  | .read => ∀ w, s.phase = .walking w → s.log.anchor.lastID ≤ w.v.headID ∨ s.log.rows = []

/-- What the phases of `Verify` have to do with the entries that were appended so far. -/
def PhaseOk (all : List Event) : Phase → Prop
  | .idle => True
  | .walking w => ∃ n, Stands all n w
  | .done v => v.broken = none

theorem PhaseOk.append {all : List Event} {p : Phase} (h : PhaseOk all p) (more : List Event) :
    PhaseOk (all ++ more) p := by
  cases p with
  | idle => trivial
  | walking w =>
    obtain ⟨n, hn⟩ := h
    refine ⟨n, hn.between, ?_, hn.headID, ?_⟩
    · have := hn.le
      rw [List.length_append]
      omega
    · rw [List.take_append_of_le_length hn.le]
      exact hn.headHash
  | done v => exact h

/-- The log is sound, and `Verify` has found nothing broken. -/
def Inv (sha256 : Bytes → Bytes) (s : Beside) : Prop :=
  ∃ removed, Sound sha256 removed s.log ∧ PhaseOk (removed ++ s.log.rows.map readRow) s.phase

theorem Inv.write {s : Beside} (h : Inv sha256 s) {tx : Tx} (htx : Tx.Storable tx) :
    Inv sha256 { s with log := s.log.exec sha256 tx } := by
  obtain ⟨removed, hsound, hphase⟩ := h
  cases tx with
  | append e =>
    refine ⟨removed, hsound.append (normalize_normal e) htx, ?_⟩
    simp only [Log.exec, Log.append, List.map_append, ← List.append_assoc]
    exact hphase.append _
  | prune cutoff now =>
    obtain ⟨removed', hsound', hsame⟩ := hsound.prune cutoff now
    refine ⟨removed', hsound', ?_⟩
    simp only [Log.exec]
    rw [hsame]
    exact hphase

theorem Inv.start {s : Beside} (h : Inv sha256 s) (now days : Int) :
    Inv sha256 { s with phase := .walking (Walk.start s.log now days) } := by
  obtain ⟨removed, hsound, -⟩ := h
  have hid := hsound.lastID_eq
  refine ⟨removed, hsound, removed.length, ⟨rfl, ?_, rfl⟩, by simp, hid, ?_⟩
  · simp only [Walk.start]
    omega
  · rw [List.take_left]
    exact hsound.lastHash

theorem Inv.step {s s' : Beside} {ev : BesideEvent} (h : Inv sha256 s) (hok : Undisturbed s ev)
    (hst : s.step sha256 ev = some s') : Inv sha256 s' := by
  cases ev with
  | write tx =>
    cases hst
    exact h.write hok
  | start now days =>
    obtain ⟨log, phase⟩ := s
    cases phase with
    | idle =>
      cases hst
      exact h.start now days
    | walking w => cases hst
    | done v => cases hst
  | read =>
    obtain ⟨log, phase⟩ := s
    cases phase with
    | idle => cases hst
    | done v => cases hst
    | walking w =>
      obtain ⟨removed, hsound, n, hw⟩ := h
      simp only [Beside.step] at hst
      rcases read_batch hsound hw (hok w rfl) with ⟨w', hstep, hw'⟩ | ⟨v, hstep, hv⟩
      · rw [hstep] at hst
        cases hst
        exact ⟨removed, hsound, hw'⟩
      · rw [hstep] at hst
        cases hst
        exact ⟨removed, hsound, hv⟩

/-- **`Verify` reports no broken entry in any run in which retention does not overtake it**, and in which
the times of the entries can be stored. -/
theorem no_false_alarm {s : Beside} (h : (beside sha256).Reach Undisturbed s) {v : Verification}
    (hdone : s.phase = .done v) : v.broken = none := by
  have hinv : Inv sha256 s := by
    refine h.inv ?_ fun s ev s' hs hok hst => hs.step hok hst
    rintro s rfl
    exact ⟨[], sound_initial, trivial⟩
  obtain ⟨removed, -, hphase⟩ := hinv
  rw [hdone] at hphase
  exact hphase

/-- Two entries, of which a prune at time 5 expires the first. -/
def twoEntries : List BesideEvent :=
  [.write (.append { time := 0 }), .write (.append { time := 10 }), .start 20 365]

/-- A checksum of the bytes, for runs that check an entry. -/
def checksum (b : Bytes) : Bytes := [b.foldl (fun h c => 31 * h + c) 7]

/-- The number of entries a finished run has checked. -/
def checkedBy (s : Beside) : Option Int :=
  match s.phase with
  | .done v => some v.checked
  | _ => none

theorem no_false_alarm_beside_append : ∃ (s : Beside) (v : Verification),
      (beside checksum).Reach Undisturbed s ∧ s.phase = .done v ∧ v.checked = 3 ∧ v.broken = none := by
  have hchecked : ((beside checksum).exec ⟨Log.initial, .idle⟩
      (twoEntries ++ [.write (.append { time := 30 }), .read])).bind checkedBy = some 3 := by
    decide +kernel
  have hrun : (beside checksum).Along Undisturbed ⟨Log.initial, .idle⟩
      (twoEntries ++ [.write (.append { time := 30 }), .read]) := by
    refine ⟨⟨by decide, by decide⟩, fun _ h => ?_⟩
    cases h
    refine ⟨⟨by decide, by decide⟩, fun _ h => ?_⟩
    cases h
    refine ⟨trivial, fun _ h => ?_⟩
    cases h
    refine ⟨⟨by decide, by decide⟩, fun _ h => ?_⟩
    cases h
    refine ⟨?_, fun _ _ => trivial⟩
    rintro w ⟨rfl⟩
    exact .inl (by decide)
  obtain ⟨s, hs, hdone⟩ := Option.bind_eq_some_iff.mp hchecked
  have hreach := Trans.Sys.reach_of_exec (.init rfl) hrun hs
  unfold checkedBy at hdone
  split at hdone
  next v hphase => exact ⟨s, v, hreach, hphase, Option.some.inj hdone, no_false_alarm hreach hphase⟩
  next => cases hdone

/-- **Entries that retention removed are reported as missing**: the first of two entries is pruned after
`Verify` has read the anchor, and the second does not follow the anchor that it read. -/
theorem pruned_entries_reported : ∃ (s : Beside) (v : Verification),
    (beside id).exec ⟨Log.initial, .idle⟩ (twoEntries ++ [.write (.prune 5 20), .read]) = some s ∧
      s.phase = .done v ∧ v.ok = false ∧ v.broken = some (2, .missing 2 0) :=
  ⟨_, _, rfl, rfl, rfl, rfl⟩

end MongoRescue.AuditLog.Proof
