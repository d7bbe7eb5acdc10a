import MongoRescue.AuditLog.Proof.Canonical
import MongoRescue.Lib.HashChain

/-!
# Verifying the stored chain

`Verify` of a log at rest reports OK exactly if the entries after the anchor are chained to it, with
their number and the end of the chain (`verify_spec`). Appending and pruning keep the log chained to
its anchor (`Sound.append`, `Sound.prune`), as long as the times of the entries can be stored; and a
chain from the same anchor to the same head is the same chain (`sound_unique`).
-/

namespace MongoRescue.AuditLog.Proof

open Go (Bytes utf8)
open HashChain (headNumber headHash chained_append)

variable {sha256 : Bytes → Bytes}

/-- The entries are chained to the one with ID `n` and hash `h`. -/
abbrev Chained (sha256 : Bytes → Bytes) (n : Int) (h : Bytes) (es : List Event) : Prop :=
  HashChain.Chained Event.id Event.hash (chainHash sha256) n h es

/-- The entries that `Verify` has to check. -/
def entries (log : Log) : List Event := (log.after log.anchor.lastID).map readRow

/-! ## One batch -/

variable {es removed : List Event} {log : Log}

theorem check_eq_none {n : Int} {h : Bytes} {e : Event} :
    check sha256 n h e = none ↔ e.id = n + 1 ∧ e.hash = chainHash sha256 h e := by
  unfold check
  by_cases hid : e.id = n + 1
  · by_cases hh : chainHash sha256 h e = e.hash
    · simp [hid, hh]
    · simp [hid, hh, Ne.symm hh]
  · simp [hid]

/-- The result of a batch that is chained to the head. -/
def advanced (v : Verification) (es : List Event) : Verification :=
  { v with checked := v.checked + es.length, headID := headNumber Event.id v.headID es,
           headHash := headHash Event.hash v.headHash es }

theorem checkAll_chained {v : Verification} (h : Chained sha256 v.headID v.headHash es) :
    Walk.checkAll sha256 v es = advanced v es := by
  induction es generalizing v with
  | nil => simp [Walk.checkAll, advanced]
  | cons e es ih =>
    obtain ⟨hid, hhash, hrest⟩ := h
    have hcheck := check_eq_none.mpr ⟨hid, hhash⟩
    rw [Walk.checkAll, hcheck]
    dsimp only
    rw [ih hrest]
    simp only [advanced, HashChain.headNumber_cons, HashChain.headHash_cons, List.length_cons,
      Verification.mk.injEq, and_true, true_and]
    omega

theorem checkAll_broken {v : Verification} (h : ¬ Chained sha256 v.headID v.headHash es) :
    (Walk.checkAll sha256 v es).broken.isSome ∧ (Walk.checkAll sha256 v es).ok = v.ok := by
  induction es generalizing v with
  | nil => exact absurd trivial h
  | cons e es ih =>
    unfold Walk.checkAll
    cases hc : check sha256 v.headID v.headHash e with
    | some reason => exact ⟨rfl, rfl⟩
    | none =>
      obtain ⟨hid, hhash⟩ := check_eq_none.mp hc
      dsimp only
      exact ih fun hrest => h ⟨hid, hhash, hrest⟩

/-! ## The batches of a log at rest -/

theorem after_sorted (log : Log) (n : Int) :
    (log.after n).Pairwise fun r s => r.id < s.id := log.ordered.filter _

theorem getLast_id (n : Int) (es : List Event) :
    (es.getLast?.map Event.id).getD n = headNumber Event.id n es := by
  induction es generalizing n with
  | nil => rfl
  | cons e es ih =>
    rw [HashChain.headNumber_cons, ← ih]
    cases es with
    | nil => rfl
    | cons f es =>
      simp only [List.getLast?_cons_cons]
      rw [List.getLast?_eq_some_getLast (by simp)]
      rfl

/-- After a batch that is chained to the head, the next batches are those of the rest. -/
theorem after_drop {n : Int} {h : Bytes} {k : Nat} (hn : 0 ≤ n) (hpos : ((log.after n).take k) ≠ [])
    (hc : Chained sha256 n h (((log.after n).take k).map readRow)) :
    log.after (headNumber Event.id n (((log.after n).take k).map readRow)) =
      (log.after n).drop k := by
  have hlast := hc.headNumber_eq
  rw [List.length_map] at hlast
  have hlen := List.length_pos_iff.mpr hpos
  generalize hm : headNumber Event.id n (((log.after n).take k).map readRow) = m at hlast ⊢
  have hsorted := after_sorted log n
  rw [← List.take_append_drop k (log.after n), List.pairwise_append] at hsorted
  -- the rows after m are among those after n
  have hfilter : log.after m = (log.after n).filter fun r => decide (m < r.id) := by
    unfold Log.after
    rw [List.filter_filter]
    refine List.filter_congr fun r _ => ?_
    have h0 : ¬ m ≤ 0 := by omega
    by_cases hr : m < r.id
    · have : n < r.id := by omega
      simp [hr, this]
    · simp [hr, h0]
  have htake : ((log.after n).take k).filter (fun r => decide (m < r.id)) = [] := by
    refine List.filter_eq_nil_iff.mpr fun r hr => ?_
    have hle := hc.le_headNumber (List.mem_map_of_mem hr)
    rw [hm] at hle
    simpa using (show r.id ≤ m from hle)
  have hdrop : ((log.after n).drop k).filter (fun r => decide (m < r.id)) = (log.after n).drop k := by
    refine List.filter_eq_self.mpr fun r hr => ?_
    obtain ⟨e, he, hem⟩ := HashChain.exists_headNumber Event.id n
      (show ((log.after n).take k).map readRow ≠ [] by simpa using hpos)
    obtain ⟨s, hs, rfl⟩ := List.mem_map.mp he
    have hlt := hsorted.2.2 s hs r hr
    have hsm : s.id = m := hem.trans hm
    simpa [← hsm] using hlt
  rw [hfilter]
  conv => lhs; rw [← List.take_append_drop k (log.after n)]
  rw [List.filter_append, htake, hdrop, List.nil_append]

/-- A walk between two batches: nothing was broken so far, and the next batch starts at its head. -/
structure Between (w : Walk) : Prop where
  afterID : w.afterID = w.v.headID
  nonneg : 0 ≤ w.v.headID
  broken : w.v.broken = none

/-- **What the remaining batches of a log at rest report.** -/
theorem loop_spec {w : Walk} {fuel : Nat} (hw : Between w)
    (hfuel : (log.after w.v.headID).length < fuel) : ∃ v, Walk.loop sha256 log fuel w = some v ∧
      (Chained sha256 w.v.headID w.v.headHash ((log.after w.v.headID).map readRow) ∧
          v = { advanced w.v ((log.after w.v.headID).map readRow) with ok := true } ∨
        ¬ Chained sha256 w.v.headID w.v.headHash ((log.after w.v.headID).map readRow) ∧
          v.ok = w.v.ok ∧ v.broken.isSome) := by
  induction fuel generalizing w with
  | zero => omega
  | succ fuel ih =>
    have hsplit : (log.after w.v.headID).map readRow =
        ((log.after w.v.headID).take walkBatch).map readRow ++
          ((log.after w.v.headID).drop walkBatch).map readRow := by
      rw [← List.map_append, List.take_append_drop]
    rw [Walk.loop, Walk.step, Log.batch, hw.afterID]
    by_cases hc : Chained sha256 w.v.headID w.v.headHash
        (((log.after w.v.headID).take walkBatch).map readRow)
    · rw [checkAll_chained hc]
      dsimp only
      rw [if_neg (by simp [advanced, hw.broken])]
      by_cases hlen : (log.after w.v.headID).length < walkBatch
      · rw [if_pos (by simp; omega)]
        have htake := List.take_of_length_le (Nat.le_of_lt hlen)
        rw [htake] at hc ⊢
        exact ⟨_, rfl, .inl ⟨hc, rfl⟩⟩
      · rw [if_neg (by simp; omega), getLast_id]
        have hne : (log.after w.v.headID).take walkBatch ≠ [] := by
          intro h0
          have := congrArg List.length h0
          rw [List.length_take, List.length_nil] at this
          unfold walkBatch at *
          omega
        have hdrop := after_drop hw.nonneg hne hc
        have hhead := hc.headNumber_eq
        have hw' : Between ⟨advanced w.v (((log.after w.v.headID).take walkBatch).map readRow),
            headNumber Event.id w.v.headID (((log.after w.v.headID).take walkBatch).map readRow)⟩ :=
          ⟨rfl, by have := hw.nonneg; simp only [advanced]; omega, hw.broken⟩
        have hrest := ih hw' (by
          simp only [advanced]
          rw [hdrop, List.length_drop]
          unfold walkBatch at *
          omega)
        simp only [advanced] at hrest
        rw [hdrop] at hrest
        obtain ⟨v, hloop, hv⟩ := hrest
        refine ⟨v, hloop, hv.imp ?_ ?_⟩
        · rintro ⟨hrest, rfl⟩
          rw [hsplit]
          refine ⟨chained_append.mpr ⟨hc, hrest⟩, ?_⟩
          simp only [advanced, HashChain.headNumber_append, HashChain.headHash_append,
            List.length_append, Verification.mk.injEq, and_true, true_and]
          omega
        · rintro ⟨hrest, hv⟩
          refine ⟨fun hall => hrest ?_, hv⟩
          rw [hsplit] at hall
          exact (chained_append.mp hall).2
    · obtain ⟨hb, hok⟩ := checkAll_broken hc
      dsimp only
      rw [if_pos hb]
      refine ⟨_, rfl, .inr ⟨fun hall => hc ?_, hok, hb⟩⟩
      rw [hsplit] at hall
      exact (chained_append.mp hall).1

/-- **`Verify` of a log at rest reports OK exactly if the entries after the anchor are chained to it**,
with how many they are and with the end of the chain. -/
theorem verify_spec (log : Log) (now days : Int) (h0 : 0 ≤ log.anchor.lastID) :
    ∃ v, verify sha256 log now days = some v ∧
      (Chained sha256 log.anchor.lastID log.anchor.lastHash (entries log) ∧ v.ok = true ∧
          v.broken = none ∧ v.checked = (entries log).length ∧
          v.headID = headNumber Event.id log.anchor.lastID (entries log) ∧
          v.headHash = headHash Event.hash log.anchor.lastHash (entries log) ∨
        ¬ Chained sha256 log.anchor.lastID log.anchor.lastHash (entries log) ∧ v.ok = false ∧
          v.broken.isSome) := by
  have hw : Between (Walk.start log now days) := ⟨rfl, h0, rfl⟩
  have hfuel : (log.after (Walk.start log now days).v.headID).length < log.rows.length + 1 :=
    Nat.lt_succ_of_le (List.length_filter_le _ _)
  obtain ⟨v, hv, hres⟩ := @loop_spec sha256 log _ _ hw hfuel
  refine ⟨v, hv, hres.imp ?_ ?_⟩
  · rintro ⟨hc, rfl⟩
    exact ⟨hc, rfl, rfl, by simp [advanced, entries, Walk.start], rfl, rfl⟩
  · rintro ⟨hc, hok, hb⟩
    exact ⟨hc, hok, hb⟩

/-! ## Logs that only transactions wrote -/

/-- Retention has removed the entries `removed`, the rows are the normalised entries that followed
them, and the anchor is the end of what was removed. -/
structure Sound (sha256 : Bytes → Bytes) (removed : List Event) (log : Log) : Prop where
  normal : ∀ r ∈ log.rows, Normal (readRow r)
  chained : Chained sha256 0 genesisHash (removed ++ log.rows.map readRow)
  lastID : log.anchor.lastID = headNumber Event.id 0 removed
  lastHash : log.anchor.lastHash = headHash Event.hash genesisHash removed

theorem genesisHash_text : HashText genesisHash := by
  refine ⟨List.replicate 64 '0', rfl, ?_⟩
  simp

theorem sound_initial : Sound sha256 [] Log.initial where
  normal := fun _ h => (by cases h)
  chained := trivial
  lastID := rfl
  lastHash := rfl

namespace Sound

variable {removed : List Event} {log : Log}

theorem kept (h : Sound sha256 removed log) :
    Chained sha256 log.anchor.lastID log.anchor.lastHash (log.rows.map readRow) := by
  rw [h.lastID, h.lastHash]
  exact (chained_append.mp h.chained).2

theorem lastID_eq (h : Sound sha256 removed log) : log.anchor.lastID = removed.length := by
  rw [h.lastID, (chained_append.mp h.chained).1.headNumber_eq, Int.zero_add]

theorem anchorHash (h : Sound sha256 removed log) : HashText log.anchor.lastHash := by
  rw [h.lastHash]
  exact (chained_append.mp h.chained).1.headHash_property (chainHash_hashText sha256) genesisHash_text

theorem entries_eq (h : Sound sha256 removed log) : entries log = log.rows.map readRow := by
  rw [entries, Log.after, List.filter_eq_self.mpr]
  intro r hr
  have hlt : log.anchor.lastID < (readRow r).id := h.kept.lt_of_mem (List.mem_map_of_mem hr)
  simp [show log.anchor.lastID < r.id from hlt]

end Sound

/-- What `append` reads is the end of the chain. -/
theorem newest_eq (rows : List Row) (anchor : Anchor) : Log.newest rows anchor =
    (headNumber Event.id anchor.lastID (rows.map readRow),
      headHash Event.hash anchor.lastHash (rows.map readRow)) := by
  rcases List.eq_nil_or_concat rows with rfl | ⟨init, last, rfl⟩
  · rfl
  · simp [Log.newest, readRow]

theorem normal_chainTo {e : Event} (he : Normal e) (prev : Int × Bytes) :
    Normal (Log.chainTo sha256 prev e) :=
  ⟨he.actorKind, he.actorUserID, he.actorName, he.actorKeyID, he.actorKeyName, he.action, he.targets,
    he.outcome, he.clientIP, he.userAgent⟩

theorem chainTo_chained (sha256 : Bytes → Bytes) (prev : Int × Bytes) (e : Event) :
    Chained sha256 prev.1 prev.2 [Log.chainTo sha256 prev e] :=
  ⟨rfl, rfl, trivial⟩

namespace Sound

variable {removed : List Event} {log : Log}

theorem append (h : Sound sha256 removed log) {e : Event} (he : Normal e) (ht : Storable e.time) :
    Sound sha256 removed (log.append sha256 e) := by
  have hnext := @normal_chainTo sha256 e he (Log.newest log.rows log.anchor)
  have hread := readRow_rowOf hnext ht
  refine ⟨fun r hr => ?_, ?_, h.lastID, h.lastHash⟩
  · rcases List.mem_append.mp hr with hr | hr
    · exact h.normal r hr
    · rw [List.mem_singleton.mp hr, hread]
      exact hnext
  · rw [Log.append, List.map_append, List.map_singleton, hread, ← List.append_assoc]
    have hlast := chainTo_chained sha256 (Log.newest log.rows log.anchor) e
    rw [congrArg Prod.fst (newest_eq log.rows log.anchor),
      congrArg Prod.snd (newest_eq log.rows log.anchor), h.lastID, h.lastHash,
      ← HashChain.headNumber_append, ← HashChain.headHash_append] at hlast
    exact chained_append.mpr ⟨h.chained, hlast⟩

end Sound

/-- What `prune` removes is a part of the rows up to some entry, which becomes the anchor. -/
theorem prune_cases (log : Log) (cutoff now : Int) :
    log.prune cutoff now = log ∨ ∃ (init rest : List Row) (last : Row),
      log.rows = init ++ last :: rest ∧ (log.prune cutoff now).rows = rest ∧
      (log.prune cutoff now).anchor.lastID = last.id ∧
      (log.prune cutoff now).anchor.lastHash = last.hash := by
  unfold Log.prune
  cases hx : log.expired cutoff with
  | none => exact .inl rfl
  | some last =>
    have hmem : last ∈ log.rows := (List.mem_filter.mp (List.mem_of_getLast? hx)).1
    obtain ⟨init, rest, hrows⟩ := List.append_of_mem hmem
    have hsorted := log.ordered
    rw [hrows, List.pairwise_append, List.pairwise_cons] at hsorted
    refine .inr ⟨init, rest, last, hrows, ?_, rfl, rfl⟩
    dsimp only
    rw [hrows, List.filter_append, List.filter_cons_of_neg (by simp), List.filter_eq_nil_iff.mpr,
      List.filter_eq_self.mpr, List.nil_append]
    · intro r hr
      simpa using hsorted.2.1.1 r hr
    · intro r hr
      have := hsorted.2.2 r hr last List.mem_cons_self
      simp only [decide_eq_true_eq]
      omega

/-- Pruning moves entries from the rows to those that were removed. -/
theorem Sound.prune (h : Sound sha256 removed log) (cutoff now : Int) :
    ∃ removed', Sound sha256 removed' (log.prune cutoff now) ∧
      removed' ++ (log.prune cutoff now).rows.map readRow = removed ++ log.rows.map readRow := by
  rcases prune_cases log cutoff now with heq | ⟨init, rest, last, hrows, hrest, hid, hhash⟩
  · exact ⟨removed, by rw [heq]; exact h, by rw [heq]⟩
  · have hsame : removed ++ (init ++ [last]).map readRow ++ rest.map readRow =
        removed ++ log.rows.map readRow := by
      rw [hrows, List.append_assoc, ← List.map_append, List.append_assoc, List.singleton_append]
    refine ⟨removed ++ (init ++ [last]).map readRow, ⟨fun r hr => h.normal r ?_, ?_, ?_, ?_⟩, ?_⟩
    · rw [hrest] at hr
      rw [hrows]
      simp [hr]
    · rw [hrest, hsame]
      exact h.chained
    · rw [hid]
      simp [readRow]
    · rw [hhash]
      simp [readRow]
    · rw [hrest, hsame]

/-- A transaction that writes no entry with a time outside of what can be stored. -/
def Tx.Storable : Tx → Prop
  | .append e => Proof.Storable e.time
  | .prune _ _ => True

theorem Sound.exec (h : Sound sha256 removed log) {tx : Tx} (htx : Tx.Storable tx) :
    ∃ removed', Sound sha256 removed' (log.exec sha256 tx) := by
  cases tx with
  | append e => exact ⟨removed, h.append (normalize_normal e) htx⟩
  | prune cutoff now =>
    obtain ⟨removed', h', -⟩ := h.prune cutoff now
    exact ⟨removed', h'⟩

theorem sound_run {txs : List Tx} (htxs : ∀ tx ∈ txs, Tx.Storable tx) (h : Sound sha256 removed log) :
    ∃ removed', Sound sha256 removed' (txs.foldl (Log.exec sha256) log) := by
  induction txs generalizing removed log with
  | nil => exact ⟨removed, h⟩
  | cons tx txs ih =>
    obtain ⟨removed', h'⟩ := h.exec (htxs tx List.mem_cons_self)
    exact ih (fun t ht => htxs t (List.mem_cons_of_mem _ ht)) h'

theorem sound_history {txs : List Tx} (htxs : ∀ tx ∈ txs, Tx.Storable tx) :
    ∃ removed, Sound sha256 removed (Log.history sha256 txs) :=
  sound_run htxs sound_initial

/-- **A chain from the anchor of a sound log to its head is the chain of the log.** -/
theorem sound_unique (hsha : ∀ x y, sha256 x = sha256 y → x = y) (h : Sound sha256 removed log)
    (hes : Chained sha256 log.anchor.lastID log.anchor.lastHash es)
    (hid : headNumber Event.id log.anchor.lastID (entries log) =
      headNumber Event.id log.anchor.lastID es)
    (hhash : headHash Event.hash log.anchor.lastHash (entries log) =
      headHash Event.hash log.anchor.lastHash es) : entries log = es := by
  have hnormal : ∀ e ∈ entries log, Normal e := by
    rw [h.entries_eq]
    intro e he
    obtain ⟨r, hr, rfl⟩ := List.mem_map.mp he
    exact h.normal r hr
  have hc := h.kept
  rw [← h.entries_eq] at hc
  exact hc.unique (fun p e => chainHash_hashText sha256 p e)
    (fun he hp hp' hlink hh => chainHash_inj hsha he hp hp' hlink hh) h.anchorHash hnormal hes hid hhash

/-- **After any history whose entries have times that can be stored, the chain verifies, with every
stored entry checked; and where SHA-256 has no collisions, no log with the same anchor and other entries
verifies with the same head.** -/
theorem verifies_and_exposes {txs : List Tx} (htxs : ∀ tx ∈ txs, Tx.Storable tx) (now days : Int) :
    ∃ v, verify sha256 (Log.history sha256 txs) now days = some v ∧ v.ok = true ∧ v.broken = none ∧
      v.checked = (Log.history sha256 txs).rows.length ∧
      ((∀ x y, sha256 x = sha256 y → x = y) → ∀ (log' : Log) (now' days' : Int),
        log'.anchor = (Log.history sha256 txs).anchor →
        entries log' ≠ (Log.history sha256 txs).rows.map readRow →
        ∃ v', verify sha256 log' now' days' = some v' ∧
          ¬ (v'.ok = true ∧ v'.headID = v.headID ∧ v'.headHash = v.headHash)) := by
  obtain ⟨removed, h⟩ := @sound_history sha256 txs htxs
  generalize Log.history sha256 txs = log at h ⊢
  have h0 : 0 ≤ log.anchor.lastID := by
    rw [h.lastID_eq]
    exact Int.natCast_nonneg _
  obtain ⟨v, hv, hres⟩ := @verify_spec sha256 log now days h0
  have hc := h.kept
  rw [← h.entries_eq] at hc ⊢
  rcases hres with ⟨-, hok, hbroken, hchecked, hid, hhash⟩ | ⟨hnot, -⟩
  · refine ⟨v, hv, hok, hbroken, ?_, ?_⟩
    · rw [hchecked, h.entries_eq, List.length_map]
    · intro hsha log' now' days' hanchor hne
      obtain ⟨v', hv', hres'⟩ := @verify_spec sha256 log' now' days' (by rw [hanchor]; exact h0)
      refine ⟨v', hv', ?_⟩
      rintro ⟨hok', hid', hhash'⟩
      rcases hres' with ⟨hc', -, -, -, hid₁, hhash₁⟩ | ⟨-, hok₁, -⟩
      · rw [hanchor] at hc' hid₁ hhash₁
        refine hne (sound_unique hsha h hc' ?_ ?_).symm
        · rw [← hid, ← hid₁, hid']
        · rw [← hhash, ← hhash₁, hhash']
      · rw [hok₁] at hok'
        cases hok'
  · exact absurd hc hnot

/-- Four entries, of which retention has removed the first. -/
def prunedTxs : List Tx := [0, 10, 20, 30].map (fun t => .append { time := t }) ++ [.prune 5 40]

/-- A log with its second row removed. -/
def withoutSecond (log : Log) : Log :=
  { log with
    rows := log.rows.eraseIdx 1
    ordered := log.ordered.sublist (List.eraseIdx_sublist _ _) }

/-- The theorem at a pruned log of three rows, against the one without the middle row. -/
theorem removed_entry_exposed : (Log.history id prunedTxs).rows.map (·.id) = [2, 3, 4] ∧
      ∃ v, verify id (Log.history id prunedTxs) 0 365 = some v ∧ v.ok = true ∧
        ∃ v', verify id (withoutSecond (Log.history id prunedTxs)) 0 365 = some v' ∧
          ¬ (v'.ok = true ∧ v'.headID = v.headID ∧ v'.headHash = v.headHash) := by
  have htxs : ∀ tx ∈ prunedTxs, Tx.Storable tx := by
    simp [prunedTxs, Tx.Storable, Storable, Go.minInt64, Go.maxInt64]
  refine ⟨by decide +kernel, ?_⟩
  obtain ⟨v, hv, hok, -, -, htamper⟩ := @verifies_and_exposes id _ htxs 0 365
  refine ⟨v, hv, hok, htamper (fun _ _ h => h) _ 0 365 rfl ?_⟩
  intro hsame
  exact absurd (congrArg List.length hsame) (by decide +kernel)

/-- An entry recorded in the first nanosecond that does not fit into an `int64`. -/
def lateEntry : Event := { time := Go.maxInt64 + 1 }

/-- An entry recorded too late to be stored breaks the chain: it is hashed with its own time, and read
back with the last one that can be stored. -/
theorem late_entry_reported (hsha : ∀ x y, sha256 x = sha256 y → x = y) :
    ∃ v, verify sha256 (Log.history sha256 [.append lateEntry]) 0 365 = some v ∧ v.ok = false ∧
      v.broken.isSome := by
  obtain ⟨v, hv, hres⟩ := @verify_spec sha256 (Log.history sha256 [.append lateEntry]) 0 365
    (Int.le_refl 0)
  refine ⟨v, hv, hres.elim (fun h => absurd h.1 ?_) fun h => h.2⟩
  have hentries : entries (Log.history sha256 [.append lateEntry]) =
      [readRow (rowOf (Log.chainTo sha256 (0, genesisHash) (normalize lateEntry)))] := rfl
  rw [hentries]
  rintro ⟨-, hhash, -⟩
  have hnormal := @normal_chainTo sha256 _ (normalize_normal lateEntry) (0, genesisHash)
  have hown := (chainTo_chained sha256 (0, genesisHash) (normalize lateEntry)).2.1
  have heq := (chainHash_inj hsha hnormal genesisHash_text genesisHash_text
    (hown.symm.trans hhash) rfl).2
  have htime : Go.maxInt64 + 1 = timeKey (Go.maxInt64 + 1) := congrArg Event.time heq
  exact absurd htime (by decide)

/-- **An untampered log does not verify** after an entry recorded too late, here with a hash that has no
collisions at all. -/
theorem late_entry_breaks :
    ∃ v, verify id (Log.history id [.append lateEntry]) 0 365 = some v ∧ v.ok = false ∧
      v.broken.isSome :=
  late_entry_reported fun _ _ h => h

/-! ## Entries are only added -/

/-- The entries ever recorded, after one more transaction: an append adds a row that is chained to the
newest of them, whether or not that one is still in the log. -/
def record (sha256 : Bytes → Bytes) (all : List Row) : Tx → List Row
  | .append e => all ++ [rowOf (Log.chainTo sha256 (Log.newest all {}) (normalize e))]
  | .prune _ _ => all

def recorded (sha256 : Bytes → Bytes) (txs : List Tx) : List Row := txs.foldl (record sha256) []

/-- Of the entries `all` ever recorded, which are numbered from 1, the rows are those after the anchor. -/
structure Recorded (all : List Row) (log : Log) : Prop where
  numbered : ∀ (i : Nat) r, all[i]? = some r → r.id = i + 1
  rows : ∃ removed, all = removed ++ log.rows ∧
    (log.anchor.lastID, log.anchor.lastHash) = Log.newest removed {}

variable {all : List Row}

theorem Recorded.newest (h : Recorded all log) : Log.newest log.rows log.anchor = Log.newest all {} := by
  obtain ⟨removed, rfl, hanchor⟩ := h.rows
  unfold Log.newest at hanchor ⊢
  rw [List.getLast?_append]
  cases log.rows.getLast? with
  | none => exact hanchor
  | some last => rfl

theorem Recorded.newest_id (h : Recorded all log) : (Log.newest all {}).1 = all.length := by
  rcases List.eq_nil_or_concat all with rfl | ⟨init, last, rfl⟩
  · rfl
  · have hlast := h.numbered init.length last (by simp)
    simpa [Log.newest] using hlast

theorem Recorded.exec (h : Recorded all log) (sha256 : Bytes → Bytes) (tx : Tx) :
    Recorded (record sha256 all tx) (log.exec sha256 tx) := by
  obtain ⟨removed, hall, hanchor⟩ := h.rows
  cases tx with
  | append e =>
    refine ⟨fun i r hr => ?_, removed, ?_, hanchor⟩
    · rcases Nat.lt_or_ge i all.length with hi | hi
      · rw [record, List.getElem?_append_left hi] at hr
        exact h.numbered i r hr
      · rw [record, List.getElem?_append_right hi, List.getElem?_singleton] at hr
        obtain ⟨hi', hr⟩ := Option.ite_none_right_eq_some.mp hr
        cases hr
        have hnext : (Log.newest all {}).1 + 1 = all.length + 1 := by rw [h.newest_id]
        exact hnext.trans (by omega)
    · rw [record, ← h.newest, hall, List.append_assoc]
      rfl
  | prune cutoff now =>
    change Recorded all (log.prune cutoff now)
    rcases prune_cases log cutoff now with heq | ⟨init, rest, last, hrows, hrest, hid, hhash⟩
    · rwa [heq]
    · refine ⟨h.numbered, removed ++ init ++ [last], by simp [hall, hrows, hrest], ?_⟩
      rw [hid, hhash, Log.newest, List.getLast?_concat]

theorem Recorded.run (h : Recorded all log) (sha256 : Bytes → Bytes) (txs : List Tx) :
    Recorded (txs.foldl (record sha256) all) (txs.foldl (Log.exec sha256) log) := by
  induction txs generalizing all log with
  | nil => exact h
  | cons tx txs ih => exact ih (h.exec sha256 tx)

theorem record_prefix (sha256 : Bytes → Bytes) (all : List Row) (txs : List Tx) :
    all <+: txs.foldl (record sha256) all := by
  induction txs generalizing all with
  | nil => exact List.prefix_rfl
  | cons tx txs ih =>
    refine List.IsPrefix.trans ?_ (ih (record sha256 all tx))
    cases tx with
    | append e => exact List.prefix_append _ _
    | prune cutoff now => exact List.prefix_rfl

/-- **The log is append-only**: whatever the transactions, the rows are the last of the entries that were
ever appended, in their order and each under its place in the history, and the transactions that follow
only add to these. So no entry is changed and no ID given twice, also when retention has removed all
rows. -/
theorem append_only (sha256 : Bytes → Bytes) (txs txs' : List Tx) :
    Recorded (recorded sha256 txs) (Log.history sha256 txs) ∧
      recorded sha256 txs <+: recorded sha256 (txs ++ txs') := by
  have hinitial : Recorded [] Log.initial := ⟨fun i r hr => by simp at hr, [], rfl, rfl⟩
  refine ⟨hinitial.run sha256 txs, ?_⟩
  rw [recorded, recorded, List.foldl_append]
  exact record_prefix sha256 _ txs'

end MongoRescue.AuditLog.Proof
