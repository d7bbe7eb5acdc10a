import MongoRescue.PITR.Proof.Collect

/-!
# No entry is lost or repeated

`ExactlyOnce`: the committed chunks of a chain hold the oplog from the chain's start entry to the last
one's end. It holds in every state of every run, whatever fails and wherever the process dies
(`chains_exact`), as long as two calls do not fail: reading the chains to see whether a restarted worker's
next chunk is its chain's first, and ending a chain whose newest chunks were superseded. The first of
them alone is enough to lose a start entry (`start_entry_lost`).
-/

namespace MongoRescue.PITR.Proof

open Trans Range

def committedChunks (cfg : Config) (w : World) (c : Chain) : List Chunk :=
  w.db.listChunks { streamID := cfg.streamID, chainID := c.chainID, status := some .committed }

/-- The entries that the objects of the chunks hold, in order. -/
def contents (w : World) (cs : List Chunk) : List OpTime :=
  cs.flatMap fun r => (w.objects r.storageKey).getD []

structure ExactlyOnce (cfg : Config) (w : World) (c : Chain) : Prop where
  sorted : w.log.Pairwise fun x y => x.ts < y.ts
  start : ∃ op ∈ w.log, op.ts = c.start
  objects : ∀ r ∈ committedChunks cfg w c, (w.objects r.storageKey).isSome
  held : ∀ last, (committedChunks cfg w c).getLast? = some last →
    contents w (committedChunks cfg w c) =
      w.log.filter fun op => c.start ≤ op.ts ∧ op.ts ≤ last.toTS

variable {cfg : Config}

/-- A step in which the two calls do not fail; every other event. -/
def SafeEvent : Event → Prop
  | .step env => Safe env
  | _ => True

/-! ## Runs -/

variable {w : World}

theorem Inv.pause (h : Inv cfg w) (stateRead : Bool) (now : Int) :
    Inv cfg (w.pause stateRead now) := by
  unfold World.pause
  extract_lets stop
  split
  · exact h
  · split
    · rename_i db hdb
      exact h.endChain hdb
    · exact h

/-- A worker that has just started remembers nothing. -/
theorem Inv.start (h : Inv cfg w) :
    Inv cfg { w with running := true, worker := newWorker cfg w.replicaSet } := by
  obtain ⟨t1, t2, t3, t4, t5, t6, t7, t8, t9, t10⟩ := h.tables
  refine ⟨⟨t1, t2, t3, t4, t5, t6, t7, t8, t9, t10⟩, h.live, fun hc => ?_⟩
  cases hc

theorem Inv.setRunning (h : Inv cfg w) (b : Bool) : Inv cfg { w with running := b } := by
  obtain ⟨t1, t2, t3, t4, t5, t6, t7, t8, t9, t10⟩ := h.tables
  exact ⟨⟨t1, t2, t3, t4, t5, t6, t7, t8, t9, t10⟩, h.live, h.remembers⟩

theorem Inv.afterStep {r : Except Stop Int × World} (h : Inv cfg r.2) : Inv cfg (.afterStep r) := by
  obtain ⟨r, w⟩ := r
  rcases r with e | d
  · cases e <;> first | exact h.setRunning false | exact h
  · exact h

/-- **Every event keeps the invariant.** -/
theorem Inv.next {w w' : World} {e : Event} (h : Inv cfg w) (he : SafeEvent e)
    (hnext : w.next cfg e = some w') : Inv cfg w' := by
  cases e with
  | grow es =>
    cases hnext
    exact h.quiet (Quiet.grow w es)
  | start =>
    by_cases hr : w.running
    · simp [World.next, hr] at hnext
    · simp only [World.next, if_neg hr, Option.some.injEq] at hnext
      exact hnext ▸ h.start
  | stop =>
    cases hnext
    exact h.setRunning false
  | step env =>
    by_cases hr : w.running
    · simp only [World.next, if_pos hr, Option.some.injEq] at hnext
      exact hnext ▸ ((step_spec he).kept h).afterStep
    · simp [World.next, hr] at hnext
  | pause stateRead now =>
    by_cases hr : w.running
    · simp [World.next, hr] at hnext
    · simp only [World.next, if_neg hr, Option.some.injEq] at hnext
      exact hnext ▸ h.pause stateRead now

theorem Inv.init (h : (collector cfg).init w) : Inv cfg w := by
  obtain ⟨hlog, hchains, hchunks, hstate, -⟩ := h
  have hpos : ∀ p, position w.db ≠ some p := fun p hp => by simp [position, hstate] at hp
  have hclosed : ∀ id, ¬ OpenChain w.db id := fun id hid => by
    obtain ⟨c, hc, -⟩ := hid
    rw [hchains] at hc
    cases hc
  refine ⟨⟨hlog, ?_, ?_, ?_, ?_, ?_, ?_, ?_, fun id p hp => absurd hp (hpos _),
    fun id hid => absurd hid (hclosed id)⟩, fun id hid => absurd hid (hclosed id),
    fun _ id p hp => absurd hp (hpos _)⟩
  all_goals simp [hchains, hchunks]

theorem reach_inv (h : (collector cfg).Reach (fun _ => SafeEvent) w) : Inv cfg w :=
  h.inv (fun _ => Inv.init) fun _ _ _ hs hok hstep => hs.next hok hstep

/-! ## The chunks of a chain -/

/-- `ListChunks` returns the committed rows in the order they were committed. -/
theorem committedChunks_eq (h : Tables cfg w) {c : Chain} (hc : c ∈ w.db.chains) :
    committedChunks cfg w c = (rows w.db c.chainID).filter (·.status = .committed) := by
  have hsel : w.db.chunks.filter (ChunkQuery.selects
      { streamID := cfg.streamID, chainID := c.chainID, status := some .committed }) =
        (rows w.db c.chainID).filter (·.status = .committed) := by
    rw [rows, List.filter_filter]
    refine List.filter_congr fun r hr => ?_
    simp [ChunkQuery.selects, (h.row r hr).stream, show Timestamp.isZero {} from rfl, Bool.and_comm]
  obtain ⟨last, hheld, -⟩ := h.held c hc
  rw [committedChunks, DB.listChunks, hsel]
  -- two rows of a chain are in order by their ranges, which differ
  refine List.Pairwise.insertionSort_eq (List.Pairwise.filter _ ?_)
  have hdist : (rows w.db c.chainID).Pairwise fun r s => ¬ (r.fromTS = s.fromTS ∧ r.toTS = s.toTS) := by
    refine (h.distinct.filter _).imp_of_mem fun {r s} hr hs hrs hsame => hrs ⟨?_, hsame⟩
    exact (mem_rows.mp hr).2.trans (mem_rows.mp hs).2.symm
  refine (hheld.pairwise.and hdist).imp_of_mem fun {r s} hr hs hrs => ?_
  have hr1 := (hheld.mem hr).2.1
  have hs1 := (hheld.mem hs).2.1
  rcases lt_or_eq_of_le (hr1.trans hrs.1) with hlt | heq
  · exact .inl hlt
  · refine .inr ⟨heq, .inl (lt_of_le_of_ne (hrs.1.trans hs1) fun hto => hrs.2 ⟨heq, hto⟩)⟩

theorem Inv.exactlyOnce (h : Inv cfg w) {c : Chain} (hc : c ∈ w.db.chains) :
    ExactlyOnce cfg w c := by
  obtain ⟨last, hheld, -⟩ := h.tables.held c hc
  have heq := committedChunks_eq h.tables hc
  -- the committed rows are the first ones
  have hkept : (rows w.db c.chainID).Pairwise fun r s =>
      decide (s.status = .committed) → decide (r.status = .committed) := by
    refine (h.tables.kept.filter _).imp_of_mem fun {r s} hr hs hrs hst => ?_
    refine decide_eq_true (hrs ?_ (of_decide_eq_true hst))
    exact (mem_rows.mp hr).2.trans (mem_rows.mp hs).2.symm
  obtain ⟨rest, hrest⟩ := filter_isPrefix hkept
  rw [hrest] at hheld
  obtain ⟨m, hm⟩ := hheld.of_append
  rw [← heq] at hm
  refine ⟨h.tables.sorted, h.tables.starts c hc, fun r hr => (hm.mem hr).2.2.2, fun r hr => ?_⟩
  have hne : committedChunks cfg w c ≠ [] := fun hnil => by simp [hnil] at hr
  rw [contents, hm.contents h.tables.sorted hne, entries, hm.getLast hr]
  exact List.filter_congr fun op _ => by simp [within]

/-- **No entry is lost or repeated**: in every run whose steps are safe, the committed chunks of every
chain hold exactly the oplog from the chain's start entry to the end of the last one. -/
theorem chains_exact {w : World} (h : (collector cfg).Reach (fun _ => SafeEvent) w) {c : Chain}
    (hc : c ∈ w.db.chains) : ExactlyOnce cfg w c :=
  (reach_inv h).exactlyOnce hc

/-! ## A restarted worker -/

/-- A step whose members see `n` entries and report the newest of them; the calls in `bad` fail. -/
def stepOn (n : Nat) (bad : Site → Bool) : Event :=
  .step fun s => { hi := n, majority := some (n - 1), id := "a",
                   outcome := if bad s then .fail else .ok }

/-- Two entries, of which the first is the chain's start. -/
def twoEntries : World := { log := [⟨⟨1, 1⟩, 1⟩, ⟨⟨2, 1⟩, 1⟩] }

/-- A chain is started, the process is restarted before its first chunk, and the next step stores
one. -/
def restarted (bad : Site → Bool) : List Event :=
  [.start, stepOn 1 fun _ => false, .stop, .start, stepOn 2 bad]

theorem restarted_reach (bad : Site → Bool) {ok : World → Event → Prop}
    (hok : (collector {}).Along ok twoEntries (restarted bad))
    (hw : (collector {}).exec twoEntries (restarted bad) = some w) : (collector {}).Reach ok w :=
  Sys.reach_of_exec (.init ⟨by decide, rfl, rfl, rfl, rfl⟩) hok hw

/-- The first chain of a run, the end of its last committed chunk, and what its chunks hold. -/
def firstChain (w : World) : Option (Chain × Option Timestamp × List OpTime) :=
  w.db.chains.head?.map fun c =>
    (c, (committedChunks {} w c).getLast?.map (·.toTS), contents w (committedChunks {} w c))

theorem restarted_result {bad : Site → Bool} {c : Chain} {last : Option Timestamp} {es : List OpTime}
    (h : ((collector {}).exec twoEntries (restarted bad)).bind firstChain = some (c, last, es)) :
    ∃ w, (collector {}).exec twoEntries (restarted bad) = some w ∧ c ∈ w.db.chains ∧
      (committedChunks {} w c).getLast?.map (·.toTS) = last ∧
      contents w (committedChunks {} w c) = es := by
  obtain ⟨w, hw, hr⟩ := Option.bind_eq_some_iff.mp h
  obtain ⟨d, hd, heq⟩ := Option.map_eq_some_iff.mp hr
  cases heq
  exact ⟨w, hw, List.mem_of_head? hd, rfl, rfl⟩

/-- The chain that the first step starts. -/
def chainA : Chain := { streamID := "s", chainID := "a", start := ⟨1, 1⟩ }

theorem chains_exact_restarted : ∃ w, (collector {}).Reach (fun _ => SafeEvent) w ∧
    ∃ c ∈ w.db.chains, ExactlyOnce {} w c ∧
      contents w (committedChunks {} w c) = [⟨⟨1, 1⟩, 1⟩, ⟨⟨2, 1⟩, 1⟩] := by
  have hrun : ((collector {}).exec twoEntries (restarted fun _ => false)).bind firstChain =
      some (chainA, some ⟨2, 1⟩, [⟨⟨1, 1⟩, 1⟩, ⟨⟨2, 1⟩, 1⟩]) := by decide +kernel
  obtain ⟨w, hw, hc, -, hcont⟩ := restarted_result hrun
  have hsafe : ∀ e ∈ restarted fun _ => false, SafeEvent e := by
    intro e he
    simp only [restarted, List.mem_cons, List.not_mem_nil, or_false] at he
    rcases he with rfl | rfl | rfl | rfl | rfl
    · trivial
    · exact ⟨by decide, rfl⟩
    · trivial
    · trivial
    · exact ⟨by decide, rfl⟩
  have hreach := restarted_reach _ (Sys.along_of_forall hsafe _) hw
  exact ⟨w, hreach, _, hc, chains_exact hreach hc, hcont⟩

/-- **A start entry is lost**: the process is restarted between starting a chain and its first chunk, and
the new worker cannot read the chains. It takes that for a chain that started earlier, and its first
chunk leaves the start entry out. -/
theorem start_entry_lost : ∃ w, (collector {}).Reach Sys.Any w ∧
    ∃ c ∈ w.db.chains, ¬ ExactlyOnce {} w c := by
  have hrun : ((collector {}).exec twoEntries (restarted fun s => s = .chainStart)).bind firstChain =
      some (chainA, some ⟨2, 1⟩, [⟨⟨2, 1⟩, 1⟩]) := by decide +kernel
  obtain ⟨w, hw, hc, hlast, hcont⟩ := restarted_result hrun
  have hreach := restarted_reach _ (Sys.along_any _ _) hw
  refine ⟨w, hreach, _, hc, fun h => ?_⟩
  obtain ⟨r, hr, hto⟩ := Option.map_eq_some_iff.mp hlast
  obtain ⟨op, hop, hts⟩ := h.start
  have hheld := h.held r hr
  rw [hcont, hto] at hheld
  -- the start entry is in the range but not in the chunk
  have hmem : op ∈ [(⟨⟨2, 1⟩, 1⟩ : OpTime)] := by
    rw [hheld]
    refine List.mem_filter.mpr ⟨hop, ?_⟩
    rw [hts]
    decide
  rw [List.mem_singleton] at hmem
  rw [hmem] at hts
  exact absurd hts (by decide)

end MongoRescue.PITR.Proof
