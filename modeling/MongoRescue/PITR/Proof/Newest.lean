import MongoRescue.Lib.Stable
import MongoRescue.PITR.Proof.Retention
import MongoRescue.PITR.Status

/-!
# Which base a restore starts from

`PlanRestore` is to choose the newest base that qualifies: one from which an unbroken run of checked
chunks of some chain reaches the limit, with a key for every item. What it looks at is less: of a base
only the run from the first chunk listed that touches its `T_before` (`Starts`), and the keys once a base
is chosen. `planFrom_of_starts` and `starts_of_planFrom` say which bases have a plan, `candidates_split` in
which order they are tried, and `planRestore_newest_iff` when the newest that qualifies is taken.
-/

namespace MongoRescue.PITR.Proof

/-! ## Bases that qualify -/

/-- An unbroken run of checked chunks that takes a base up to the limit. -/
structure Run (b : Base) (limit : Timestamp) (run : List Chunk) : Prop where
  linked : run.IsChain fun p ch => p.toTS = ch.fromTS
  checked : ∀ ch ∈ run, ch.verifyError = "" ∧ Go.blank ch.sha256 = false
  /-- `T_before` is in the range of the first chunk, or its start. -/
  first : ∃ ch, run.head? = some ch ∧
    (ch.fromTS < b.tBefore.ts ∧ b.tBefore.ts ≤ ch.toTS ∨ b.tBefore.ts = ch.fromTS)
  reaches : ∃ ch, run.getLast? = some ch ∧ limit ≤ ch.toTS
  /-- The chunk that holds the consistent point is of its term. -/
  term : ∀ ch ∈ run, ch.holdsAfter b = true → ch.otherTerm b = false

def Keyed (hasKey : Option (String → Bool)) (b : Base) (run : List Chunk) : Prop :=
  missingKey hasKey b.encrypted b.encryptionMode = false ∧
    ∀ ch ∈ run, missingKey hasKey ch.encrypted ch.encryptionMode = false

/-- The base takes a restore up to the limit, with the live chunks of some chain. -/
def Qualifies (src : PlanSource) (chains : List Chain) (chunks : String → List Chunk)
    (limit : Timestamp) (b : Base) : Prop :=
  b ∈ src.bases ∧ b.tAfter.ts < limit ∧ ∃ c ∈ chains, ∃ run : List Chunk,
    run.Sublist (chunks c.chainID) ∧ Run b limit run ∧ Keyed src.hasKey b run

/-! ## The chunks a base is planned with -/

/-- The position is in the chunk's range, or its start. -/
def Touches (t : Timestamp) (ch : Chunk) : Prop := ch.fromTS ≤ t ∧ t ≤ ch.toTS

/-- `run` are chunks of the chain `c` from the first one on that touches the position, in the order in
which chains and chunks are listed. -/
def FirstTouching (chains : List Chain) (chunks : String → List Chunk) (t : Timestamp) (c : Chain)
    (run : List Chunk) : Prop :=
  (∃ ch, run.head? = some ch ∧ Touches t ch) ∧ ∃ before after pre rest, chains = before ++ c :: after ∧
    chunks c.chainID = pre ++ run ++ rest ∧
    (∀ x ∈ before, ∀ ch ∈ chunks x.chainID, ¬Touches t ch) ∧ ∀ ch ∈ pre, ¬Touches t ch

/-- The first chunk listed that touches the base's `T_before` starts a run to the limit, and no chunk of
it but the last reaches the limit. -/
structure Starts (chains : List Chain) (chunks : String → List Chunk) (b : Base) (limit : Timestamp)
    (run : List Chunk) : Prop where
  unbroken : Run b limit run
  short : ∀ ch ∈ run.dropLast, ch.toTS < limit
  listed : ∃ c, FirstTouching chains chunks b.tBefore.ts c run

section RunFrom

variable {t : Timestamp} {l : List Chunk}

theorem runFrom_nil_iff (ho : Ordered l) : runFrom t l = [] ↔ ∀ ch ∈ l, ¬Touches t ch := by
  rw [runFrom_eq_nil_iff ho]
  constructor
  · intro h ch hch ht
    exact absurd ht.1 (not_le.mpr (h ch hch ht.2))
  · intro h ch hch hto
    exact not_le.mp fun hfrom => h ch hch ⟨hfrom, hto⟩

/-- From the first chunk that touches the position on, a run takes them all. -/
theorem runFrom_append {pre rest : List Chunk} {ch : Chunk} (ho : Ordered (pre ++ ch :: rest))
    (hpre : ∀ x ∈ pre, ¬Touches t x) (hch : Touches t ch) :
    runFrom t (pre ++ ch :: rest) = ch :: rest := by
  have hlt : ∀ x ∈ pre, x.toTS < t := by
    intro x hx
    have hle : x.fromTS ≤ ch.fromTS := (List.pairwise_append.mp ho).2.2 x hx ch List.mem_cons_self
    exact not_le.mp fun hto => hpre x hx ⟨hle.trans hch.1, hto⟩
  unfold runFrom
  rw [List.dropWhile_append_of_pos fun x hx => by simpa using hlt x hx,
    List.dropWhile_cons_of_neg (by simpa using hch.2)]
  simp [hch.1]

end RunFrom

/-! ## Walks that reach the limit -/

/-- The walk reaches the limit through linked chunks that pass the checks and hold the consistent
point. -/
theorem walk_complete {prev : Option Chunk} {w : Walk} {pre tail : List Chunk} {s : Chunk}
    (hlink : (prev.toList ++ (pre ++ [s])).IsChain fun p c => p.toTS = c.fromTS)
    (hok : ∀ c ∈ pre ++ [s], Go.blank c.sha256 = false ∧ c.verifyError = "" ∧
      (c.holdsAfter w.plan.base = true → c.otherTerm w.plan.base = false))
    (hpre : ∀ c ∈ pre, c.toTS < w.plan.limit) (hs : w.plan.limit ≤ s.toTS)
    (hend : w.termOK = true ∨ (∃ c ∈ pre ++ [s], c.holdsAfter w.plan.base = true) ∨
      w.plan.base.tAfter.ts ≤ (((w.plan.chunks ++ (pre ++ [s])).head?).map (·.fromTS)).getD {}) :
    ∃ p, walk prev w (pre ++ s :: tail) = .ok (some p) ∧ p.base = w.plan.base ∧
      p.chunks = w.plan.chunks ++ (pre ++ [s]) := by
  induction pre generalizing prev w with
  | nil =>
    obtain ⟨hsha, hv, hterm⟩ := hok s (by simp)
    have hprev : ∀ q ∈ prev, q.toTS = s.fromTS := by
      intro q hq
      rw [Option.mem_def.mp hq] at hlink
      simpa using hlink
    rw [List.nil_append, walk, addChunk_ok_iff.mpr ⟨hprev, hsha, hv, fun _ => hterm, rfl⟩]
    simp only [bind, Except.bind]
    rw [if_pos (show (Walk.push w s).plan.limit ≤ s.toTS from hs)]
    have hfin : (!(w.termOK || s.holdsAfter w.plan.base) && decide ((((w.plan.chunks ++ [s]).head?).map
        (·.fromTS)).getD {} < w.plan.base.tAfter.ts)) = false := by
      rcases hend with h | ⟨c, hc, h⟩ | h
      · simp [h]
      · rw [List.nil_append, List.mem_singleton] at hc
        subst hc
        simp [h]
      · rw [List.nil_append] at h
        rw [decide_eq_false (not_lt.mpr h), Bool.and_false]
    unfold finish Walk.push
    dsimp only
    rw [hfin]
    exact ⟨_, rfl, rfl, rfl⟩
  | cons ch pre ih =>
    obtain ⟨hsha, hv, hterm⟩ := hok ch (by simp)
    have hprev : ∀ q ∈ prev, q.toTS = ch.fromTS := by
      intro q hq
      rw [Option.mem_def.mp hq] at hlink
      exact (List.isChain_cons_cons.mp hlink).1
    rw [List.cons_append, walk, addChunk_ok_iff.mpr ⟨hprev, hsha, hv, fun _ => hterm, rfl⟩]
    simp only [bind, Except.bind]
    rw [if_neg (not_le.mpr (show ch.toTS < (Walk.push w ch).plan.limit from hpre ch List.mem_cons_self))]
    have hstep : w.plan.chunks ++ (ch :: pre ++ [s]) = (Walk.push w ch).plan.chunks ++ (pre ++ [s]) := by
      simp [Walk.push]
    rw [hstep] at hend ⊢
    refine ih (w := Walk.push w ch) ?_ (fun c hc => hok c (List.mem_cons_of_mem _ hc))
      (fun c hc => hpre c (List.mem_cons_of_mem _ hc)) hs ?_
    · cases prev with
      | none => exact hlink
      | some q => exact hlink.tail
    · rcases hend with h | ⟨c, hc, h⟩ | h
      · exact .inl (by simp [Walk.push, h])
      · rcases List.mem_cons.mp hc with rfl | hc
        · exact .inl (by simp [Walk.push, h])
        · exact .inr (.inl ⟨c, hc, h⟩)
      · exact .inr (.inr h)

/-! ## Plans of one base -/

section PlanFrom

variable {chunks : String → List Chunk} {b : Base} {limit : Timestamp} {chains : List Chain}
  {run : List Chunk}

/-- The ranges of a run that touches `T_before` first and reaches the limit last. -/
theorem linked_of_run {pre : List Chunk} {first s : Chunk}
    (hl : (pre ++ [s]).IsChain fun q ch => q.toTS = ch.fromTS) (ho : Ordered (pre ++ [s]))
    (hf : (pre ++ [s]).head? = some first) (ht : Touches b.tBefore.ts first)
    (hpre : ∀ c ∈ pre, c.toTS < limit) (hs : limit ≤ s.toTS) :
    Range.Linked first.fromTS ((pre ++ [s]).map fun ch => (ch.fromTS, ch.toTS)) s.toTS :=
  linked_of_isChain hl ho rfl hf (last_from_le hl rfl hs hpre hf ht.1 ht.2)

theorem holdsAfter_unique {lo hi : Timestamp}
    (hl : Range.Linked lo (run.map fun ch => (ch.fromTS, ch.toTS)) hi) {x y : Chunk} (hx : x ∈ run)
    (hy : y ∈ run) (hhx : x.holdsAfter b = true) (hhy : y.holdsAfter b = true)
    (hhi : b.tAfter.ts ≤ hi) : x = y := by
  simp only [Chunk.holdsAfter, Bool.and_eq_true, decide_eq_true_eq] at hhx hhy
  have hlo : lo < b.tAfter.ts :=
    lt_of_le_of_lt (hl.start_le (p := (x.fromTS, x.toTS)) (List.mem_map.mpr ⟨x, hx, rfl⟩)) hhx.1
  obtain ⟨i, hi⟩ := List.mem_iff_getElem?.mp hx
  obtain ⟨j, hj⟩ := List.mem_iff_getElem?.mp hy
  have hij : i = j := (hl.existsUnique hlo hhi).unique
    ⟨(x.fromTS, x.toTS), by rw [List.getElem?_map, hi]; rfl, hhx⟩
    ⟨(y.fromTS, y.toTS), by rw [List.getElem?_map, hj]; rfl, hhy⟩
  rw [hij, hj] at hi
  exact (Option.some.inj hi).symm

theorem FirstTouching.sublist {c : Chain} {t : Timestamp} (h : FirstTouching chains chunks t c run) :
    c ∈ chains ∧ run.Sublist (chunks c.chainID) := by
  obtain ⟨-, before, after, pre, rest, rfl, hl, -⟩ := h
  refine ⟨by simp, ?_⟩
  rw [hl]
  exact (List.sublist_append_right pre run).trans (List.sublist_append_left _ rest)

/-- A chunk of the run holds a consistent point after its start. -/
theorem Starts.holdsAfter (h : Starts chains chunks b limit run) (ho : Ordered run)
    (hlim : b.tAfter.ts < limit) {first : Chunk} (hhead : run.head? = some first)
    (hafter : first.fromTS < b.tAfter.ts) : ∃ x ∈ run, x.holdsAfter b = true := by
  obtain ⟨c, ⟨first', hhead', ht⟩, -⟩ := h.listed
  rw [hhead, Option.some.injEq] at hhead'
  subst hhead'
  obtain ⟨s, hlast, hs⟩ := h.unbroken.reaches
  obtain ⟨front, rfl⟩ := List.getLast?_eq_some_iff.mp hlast
  have hlink := linked_of_run h.unbroken.linked ho hhead ht (by simpa using h.short) hs
  obtain ⟨i, q, hq, hhold⟩ := (hlink.existsUnique hafter (hlim.le.trans hs)).exists
  obtain ⟨x, hx, rfl⟩ := List.mem_map.mp (List.mem_of_getElem? hq)
  refine ⟨x, hx, ?_⟩
  simp only [Chunk.holdsAfter, Bool.and_eq_true, decide_eq_true_eq]
  exact hhold

theorem planFrom_of_starts (ho : ∀ c ∈ chains, Ordered (chunks c.chainID)) (hlim : b.tAfter.ts < limit)
    (h : Starts chains chunks b limit run) :
    ∃ p, planFrom chunks b limit chains = .ok p ∧ p.base = b ∧ p.chunks = run := by
  obtain ⟨c, hfirst⟩ := h.listed
  have hord : Ordered run := (ho c hfirst.sublist.1).sublist hfirst.sublist.2
  obtain ⟨⟨first, hhead, ht⟩, before, after, pre, rest, rfl, hl, hbefore, hpre⟩ := hfirst
  obtain ⟨s, hlast, hs⟩ := h.unbroken.reaches
  obtain ⟨front, rfl⟩ := List.getLast?_eq_some_iff.mp hlast
  have hshort : ∀ ch ∈ front, ch.toTS < limit := by simpa using h.short
  have hrun : runFrom b.tBefore.ts (chunks c.chainID) = front ++ s :: rest := by
    have hc := ho c (by simp)
    obtain ⟨more, hmore⟩ : ∃ more, front ++ s :: rest = first :: more := by
      cases front with
      | nil => exact ⟨rest, by simpa using hhead⟩
      | cons a front => exact ⟨front ++ s :: rest, by simpa using hhead⟩
    have hsplit : chunks c.chainID = pre ++ (front ++ s :: rest) := by simp [hl]
    rw [hsplit, hmore] at hc ⊢
    exact runFrom_append hc hpre ht
  obtain ⟨p, hwalk, hbase, hchunks⟩ : ∃ p, walk none ⟨{ chainID := c.chainID, base := b, limit }, false⟩
      (front ++ s :: rest) = .ok (some p) ∧ p.base = b ∧ p.chunks = front ++ [s] := by
    refine walk_complete h.unbroken.linked (fun x hx => ⟨(h.unbroken.checked x hx).2,
      (h.unbroken.checked x hx).1, h.unbroken.term x hx⟩) hshort hs (.inr ?_)
    by_cases hafter : first.fromTS < b.tAfter.ts
    · exact .inl (h.holdsAfter hord hlim hhead hafter)
    · exact .inr (by simpa [hhead] using hafter)
  refine ⟨p, ?_, hbase, hchunks⟩
  rw [← hrun] at hwalk
  clear hl h
  induction before with
  | nil => exact planFrom_cons_run (by simp [hrun]) hwalk
  | cons x before ih =>
    rw [List.cons_append, planFrom_cons_nil ((runFrom_nil_iff (ho x (by simp))).mpr
      (hbefore x List.mem_cons_self))]
    exact ih (fun d hd => ho d (List.mem_cons_of_mem _ hd))
      fun d hd => hbefore d (List.mem_cons_of_mem _ hd)

theorem starts_of_planFrom (ho : ∀ c ∈ chains, Ordered (chunks c.chainID)) (hlim : b.tAfter.ts < limit)
    {p : RestorePlan} (h : planFrom chunks b limit chains = .ok p) :
    p.base = b ∧ Starts chains chunks b limit p.chunks ∧
      ∃ c, p.chainID = c.chainID ∧ FirstTouching chains chunks b.tBefore.ts c p.chunks := by
  obtain ⟨before, c, after, rfl, hbefore, hne, hwalk⟩ := planFrom_ok h
  obtain ⟨pre, first, rest, hl, hrun, hpre, hfrom, hto⟩ := runFrom_ne_nil hne
  obtain ⟨hr, hbase, hchain, hlimit, run, tail, hrne, hrest, hchunks⟩ :=
    walk_ok hwalk rfl ⟨by simp, by simp, rfl, rfl, by simp⟩ (by simp)
  have hchunks : p.chunks = run := hchunks
  have hlimit : p.limit = limit := hlimit
  have hbase : p.base = b := hbase
  obtain ⟨front, s, hlast, hs, hshort⟩ := hr.last
  rw [hlimit] at hs hshort
  have hhead : p.chunks.head? = some first := by
    obtain ⟨a, run', rfl⟩ := List.exists_cons_of_ne_nil hrne
    rw [hrun, List.cons_append] at hrest
    rw [hchunks, (List.cons.inj hrest).1, List.head?_cons]
  have hfirst : FirstTouching (before ++ c :: after) chunks b.tBefore.ts c p.chunks := by
    refine ⟨⟨first, hhead, hfrom, hto⟩, before, after, pre, tail, rfl, ?_, fun x hx => ?_, fun x hx ht => ?_⟩
    · rw [hl, ← hrun, hrest, hchunks, List.append_assoc]
    · exact (runFrom_nil_iff (ho x (by simp [hx]))).mp (hbefore x hx)
    · exact absurd ht.2 (not_le.mpr (hpre x hx))
  have hord : Ordered p.chunks := (ho c (by simp)).sublist hfirst.sublist.2
  have hlink := linked_of_run (hlast ▸ hr.linked) (hlast ▸ hord) (hlast ▸ hhead) ⟨hfrom, hto⟩ hshort hs
  rw [← hlast] at hlink
  refine ⟨hbase, ⟨⟨hr.linked, hr.checked, ⟨first, hhead, ?_⟩, ⟨s, by simp [hlast], hs⟩, fun x hx hh => ?_⟩,
    by simpa [hlast] using hshort, c, hfirst⟩, c, hchain, hfirst⟩
  · rcases hfrom.lt_or_eq with hlt | heq
    · exact .inl ⟨hlt, hto⟩
    · exact .inr heq.symm
  · have hlo : first.fromTS < b.tAfter.ts := by
      have hx1 : x.fromTS < b.tAfter.ts := by
        simp only [Chunk.holdsAfter, Bool.and_eq_true, decide_eq_true_eq] at hh
        exact hh.1
      exact lt_of_le_of_lt (hlink.start_le (p := (x.fromTS, x.toTS)) (List.mem_map.mpr ⟨x, hx, rfl⟩)) hx1
    obtain ⟨y, hy, hhold⟩ := hr.term first hhead (hbase ▸ hlo)
    rw [hbase, holdsAfter_iff] at hhold
    rw [holdsAfter_unique hlink hx hy hh hhold.1 (hlim.le.trans hs)]
    exact hhold.2

theorem planFrom_congr {f g : String → List Chunk} (h : ∀ c ∈ chains, f c.chainID = g c.chainID) :
    planFrom f b limit chains = planFrom g b limit chains := by
  induction chains with
  | nil => rfl
  | cons c chains ih =>
    have hc := h c List.mem_cons_self
    have ih := ih fun d hd => h d (List.mem_cons_of_mem _ hd)
    simp only [planFrom, hc, ih]

end PlanFrom

/-! ## The base that is taken -/

theorem firstPlan_upTo (plan : Base → Except PlanErr RestorePlan) (e : Option PlanErr)
    (pre post : List Base) {b : Base} (hb : ∃ p, plan b = .ok p) :
    ∃ x ∈ pre ++ [b], ∃ p, plan x = .ok p ∧ firstPlan plan e (pre ++ b :: post) = .ok p := by
  induction pre generalizing e with
  | nil =>
    obtain ⟨p, hp⟩ := hb
    exact ⟨b, by simp, p, hp, by rw [List.nil_append, firstPlan, hp]⟩
  | cons c pre ih =>
    rcases hc : plan c with e' | p
    · obtain ⟨x, hx, p, hp, hfirst⟩ := ih (e.or (some e'))
      exact ⟨x, List.mem_cons_of_mem _ hx, p, hp, by rw [List.cons_append, firstPlan, hc]; exact hfirst⟩
    · exact ⟨c, by simp, p, hc, by rw [List.cons_append, firstPlan, hc]⟩

theorem checkKeys_iff {p : RestorePlan} {hasKey : Option (String → Bool)} :
    checkKeys p hasKey = .ok () ↔ Keyed hasKey p.base p.chunks := by
  refine ⟨checkKeys_ok, fun h => ?_⟩
  unfold checkKeys
  rw [h.1, List.find?_eq_none.mpr fun ch hch => by simp [h.2 ch hch]]
  rfl

theorem le_foldl_newest {bc : List (String × List Chunk)} {z : Timestamp} :
    z ≤ bc.foldl (fun newest p => max newest ((p.2.getLast?.map (·.toTS)).getD {})) z ∧
      ∀ p ∈ bc, (p.2.getLast?.map (·.toTS)).getD {} ≤
        bc.foldl (fun newest p => max newest ((p.2.getLast?.map (·.toTS)).getD {})) z := by
  induction bc generalizing z with
  | nil => exact ⟨le_rfl, by simp⟩
  | cons q bc ih =>
    obtain ⟨h1, h2⟩ := ih (z := max z ((q.2.getLast?.map (·.toTS)).getD {}))
    refine ⟨(le_max_left _ _).trans h1, fun p hp => ?_⟩
    rcases List.mem_cons.mp hp with rfl | hp
    · exact (le_max_right _ _).trans h1
    · exact h2 p hp

/-- A stream's chains and live chunks, as the repository lists them, and a target among them. -/
structure Planned (src : PlanSource) (streamID : String) (target : Target) (chains : List Chain)
    (chunks : String → List Chunk) (limit : Timestamp) : Prop where
  listChains : src.repo.listChains streamID = some chains
  listChunks : ∀ c ∈ chains, src.repo.listChunks
    { streamID, chainID := c.chainID, status := some .committed, live := true } =
      some (chunks c.chainID)
  valid : target.limit = .ok limit
  /-- The limit is not after the newest chunk of some chain. -/
  newest : ∃ c ∈ chains, ∃ ch, (chunks c.chainID).getLast? = some ch ∧ limit ≤ ch.toTS

section Listing

variable {src : PlanSource} {streamID : String} {chains : List Chain} {chunks : String → List Chunk}

theorem byChain_eq (hl : ∀ c ∈ chains, src.repo.listChunks
      { streamID, chainID := c.chainID, status := some .committed, live := true } =
        some (chunks c.chainID)) (hlive : ∀ c ∈ chains, ∀ ch ∈ chunks c.chainID, ch.live = true) :
    src.byChain streamID chains = .ok (chains.map fun c => (c.chainID, chunks c.chainID)) := by
  induction chains with
  | nil => rfl
  | cons c chains ih =>
    have hc : src.liveChunks streamID c.chainID = .ok (chunks c.chainID) := by
      unfold PlanSource.liveChunks
      rw [hl c List.mem_cons_self]
      dsimp only
      rw [List.filter_eq_self.mpr (hlive c List.mem_cons_self)]
    rw [PlanSource.byChain, hc, ih (fun d hd => hl d (List.mem_cons_of_mem _ hd))
      fun d hd => hlive d (List.mem_cons_of_mem _ hd)]
    rfl

theorem chunksOf_map {c : Chain} (hc : c ∈ chains) :
    chunksOf (chains.map fun c => (c.chainID, chunks c.chainID)) c.chainID = chunks c.chainID := by
  unfold chunksOf
  rw [List.find?_map]
  obtain ⟨d, hd⟩ : ∃ d, chains.find? ((fun p : String × List Chunk => decide (p.1 = c.chainID)) ∘
      fun c => (c.chainID, chunks c.chainID)) = some d := by
    rw [← Option.isSome_iff_exists, List.find?_isSome]
    exact ⟨c, hc, by simp⟩
  have hid : d.chainID = c.chainID := by simpa using List.find?_some hd
  rw [hd]
  simp [hid]

end Listing

namespace Planned

variable {src : PlanSource} {streamID : String} {target : Target} {chains : List Chain}
  {chunks : String → List Chunk} {limit : Timestamp}

theorem live (h : Planned src streamID target chains chunks limit) {c : Chain} (hc : c ∈ chains)
    {ch : Chunk} (hch : ch ∈ chunks c.chainID) : ch.live = true := by
  have hsel := src.repo.selected (h.listChunks c hc) ch hch
  simp only [ChunkQuery.selects, Bool.and_eq_true, decide_eq_true_eq, Bool.not_true, Bool.false_or] at hsel
  simp [Chunk.live, hsel.1.2, hsel.2.1]

theorem ordered (h : Planned src streamID target chains chunks limit) {c : Chain} (hc : c ∈ chains) :
    Ordered (chunks c.chainID) := src.repo.ordered (h.listChunks c hc)

theorem le_newestEnd (h : Planned src streamID target chains chunks limit) :
    limit ≤ newestEnd (chains.map fun c => (c.chainID, chunks c.chainID)) := by
  obtain ⟨c, hc, ch, hlast, hle⟩ := h.newest
  refine hle.trans (le_trans ?_ (le_foldl_newest.2 (c.chainID, chunks c.chainID)
    (List.mem_map.mpr ⟨c, hc, rfl⟩)))
  simp [hlast]

variable (h : Planned src streamID target chains chunks limit)
include h

theorem ok_iff {p : RestorePlan} : planRestore (some streamID) src target = .ok p ↔
    ∃ q, firstPlan (fun b => planFrom chunks b limit chains) none (candidates src.bases limit) = .ok q ∧
      Keyed src.hasKey q.base q.chunks ∧ p = { q with streamID, targetTime := target.time } := by
  have hplan : (fun b => planFrom (chunksOf (chains.map fun c => (c.chainID, chunks c.chainID))) b limit
      chains) = fun b => planFrom chunks b limit chains :=
    funext fun b => planFrom_congr fun c hc => chunksOf_map hc
  simp only [planRestore, bind, Except.bind, h.valid, h.listChains,
    byChain_eq h.listChunks fun c hc ch hch => h.live hc hch]
  rw [if_neg (not_lt.mpr h.le_newestEnd), hplan]
  rcases hfirst : firstPlan (fun b => planFrom chunks b limit chains) none (candidates src.bases limit)
    with (_ | e) | q
  · simp
  · simp
  · have hkeys : checkKeys { q with streamID, targetTime := target.time } src.hasKey = .ok () ↔
        Keyed src.hasKey q.base q.chunks := checkKeys_iff
    rcases hk : checkKeys { q with streamID, targetTime := target.time } src.hasKey with e | u
    · have hkeyed : ¬Keyed src.hasKey q.base q.chunks := by simp [← hkeys, hk]
      simp [hk, hkeyed]
    · have hkeyed : Keyed src.hasKey q.base q.chunks := hkeys.mp hk
      simp [hk, hkeyed, pure, Except.pure, eq_comm]

/-- The base of a plan is the first one tried that starts a run, and the keys are at hand. -/
theorem taken_of_ok {p : RestorePlan} (hp : planRestore (some streamID) src target = .ok p) :
    Starts chains chunks p.base limit p.chunks ∧ Keyed src.hasKey p.base p.chunks ∧
      ∃ first last, candidates src.bases limit = first ++ p.base :: last ∧
        ∀ x ∈ first, ∀ run, ¬Starts chains chunks x limit run := by
  have hord : ∀ c ∈ chains, Ordered (chunks c.chainID) := fun c hc => h.ordered hc
  obtain ⟨q, hq, hkeys, rfl⟩ := h.ok_iff.mp hp
  obtain ⟨first, b, last, hsplit, hfirst, hb⟩ := firstPlan_spec hq
  have hcand : ∀ x ∈ first ++ b :: last, x.tAfter.ts < limit := fun x hx =>
    (mem_candidates.mp (hsplit ▸ hx)).2.1
  obtain ⟨rfl, hstarts, -⟩ := starts_of_planFrom hord (hcand b (by simp)) hb
  refine ⟨hstarts, hkeys, first, last, hsplit, fun x hx run hrun => hfirst x hx ?_⟩
  obtain ⟨p, hp, -⟩ := planFrom_of_starts hord (hcand x (List.mem_append_left _ hx)) hrun
  exact ⟨p, hp⟩

theorem ok_of_starts {first last : List Base} {b : Base} {run : List Chunk}
    (hsplit : candidates src.bases limit = first ++ b :: last) (hrun : Starts chains chunks b limit run)
    (hkeyed : Keyed src.hasKey b run)
    (hkeys : ∀ x ∈ first, ∀ run, Starts chains chunks x limit run → Keyed src.hasKey x run) :
    ∃ p, planRestore (some streamID) src target = .ok p ∧ p.base ∈ first ++ [b] := by
  have hord : ∀ c ∈ chains, Ordered (chunks c.chainID) := fun c hc => h.ordered hc
  have hcand : ∀ x ∈ first ++ b :: last, x.tAfter.ts < limit := fun x hx =>
    (mem_candidates.mp (hsplit ▸ hx)).2.1
  obtain ⟨p, hp, rfl, rfl⟩ := planFrom_of_starts hord (hcand b (by simp)) hrun
  obtain ⟨x, hx, q, hq, hfirst⟩ :=
    firstPlan_upTo (fun b => planFrom chunks b limit chains) none first last ⟨p, hp⟩
  rw [← hsplit] at hfirst
  rcases List.mem_append.mp hx with hmem | hmem
  · obtain ⟨rfl, hstarts, -⟩ := starts_of_planFrom hord (hcand x (List.mem_append_left _ hmem)) hq
    exact ⟨_, h.ok_iff.mpr ⟨q, hfirst, hkeys _ hmem _ hstarts, rfl⟩, hx⟩
  · rw [List.mem_singleton.mp hmem, hp] at hq
    cases hq
    exact ⟨_, h.ok_iff.mpr ⟨p, hfirst, hkeyed, rfl⟩, by simp⟩

end Planned

/-! ## The newest base that qualifies -/

/-- `PlanRestore` takes the newest base that qualifies, and says that the oplog breaks, that a chunk
failed or that a key is missing only when none does. -/
structure TakesNewest (src : PlanSource) (streamID : String) (target : Target) (chains : List Chain)
    (chunks : String → List Chunk) (limit : Timestamp) : Prop where
  newest : (∃ b, Qualifies src chains chunks limit b) →
    ∃ p, planRestore (some streamID) src target = .ok p ∧ Qualifies src chains chunks limit p.base ∧
      ∀ q, Qualifies src chains chunks limit q → q.tAfter.ts ≤ p.base.tAfter.ts
  refused : ∀ why, planRestore (some streamID) src target = .error (.chainBreak why) ∨
      planRestore (some streamID) src target = .error (.chunkFailed why) ∨
      planRestore (some streamID) src target = .error (.keyMissing why) →
    ¬∃ b, Qualifies src chains chunks limit b

/-- The consistent point is before the limit, and `T_before` is known. -/
def Considered (limit : Timestamp) (b : Base) : Prop :=
  b.tAfter.ts < limit ∧ b.tBefore.ts.isZero = false

/-- `y` is tried before `b`, which is listed between `pre` and `post`: its consistent point is newer, or
the same and `y` is listed first. -/
def TriedFirst (limit : Timestamp) (pre post : List Base) (b y : Base) : Prop :=
  Considered limit y ∧
    (y ∈ pre ∧ b.tAfter.ts ≤ y.tAfter.ts ∨ y ∈ post ∧ b.tAfter.ts < y.tAfter.ts)

/-- Nothing is in the way of a base that qualifies: for one as new the first chunk listed that touches its
`T_before` starts a run to the limit whose keys are at hand, and so are those of every base that is tried
first and for which this chunk starts a run. -/
def Unobstructed (src : PlanSource) (chains : List Chain) (chunks : String → List Chunk)
    (limit : Timestamp) : Prop :=
  ∀ q, Qualifies src chains chunks limit q → ∃ pre b post run, src.bases = pre ++ b :: post ∧
    q.tAfter.ts ≤ b.tAfter.ts ∧ Considered limit b ∧ Starts chains chunks b limit run ∧
    Keyed src.hasKey b run ∧
    ∀ y, TriedFirst limit pre post b y → ∀ run, Starts chains chunks y limit run → Keyed src.hasKey y run

/-- The candidates before a base are those that are tried first. -/
theorem candidates_split {limit : Timestamp} {b : Base} (pre post : List Base) (hb : Considered limit b) :
    ∃ first last, candidates (pre ++ b :: post) limit = first ++ b :: last ∧
      ∀ y, y ∈ first ↔ TriedFirst limit pre post b y := by
  have : Std.Total fun a b : Base => b.tAfter.ts ≤ a.tAfter.ts := ⟨fun a b => le_total _ _⟩
  have : IsTrans Base fun a b => b.tAfter.ts ≤ a.tAfter.ts := ⟨fun _ _ _ h1 h2 => h2.trans h1⟩
  unfold candidates
  rw [List.filter_append, List.filter_cons_of_pos (by simp [hb.1, hb.2])]
  obtain ⟨first, last, hsplit, hfirst⟩ := Stable.insertionSort_split
    (r := fun a b : Base => b.tAfter.ts ≤ a.tAfter.ts)
    (pre.filter fun b => b.tAfter.ts < limit && !b.tBefore.ts.isZero)
    (post.filter fun b => b.tAfter.ts < limit && !b.tBefore.ts.isZero) b
  refine ⟨first, last, hsplit, fun y => ?_⟩
  rw [hfirst, List.mem_filter, List.mem_filter, TriedFirst, Considered]
  simp only [Bool.and_eq_true, decide_eq_true_eq, Bool.not_eq_true', not_le]
  tauto

section Newest

variable {src : PlanSource} {streamID : String} {target : Target} {chains : List Chain}
  {chunks : String → List Chunk} {limit : Timestamp}

theorem Planned.qualifies (h : Planned src streamID target chains chunks limit) {p : RestorePlan}
    (hp : planRestore (some streamID) src target = .ok p) : Qualifies src chains chunks limit p.base := by
  obtain ⟨hstarts, hkeys, first, last, hsplit, -⟩ := h.taken_of_ok hp
  obtain ⟨hbase, hlim, -⟩ := mem_candidates.mp (hsplit ▸ List.mem_append_right first List.mem_cons_self)
  obtain ⟨c, hfirst⟩ := hstarts.listed
  exact ⟨hbase, hlim, c, hfirst.sublist.1, _, hfirst.sublist.2, hstarts.unbroken, hkeys⟩

/-- No base that is tried before the one taken starts a run. -/
theorem Planned.first_taken (h : Planned src streamID target chains chunks limit) {p : RestorePlan}
    (hp : planRestore (some streamID) src target = .ok p) : ∃ pre post, src.bases = pre ++ p.base :: post ∧
      Considered limit p.base ∧
      ∀ y, TriedFirst limit pre post p.base y → ∀ run, ¬Starts chains chunks y limit run := by
  obtain ⟨hstarts, -, first, last, hsplit, hfirst⟩ := h.taken_of_ok hp
  obtain ⟨hbase, hcons⟩ := mem_candidates.mp (hsplit ▸ List.mem_append_right first List.mem_cons_self)
  obtain ⟨pre, post, hbases, hpre⟩ := List.eq_append_cons_of_mem hbase
  obtain ⟨first', last', hsplit', hiff⟩ := candidates_split pre post hcons
  refine ⟨pre, post, hbases, hcons, fun y hy => ?_⟩
  have hy := (hiff y).mpr hy
  rw [← hbases, hsplit] at hsplit'
  -- the first occurrence in the list is the first among the candidates
  rcases List.append_eq_append_iff.mp hsplit' with ⟨m, rfl, hm⟩ | ⟨m, rfl, -⟩
  · cases m with
    | nil => exact hfirst y (by simpa using hy)
    | cons x m =>
      obtain ⟨rfl, -⟩ := List.cons.inj hm
      rcases ((hiff p.base).mp (by simp)).2 with hb | hb
      · exact absurd hb.1 hpre
      · exact absurd hb.2 (lt_irrefl _)
  · exact hfirst y (List.mem_append_left _ hy)

/-- **When `PlanRestore` takes the newest base that qualifies.** -/
theorem planRestore_newest_iff (h : Planned src streamID target chains chunks limit) :
    TakesNewest src streamID target chains chunks limit ↔ Unobstructed src chains chunks limit := by
  constructor
  · intro hnew q hq
    obtain ⟨p, hp, -, hmax⟩ := hnew.newest ⟨q, hq⟩
    obtain ⟨hstarts, hkeys, -⟩ := h.taken_of_ok hp
    obtain ⟨pre, post, hbases, hcons, hfirst⟩ := h.first_taken hp
    exact ⟨pre, p.base, post, p.chunks, hbases, hmax q hq, hcons, hstarts, hkeys,
      fun y hy run hrun => absurd hrun (hfirst y hy run)⟩
  · intro hun
    have hok : ∀ q, Qualifies src chains chunks limit q →
        ∃ p, planRestore (some streamID) src target = .ok p ∧ q.tAfter.ts ≤ p.base.tAfter.ts := by
      intro q hq
      obtain ⟨pre, b, post, run, hbases, hle, hcons, hstarts, hkeyed, hkeys⟩ := hun q hq
      obtain ⟨first, last, hsplit, hfirst⟩ := candidates_split pre post hcons
      rw [← hbases] at hsplit
      obtain ⟨p, hp, hmem⟩ := h.ok_of_starts hsplit hstarts hkeyed fun x hx => hkeys x ((hfirst x).mp hx)
      refine ⟨p, hp, hle.trans ?_⟩
      rcases List.mem_append.mp hmem with hmem | hmem
      · rcases ((hfirst p.base).mp hmem).2 with hb | hb
        · exact hb.2
        · exact hb.2.le
      · rw [List.mem_singleton.mp hmem]
    refine ⟨fun hex => ?_, fun why herr hex => ?_⟩
    · obtain ⟨q, hq⟩ := hex
      obtain ⟨p, hp, -⟩ := hok q hq
      refine ⟨p, hp, h.qualifies hp, fun x hx => ?_⟩
      obtain ⟨p', hp', hle⟩ := hok x hx
      rw [hp] at hp'
      cases hp'
      exact hle
    · obtain ⟨q, hq⟩ := hex
      obtain ⟨p, hp, -⟩ := hok q hq
      rw [hp] at herr
      simp at herr

end Newest

/-! ## Two bases, and two chains that touch -/

/-- One chain from second 8 to 30, and two bases: the newer one is encrypted. -/
def twoBases (hasKey : Option (String → Bool)) : PlanSource where
  repo := (oneBase 10 11).repo
  bases := [{ id := "old", tBefore := ⟨⟨10, 0⟩, 1⟩, tAfter := ⟨⟨11, 0⟩, 1⟩ },
    { id := "new", tBefore := ⟨⟨12, 0⟩, 1⟩, tAfter := ⟨⟨14, 0⟩, 1⟩, encrypted := true,
      encryptionMode := "scrypt" }]
  hasKey

theorem twoBases_planned (hasKey : Option (String → Bool)) :
    Planned (twoBases hasKey) "s1" { ts := some ⟨25, 0⟩ } [{ chainID := "c1" }]
      (fun _ => [chunkOf "a" 8 20, chunkOf "b" 20 30]) ⟨25, 0⟩ where
  listChains := rfl
  listChunks := by
    intro c hc
    rw [List.mem_singleton.mp hc]
    rfl
  valid := rfl
  newest := ⟨_, List.mem_singleton_self _, _, rfl, by decide⟩

theorem twoBases_unobstructed : Unobstructed (twoBases (some fun _ => true)) [{ chainID := "c1" }]
    (fun _ => [chunkOf "a" 8 20, chunkOf "b" 20 30]) ⟨25, 0⟩ := by
  intro q hq
  have hle : ∀ x ∈ (twoBases (some fun _ => true)).bases, x.tAfter.ts ≤ ⟨14, 0⟩ := by decide
  refine ⟨[_], _, [], [chunkOf "a" 8 20, chunkOf "b" 20 30], rfl, hle q hq.1,
    ⟨by decide, rfl⟩, ?_, ?_, ?_⟩
  · refine ⟨⟨by decide, by decide, ⟨_, rfl, by decide⟩, ⟨_, rfl, by decide⟩, by decide⟩, by decide, _,
      ⟨_, rfl, by decide, by decide⟩, [], [], [], [], rfl, rfl, by simp, by simp⟩
  · exact ⟨rfl, by decide⟩
  · intro y hy
    rcases hy.2 with ⟨hmem, hnew⟩ | ⟨hmem, -⟩
    · rw [List.mem_singleton.mp hmem] at hnew
      exact absurd hnew (by decide)
    · cases hmem

theorem planRestore_newest_twoBases :
    TakesNewest (twoBases (some fun _ => true)) "s1" { ts := some ⟨25, 0⟩ } [{ chainID := "c1" }]
      (fun _ => [chunkOf "a" 8 20, chunkOf "b" 20 30]) ⟨25, 0⟩ ∧
    ∃ p, planRestore (some "s1") (twoBases (some fun _ => true)) { ts := some ⟨25, 0⟩ } = .ok p ∧
      p.base.id = "new" :=
  ⟨(planRestore_newest_iff (twoBases_planned _)).mpr twoBases_unobstructed, _, rfl, rfl⟩

/-- A chain from second 8 to 20, and one from 20 to 40. -/
def touching : Repository :=
  repoOf [{ chainID := "c1", endedAt := some 0 }, { chainID := "c2", start := ⟨20, 0⟩ }]
    [chunkOf "a" 8 20, { chunkOf "b" 20 40 with chainID := "c2" }] (by decide)

/-- The live chunks of the two chains. -/
def touchingChunks (id : String) : List Chunk :=
  if id = "c1" then [chunkOf "a" 8 20]
  else if id = "c2" then [{ chunkOf "b" 20 40 with chainID := "c2" }]
  else []

/-- Restores from the two chains, with every key at hand. -/
def touchingSource (records : List Backup.Record) : PlanSource where
  repo := touching
  bases := pitrBases records
  hasKey := some fun _ => true

/-- **The newest base that qualifies is missed.** Without a key the older of two bases qualifies, and
`PlanRestore` asks for the key of the newer one. Of two chains that touch at `T_before` the second takes
the base to the limit, and `PlanRestore` reports where the first ends. -/
theorem newest_base_missed : (Qualifies (twoBases none) [{ chainID := "c1" }]
        (fun _ => [chunkOf "a" 8 20, chunkOf "b" 20 30]) ⟨25, 0⟩
        { id := "old", tBefore := ⟨⟨10, 0⟩, 1⟩, tAfter := ⟨⟨11, 0⟩, 1⟩ } ∧
      planRestore (some "s1") (twoBases none) { ts := some ⟨25, 0⟩ } =
        .error (.keyMissing "base new is encrypted (scrypt)")) ∧
    (Qualifies (touchingSource [baseRecord 20 25])
        [{ chainID := "c1", endedAt := some 0 }, { chainID := "c2", start := ⟨20, 0⟩ }] touchingChunks
        ⟨30, 0⟩ { id := "b", tBefore := ⟨⟨20, 0⟩, 1⟩, tAfter := ⟨⟨25, 0⟩, 1⟩ } ∧
      ∃ why, planRestore (some "s1") (touchingSource [baseRecord 20 25]) { ts := some ⟨30, 0⟩ } =
        .error (.chainBreak why)) := by
  refine ⟨⟨⟨List.mem_cons_self, by decide, _, List.mem_singleton_self _, _, List.Sublist.refl _, ?_, ?_⟩,
    rfl⟩, ⟨List.mem_cons_self, by decide, _, List.mem_cons_of_mem _ (List.mem_singleton_self _), _,
    List.Sublist.refl _, ?_, ?_⟩, _, rfl⟩
  · exact ⟨by decide, by decide, ⟨_, rfl, by decide⟩, ⟨_, rfl, by decide⟩, by decide⟩
  · exact ⟨rfl, by decide⟩
  · exact ⟨by decide, by decide, ⟨_, rfl, by decide⟩, ⟨_, rfl, by decide⟩, by decide⟩
  · exact ⟨rfl, by decide⟩

end MongoRescue.PITR.Proof
