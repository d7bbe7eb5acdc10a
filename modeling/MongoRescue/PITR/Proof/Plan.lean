import MongoRescue.Lib.Errors
import MongoRescue.Lib.Range
import MongoRescue.PITR.Plan
import Mathlib.Data.List.Chain

/-!
# Restore plans are sound

`Sound`: what a plan that `planRestore` returns promises about its base, its chunks and its counts. The
walk over the chunks keeps `Built`, and ends with a plan whose last chunk alone reaches the limit; that
the chunks do not overlap comes from the order in which the repository lists them.
-/

namespace MongoRescue.PITR.Proof

open Range (Linked)

/-! ## The walk -/

/-- The chunk holds the consistent point of the base, in a term of its own. -/
def HoldsAfter (b : Base) (ch : Chunk) : Prop :=
  ch.fromTS < b.tAfter.ts ∧ b.tAfter.ts ≤ ch.toTS ∧
    (b.tAfter.term = 0 ∨ (ch.firstTerm ≤ b.tAfter.term ∧ b.tAfter.term ≤ ch.lastTerm))

def bytes (chunks : List Chunk) : Int64 := chunks.foldl (fun n ch => n + ch.sizeBytes) 0

/-- What the walk keeps about the plan it builds. -/
structure Built (w : Walk) : Prop where
  checked : ∀ ch ∈ w.plan.chunks, ch.verifyError = "" ∧ Go.blank ch.sha256 = false
  linked : w.plan.chunks.IsChain fun p ch => p.toTS = ch.fromTS
  bytes : w.plan.oplogBytes = bytes w.plan.chunks
  unverified : w.plan.unverifiedChunks = w.plan.chunks.countP (·.verifiedAt.isNone)
  term : w.termOK = true → ∃ ch ∈ w.plan.chunks, HoldsAfter w.plan.base ch

theorem holdsAfter_iff {b : Base} {ch : Chunk} :
    HoldsAfter b ch ↔ ch.holdsAfter b = true ∧ ch.otherTerm b = false := by
  unfold HoldsAfter Chunk.holdsAfter Chunk.otherTerm
  by_cases h0 : b.tAfter.term = 0 <;> simp [h0, and_assoc]

/-- The walk with one more chunk. -/
def Walk.push (w : Walk) (ch : Chunk) : Walk :=
  ⟨{ w.plan with
      chunks := w.plan.chunks ++ [ch]
      oplogBytes := w.plan.oplogBytes + ch.sizeBytes
      unverifiedChunks := w.plan.unverifiedChunks + (if ch.verifiedAt.isNone then 1 else 0) },
    w.termOK || ch.holdsAfter w.plan.base⟩

/-- A chunk is added exactly when it continues the one before and passes the checks. -/
theorem addChunk_ok_iff {prev : Option Chunk} {w w' : Walk} {ch : Chunk} :
    addChunk prev w ch = .ok w' ↔ (∀ q ∈ prev, q.toTS = ch.fromTS) ∧ Go.blank ch.sha256 = false ∧
      ch.verifyError = "" ∧ (w.termOK = false → ch.holdsAfter w.plan.base = true →
        ch.otherTerm w.plan.base = false) ∧ w' = Walk.push w ch := by
  fun_cases addChunk prev w ch
  case case1 q hq =>
    have hq := Option.filter_eq_some_iff.mp hq
    simp_all
  case case5 b hnone hsha hverify hterm =>
    have hprev : ∀ q ∈ prev, q.toTS = ch.fromTS := by simpa using Option.filter_eq_none_iff.mp hnone
    have hterm : w.termOK = false → ch.holdsAfter w.plan.base = true →
        ch.otherTerm w.plan.base = false := fun h1 h2 => by simpa [b, h1, h2] using hterm
    rw [Except.ok.injEq]
    exact ⟨fun h => ⟨hprev, by simpa using hsha, not_not.mp hverify, hterm, h.symm⟩,
      fun h => h.2.2.2.2.symm⟩
  case case4 b _ _ _ hterm =>
    simp only [Bool.and_eq_true, Bool.not_eq_true'] at hterm
    simp [hterm, b]
  all_goals simp_all

theorem Built.push {w : Walk} {ch : Chunk} (hw : Built w)
    (hprev : ∀ q ∈ w.plan.chunks.getLast?, q.toTS = ch.fromTS) (hsha : Go.blank ch.sha256 = false)
    (hverify : ch.verifyError = "") (hterm : w.termOK = false → ch.holdsAfter w.plan.base = true →
      ch.otherTerm w.plan.base = false) : Built (Walk.push w ch) := by
  refine ⟨?_, ?_, ?_, ?_, ?_⟩
  · intro c hc
    rcases List.mem_append.mp hc with hc | hc
    · exact hw.checked c hc
    · rw [List.mem_singleton.mp hc]
      exact ⟨hverify, hsha⟩
  · refine List.isChain_append.mpr ⟨hw.linked, by simp, ?_⟩
    intro x hx y hy
    have hy : ch = y := by simpa using hy
    exact hy ▸ hprev x hx
  · simp [Walk.push, Proof.bytes, List.foldl_append, hw.bytes]
  · simp only [Walk.push, List.countP_append, hw.unverified, List.countP_singleton]
  · intro ht
    cases h1 : w.termOK with
    | true =>
      obtain ⟨c, hc, hh⟩ := hw.term h1
      exact ⟨c, List.mem_append_left _ hc, hh⟩
    | false =>
      have h2 : ch.holdsAfter w.plan.base = true := by simpa [Walk.push, h1] using ht
      exact ⟨ch, by simp [Walk.push], holdsAfter_iff.mpr ⟨h2, hterm h1 h2⟩⟩

/-- A plan whose last chunk, and no other, reaches the limit. -/
structure Reaches (p : RestorePlan) : Prop where
  checked : ∀ ch ∈ p.chunks, ch.verifyError = "" ∧ Go.blank ch.sha256 = false
  linked : p.chunks.IsChain fun q ch => q.toTS = ch.fromTS
  last : ∃ pre ch, p.chunks = pre ++ [ch] ∧ p.limit ≤ ch.toTS ∧ ∀ c ∈ pre, c.toTS < p.limit
  term : ∀ ch, p.chunks.head? = some ch → ch.fromTS < p.base.tAfter.ts →
    ∃ c ∈ p.chunks, HoldsAfter p.base c
  count : p.chunkCount = p.chunks.length
  bytes : p.oplogBytes = bytes p.chunks
  unverified : p.unverifiedChunks = p.chunks.countP (·.verifiedAt.isNone)

variable {p : RestorePlan}

theorem finish_ok {w : Walk} (h : finish w = .ok p) :
    p = { w.plan with chunkCount := w.plan.chunks.length } ∧
      ∀ ch, w.plan.chunks.head? = some ch → ch.fromTS < w.plan.base.tAfter.ts →
        w.termOK = true := by
  revert h
  fun_cases finish w <;> intro h <;> cases h
  rename_i first hn
  refine ⟨rfl, fun ch hch hlt => ?_⟩
  simpa [first, hch, hlt] using hn

/-- The walk takes a first part of the chunks it is given. -/
theorem walk_ok {prev : Option Chunk} {w : Walk} {rest : List Chunk}
    (h : walk prev w rest = .ok (some p)) (hp : prev = w.plan.chunks.getLast?) (hw : Built w)
    (hb : ∀ ch ∈ w.plan.chunks, ch.toTS < w.plan.limit) :
    Reaches p ∧ p.base = w.plan.base ∧ p.chainID = w.plan.chainID ∧ p.limit = w.plan.limit ∧
      ∃ run tail, run ≠ [] ∧ rest = run ++ tail ∧ p.chunks = w.plan.chunks ++ run := by
  induction rest generalizing prev w with
  | nil => cases h
  | cons ch rest ih =>
    obtain ⟨w', hadd, h⟩ := Go.bind_ok h
    obtain ⟨hprev, hsha, hverify, hterm, rfl⟩ := addChunk_ok_iff.mp hadd
    have hw' := hw.push (hp ▸ hprev) hsha hverify hterm
    split at h
    · rename_i hreach
      obtain ⟨q, hfin, h⟩ := Go.bind_ok h
      cases h
      obtain ⟨rfl, hterm⟩ := finish_ok hfin
      refine ⟨⟨hw'.checked, hw'.linked, ⟨w.plan.chunks, ch, rfl, hreach, hb⟩, ?_, rfl, hw'.bytes,
        hw'.unverified⟩, rfl, rfl, rfl, [ch], rest, by simp, rfl, rfl⟩
      intro c hc hlt
      exact hw'.term (hterm c hc hlt)
    · rename_i hreach
      have hb' : ∀ c ∈ w.plan.chunks ++ [ch], c.toTS < w.plan.limit := by
        intro c hc
        rcases List.mem_append.mp hc with hc | hc
        · exact hb c hc
        · rw [List.mem_singleton.mp hc]
          exact not_le.mp hreach
      obtain ⟨hr, h1, h2, h3, run, tail, -, hrest, hchunks⟩ := ih h (by simp [Walk.push]) hw' hb'
      refine ⟨hr, h1, h2, h3, ch :: run, tail, by simp, ?_, ?_⟩
      · rw [hrest, List.cons_append]
      · rw [hchunks, Walk.push, List.append_assoc, List.singleton_append]

/-! ## Plans of one base -/

/-- A run starts at a chunk that holds the position. -/
theorem runFrom_ne_nil {t : Timestamp} {chunks : List Chunk} (h : runFrom t chunks ≠ []) :
    ∃ pre ch rest, chunks = pre ++ ch :: rest ∧ runFrom t chunks = ch :: rest ∧
      (∀ c ∈ pre, c.toTS < t) ∧ ch.fromTS ≤ t ∧ t ≤ ch.toTS := by
  unfold runFrom at h ⊢
  rcases hd : chunks.dropWhile (·.toTS < t) with _ | ⟨ch, rest⟩
  · simp [hd] at h
  · have hsplit := List.takeWhile_append_dropWhile (p := fun c : Chunk => decide (c.toTS < t))
      (l := chunks)
    rw [hd] at hsplit
    by_cases hle : ch.fromTS ≤ t
    · refine ⟨_, ch, rest, hsplit.symm, by simp [hd, hle], fun c hc => ?_, hle, ?_⟩
      · simpa using List.mem_takeWhile_imp hc
      · have := List.head_dropWhile_not (fun c : Chunk => decide (c.toTS < t)) (l := chunks)
          (by simp [hd])
        simpa [hd] using this
    · simp [hd, hle] at h

/-- A plan comes from the first chain that holds the base's `T_before`. -/
theorem planFrom_ok {byChain : String → List Chunk} {b : Base} {limit : Timestamp}
    {chains : List Chain} (h : planFrom byChain b limit chains = .ok p) :
    ∃ pre c post, chains = pre ++ c :: post ∧
      (∀ x ∈ pre, runFrom b.tBefore.ts (byChain x.chainID) = []) ∧
      runFrom b.tBefore.ts (byChain c.chainID) ≠ [] ∧
      walk none ⟨{ chainID := c.chainID, base := b, limit }, false⟩
        (runFrom b.tBefore.ts (byChain c.chainID)) = .ok (some p) := by
  fun_induction planFrom byChain b limit chains with
  | case1 => cases h
  | case2 c chains chunks hnil ih =>
    obtain ⟨pre, c', post, hc, hpre, hrest⟩ := ih h
    refine ⟨c :: pre, c', post, by rw [hc, List.cons_append], fun x hx => ?_, hrest⟩
    rcases List.mem_cons.mp hx with rfl | hx
    · exact hnil
    · exact hpre x hx
  | case3 c chains chunks hne =>
    obtain ⟨r, hw, h⟩ := Go.bind_ok h
    split at h <;> cases h
    exact ⟨[], c, chains, rfl, by simp, hne, hw⟩

/-- What a plan of one base is: a part of the chunks of its chain, from the one that holds `T_before`
up to the one that reaches the limit. -/
theorem planFrom_reaches {byChain : String → List Chunk} {b : Base} {limit : Timestamp}
    {chains : List Chain} (h : planFrom byChain b limit chains = .ok p) :
    Reaches p ∧ p.base = b ∧ p.limit = limit ∧ p.chunks.Sublist (byChain p.chainID) ∧
      ∃ ch, p.chunks.head? = some ch ∧ ch.fromTS ≤ b.tBefore.ts ∧ b.tBefore.ts ≤ ch.toTS := by
  obtain ⟨_, c, _, -, -, hne, hwalk⟩ := planFrom_ok h
  obtain ⟨pre, ch, rest, hsplit, hrun, -, hlo, hhi⟩ := runFrom_ne_nil hne
  have hb : Built ⟨{ chainID := c.chainID, base := b, limit }, false⟩ :=
    ⟨by simp, .nil, rfl, rfl, by simp⟩
  obtain ⟨hr, hbase, hchain, hlim, run, tail, hne', hrest, hchunks⟩ :=
    walk_ok hwalk rfl hb (by simp)
  simp only [List.nil_append] at hbase hchain hlim hchunks
  rw [hrun] at hrest
  refine ⟨hr, hbase, hlim, ?_, ch, ?_, hlo, hhi⟩
  · rw [hchain, hchunks, hsplit, hrest]
    exact (List.sublist_append_left run tail).trans (List.sublist_append_right pre _)
  · rw [hchunks]
    cases run with
    | nil => exact absurd rfl hne'
    | cons c' run =>
      rw [List.cons_append, List.cons.injEq] at hrest
      simp [hrest.1]

/-! ## Soundness -/

/-- What a plan promises about what it reads and what it counts. -/
structure Sound (src : PlanSource) (streamID : String) (target : Target) (p : RestorePlan) : Prop where
  limit : target.limit = .ok p.limit
  base : p.base ∈ src.bases
  /-- The chunks are live committed chunks of one chain, as the repository lists them. -/
  chunks : ∃ cs, src.repo.listChunks
      { streamID, chainID := p.chainID, status := some .committed, live := true } = some cs ∧
    ∀ ch ∈ p.chunks, ch ∈ cs ∧ ch.streamID = streamID ∧ ch.chainID = p.chainID ∧ ch.live = true
  checked : ∀ ch ∈ p.chunks, ch.verifyError = "" ∧ Go.blank ch.sha256 = false
  linked : p.chunks.IsChain fun q ch => q.toTS = ch.fromTS
  first : ∃ ch, p.chunks.head? = some ch ∧ ch.fromTS ≤ p.base.tBefore.ts ∧
    p.base.tBefore.ts ≤ ch.toTS
  last : ∃ pre ch, p.chunks = pre ++ [ch] ∧ p.limit ≤ ch.toTS ∧ ∀ c ∈ pre, c.toTS < p.limit
  /-- Every position the replay needs is in exactly one chunk. -/
  once : ∀ ts, p.base.tBefore.ts < ts → ts < p.limit →
    ∃! i : Nat, ∃ ch, p.chunks[i]? = some ch ∧ ch.fromTS < ts ∧ ts ≤ ch.toTS
  /-- The consistent point is before the limit, and not before the run when it is not before
  `T_before`. -/
  after : p.base.tAfter.ts < p.limit ∧ (p.base.tBefore.ts ≤ p.base.tAfter.ts →
    ∀ ch, p.chunks.head? = some ch → ch.fromTS ≤ p.base.tAfter.ts)
  term : ∀ ch, p.chunks.head? = some ch → ch.fromTS < p.base.tAfter.ts →
    ∃ c ∈ p.chunks, HoldsAfter p.base c
  keys : missingKey src.hasKey p.base.encrypted p.base.encryptionMode = false ∧
    ∀ ch ∈ p.chunks, missingKey src.hasKey ch.encrypted ch.encryptionMode = false
  count : p.chunkCount = p.chunks.length
  bytes : p.oplogBytes = bytes p.chunks
  unverified : p.unverifiedChunks = p.chunks.countP (·.verifiedAt.isNone)

/-- Consecutive chunks in the repository's order are a run of ranges. -/
theorem linked_of_isChain {cs : List Chunk} {first last : Chunk} {mid : List Chunk}
    (hl : cs.IsChain fun q ch => q.toTS = ch.fromTS) (ho : cs.Pairwise (·.fromTS ≤ ·.fromTS))
    (hc : cs = mid ++ [last]) (hf : cs.head? = some first) (hlast : last.fromTS ≤ last.toTS) :
    Linked first.fromTS (cs.map fun ch => (ch.fromTS, ch.toTS)) last.toTS := by
  induction mid generalizing cs first with
  | nil =>
    subst hc
    have : last = first := by simpa using hf
    subst this
    exact .cons hlast (.nil _)
  | cons c mid ih =>
    subst hc
    have : c = first := by simpa using hf
    subst this
    obtain ⟨d, hd⟩ : ∃ d, (mid ++ [last]).head? = some d := by
      cases mid <;> simp
    rw [List.cons_append] at hl ho
    have hcd : c.toTS = d.fromTS := by
      rcases hm : mid ++ [last] with _ | ⟨e, rest⟩
      · simp at hm
      · rw [hm] at hd hl
        have : e = d := by simpa using hd
        subst this
        exact (List.isChain_cons_cons.mp hl).1
    have hle : c.fromTS ≤ d.fromTS :=
      (List.pairwise_cons.mp ho).1 d (List.mem_of_mem_head? (by simp [hd]))
    have hrest := ih hl.tail (List.pairwise_cons.mp ho).2 rfl hd
    rw [List.cons_append, List.map_cons, hcd]
    exact .cons hle hrest

/-- The last chunk of a run is a range: it alone reaches the limit, or it is the one that holds `t`. -/
theorem last_from_le {cs pre : List Chunk} {ch first : Chunk} {limit t : Timestamp}
    (hl : cs.IsChain fun q ch => q.toTS = ch.fromTS) (hc : cs = pre ++ [ch]) (hreach : limit ≤ ch.toTS)
    (hb : ∀ c ∈ pre, c.toTS < limit) (hf : cs.head? = some first) (h1 : first.fromTS ≤ t)
    (h2 : t ≤ first.toTS) : ch.fromTS ≤ ch.toTS := by
  rcases List.eq_nil_or_concat pre with rfl | ⟨init, c, rfl⟩
  · have : ch = first := by simpa [hc] using hf
    subst this
    exact le_trans h1 h2
  · rw [hc, List.concat_eq_append, List.append_assoc, List.singleton_append,
      List.isChain_append_cons_cons] at hl
    rw [← hl.2.1]
    exact le_of_lt (lt_of_lt_of_le (hb c (by simp)) hreach)

/-- A plan of one base covers `(T_before, limit)` once. -/
theorem once_of_reaches (hr : Reaches p)
    (ho : p.chunks.Pairwise (·.fromTS ≤ ·.fromTS)) {first : Chunk} {t : Timestamp}
    (hf : p.chunks.head? = some first) (h1 : first.fromTS ≤ t) (h2 : t ≤ first.toTS) (ts : Timestamp)
    (hlo : t < ts) (hhi : ts < p.limit) :
    ∃! i : Nat, ∃ ch, p.chunks[i]? = some ch ∧ ch.fromTS < ts ∧ ts ≤ ch.toTS := by
  obtain ⟨pre, ch, hc, hreach, hb⟩ := hr.last
  have hl := linked_of_isChain hr.linked ho hc hf (last_from_le hr.linked hc hreach hb hf h1 h2)
  obtain ⟨i, ⟨q, hq, hh⟩, huniq⟩ := hl.existsUnique (lt_of_le_of_lt h1 hlo)
    (le_of_lt (lt_of_lt_of_le hhi hreach))
  rw [List.getElem?_map, Option.map_eq_some_iff] at hq
  obtain ⟨c, hci, rfl⟩ := hq
  refine ⟨i, ⟨c, hci, hh⟩, fun j hj => huniq j ?_⟩
  obtain ⟨d, hd, hdd⟩ := hj
  exact ⟨(d.fromTS, d.toTS), by rw [List.getElem?_map, hd]; rfl, hdd⟩

theorem checkKeys_ok {hasKey : Option (String → Bool)} {u : Unit} (h : checkKeys p hasKey = .ok u) :
    missingKey hasKey p.base.encrypted p.base.encryptionMode = false ∧
      ∀ ch ∈ p.chunks, missingKey hasKey ch.encrypted ch.encryptionMode = false := by
  revert h
  fun_cases checkKeys p hasKey <;> intro h <;> cases h
  rename_i hbase hnone
  refine ⟨by simpa using hbase, fun ch hch => ?_⟩
  simpa using List.find?_eq_none.mp hnone ch hch

theorem chunksOf_byChain {src : PlanSource} {streamID : String} {chains : List Chain}
    {bc : List (String × List Chunk)} (h : src.byChain streamID chains = .ok bc) {chainID : String}
    (hne : chunksOf bc chainID ≠ []) : ∃ cs, src.repo.listChunks
      { streamID, chainID, status := some .committed, live := true } = some cs ∧
        chunksOf bc chainID = cs.filter (·.live) := by
  induction chains generalizing bc with
  | nil =>
    cases h
    simp [chunksOf] at hne
  | cons c chains ih =>
    obtain ⟨live, hlive, h⟩ := Go.bind_ok h
    obtain ⟨rest, hrest, h⟩ := Go.bind_ok h
    cases h
    by_cases hid : c.chainID = chainID
    · subst hid
      unfold PlanSource.liveChunks at hlive
      split at hlive <;> cases hlive
      exact ⟨_, ‹_›, by simp [chunksOf]⟩
    · have heq : chunksOf ((c.chainID, live) :: rest) chainID = chunksOf rest chainID := by
        simp [chunksOf, hid]
      rw [heq] at hne ⊢
      exact ih hrest hne

theorem firstPlan_spec {plan : Base → Except PlanErr RestorePlan} {e : Option PlanErr}
    {bases : List Base} (h : firstPlan plan e bases = .ok p) :
    ∃ pre b post, bases = pre ++ b :: post ∧ (∀ x ∈ pre, ¬∃ q, plan x = .ok q) ∧ plan b = .ok p := by
  fun_induction firstPlan plan e bases with
  | case1 => cases h
  | case2 e b bases q hb =>
    cases h
    exact ⟨[], b, bases, rfl, by simp, hb⟩
  | case3 e b bases e' hb ih =>
    obtain ⟨pre, c, post, rfl, hpre, hc⟩ := ih h
    refine ⟨b :: pre, c, post, rfl, fun x hx => ?_, hc⟩
    rcases List.mem_cons.mp hx with rfl | hx
    · simp [hb]
    · exact hpre x hx

theorem mem_candidates {bases : List Base} {limit : Timestamp} {b : Base} :
    b ∈ candidates bases limit ↔ b ∈ bases ∧ b.tAfter.ts < limit ∧ b.tBefore.ts.isZero = false := by
  rw [candidates, List.mem_insertionSort, List.mem_filter]
  simp

/-- **A plan that `PlanRestore` returns is sound.** -/
theorem planRestore_sound {src : PlanSource} {streamID : String} {target : Target}
    {p : RestorePlan} (h : planRestore (some streamID) src target = .ok p) :
    Sound src streamID target p := by
  obtain ⟨limit, hlimit, h⟩ := Go.bind_ok h
  split at h
  · cases h
  obtain ⟨bc, hbc, h⟩ := Go.bind_ok h
  dsimp only at h
  split at h
  · split at h <;> cases h
  split at h
  · rename_i q hq
    obtain ⟨_, hkeys, h⟩ := Go.bind_ok h
    cases h
    obtain ⟨first, b, last, hsplit, -, hplan⟩ := firstPlan_spec hq
    obtain ⟨hbase, hafter, -⟩ := mem_candidates.mp (hsplit ▸ List.mem_append_right first List.mem_cons_self)
    obtain ⟨hr, rfl, rfl, hsub, first, hfirst, hlo, hhi⟩ := planFrom_reaches hplan
    have hne : chunksOf bc q.chainID ≠ [] := by
      intro hnil
      rw [hnil, List.sublist_nil] at hsub
      simp [hsub] at hfirst
    obtain ⟨cs, hcs, hlist⟩ := chunksOf_byChain hbc hne
    rw [hlist] at hsub
    have hord : q.chunks.Pairwise (·.fromTS ≤ ·.fromTS) :=
      (src.repo.ordered hcs).sublist (hsub.trans List.filter_sublist)
    refine ⟨hlimit, hbase, ⟨cs, hcs, fun ch hch => ?_⟩, hr.checked, hr.linked,
      ⟨first, hfirst, hlo, hhi⟩, hr.last, once_of_reaches hr hord hfirst hlo hhi,
      ⟨hafter, fun hle ch hch => ?_⟩, hr.term, checkKeys_ok hkeys, hr.count, hr.bytes, hr.unverified⟩
    · have hmem := List.mem_filter.mp (hsub.subset hch)
      have hsel := src.repo.selected hcs ch hmem.1
      simp only [ChunkQuery.selects, Bool.and_eq_true, decide_eq_true_eq] at hsel
      exact ⟨hmem.1, hsel.1.1.1.1.1, hsel.1.1.1.1.2, hmem.2⟩
    · have hch : first = ch := by
        rw [hfirst] at hch
        exact Option.some.inj hch
      subst hch
      exact le_trans hlo hle
  · cases h
  · cases h

/-! ## Two plans -/

/-- A repository over stored rows, in the order in which it lists them. -/
def repoOf (chains : List Chain) (rows : List Chunk) (h : rows.Pairwise (·.fromTS ≤ ·.fromTS)) :
    Repository where
  listChains := fun _ => some chains
  listChunks := fun q => some (rows.filter q.selects)
  selected := by
    intro q cs hcs c hc
    cases hcs
    exact (List.mem_filter.mp hc).2
  ordered := by
    intro q cs hcs
    cases hcs
    exact h.filter _

/-- A committed chunk of the chain `c1` from one second to another, in the term 1. -/
def chunkOf (id : String) (lo hi : UInt32) : Chunk :=
  { id, streamID := "s1", chainID := "c1", fromTS := ⟨lo, 0⟩, toTS := ⟨hi, 0⟩, firstTerm := 1,
    lastTerm := 1, sizeBytes := 7, sha256 := "ab" }

/-- One chain from second 8 to 30, and a base with the given `T_before` and `T_after`. -/
def oneBase (before after : UInt32) : PlanSource where
  repo := repoOf [{ chainID := "c1" }] [chunkOf "a" 8 20, chunkOf "b" 20 30] (by decide)
  bases := [{ id := "b1", tBefore := ⟨⟨before, 0⟩, 1⟩, tAfter := ⟨⟨after, 0⟩, 1⟩ }]

theorem planRestore_sound_twoChunks : ∃ p,
    planRestore (some "s1") (oneBase 10 12) { ts := some ⟨25, 0⟩ } = .ok p ∧ p.chunkCount = 2 ∧
      p.oplogBytes = 14 ∧ Sound (oneBase 10 12) "s1" { ts := some ⟨25, 0⟩ } p := by
  obtain ⟨p, h, hc, hb⟩ : ∃ p,
      planRestore (some "s1") (oneBase 10 12) { ts := some ⟨25, 0⟩ } = .ok p ∧
        p.chunkCount = 2 ∧ p.oplogBytes = 14 := ⟨_, rfl, rfl, by decide⟩
  exact ⟨p, h, hc, hb, planRestore_sound h⟩

/-- A base whose `T_after` is before its `T_before` is planned although the run starts after its
consistent point. -/
theorem planRestore_starts_late : ∃ p,
    planRestore (some "s1") (oneBase 10 5) { ts := some ⟨15, 0⟩ } = .ok p ∧
      ∃ ch, p.chunks.head? = some ch ∧ p.base.tAfter.ts < ch.fromTS :=
  ⟨_, rfl, _, rfl, by decide⟩

end MongoRescue.PITR.Proof
