import MongoRescue.PITR.Proof.Plan
import MongoRescue.PITR.Retention

/-!
# Retention keeps the restores of kept bases

`planFrom_filter`: a plan depends only on the chunks of its run. What retention deletes of a chain with a
kept eligible base ends before that base's `T_before`, so the plans of the base from that chain stay as
they are.
-/

namespace MongoRescue.PITR.Proof

/-! ## Plans from fewer chunks -/

abbrev Ordered (l : List Chunk) : Prop := l.Pairwise fun x y => x.fromTS ≤ y.fromTS

variable {t : Timestamp} {l : List Chunk}

theorem dropWhile_filter {α : Type} {p keep : α → Bool} {l : List α}
    (h : ∀ x ∈ l, p x = false → keep x = true) :
    (l.filter keep).dropWhile p = (l.dropWhile p).filter keep := by
  induction l with
  | nil => rfl
  | cons x l ih =>
    have ih := ih fun y hy => h y (List.mem_cons_of_mem _ hy)
    by_cases hp : p x
    · rw [List.dropWhile_cons_of_pos hp, ← ih]
      by_cases hk : keep x
      · rw [List.filter_cons_of_pos hk, List.dropWhile_cons_of_pos hp]
      · rw [List.filter_cons_of_neg hk]
    · have hk := h x List.mem_cons_self (by simpa using hp)
      rw [List.filter_cons_of_pos hk, List.dropWhile_cons_of_neg hp, List.dropWhile_cons_of_neg hp,
        List.filter_cons_of_pos hk]

/-- No run starts at `t` when the chunks that end at or after it all start after it. -/
theorem runFrom_eq_nil_iff (hl : Ordered l) :
    runFrom t l = [] ↔ ∀ x ∈ l, t ≤ x.toTS → t < x.fromTS := by
  constructor
  · intro hnil x hx hto
    induction l with
    | nil => cases hx
    | cons y l ih =>
      obtain ⟨hy, hl'⟩ := List.pairwise_cons.mp hl
      by_cases hyt : y.toTS < t
      · have hrun : runFrom t (y :: l) = runFrom t l := by
          unfold runFrom
          rw [List.dropWhile_cons_of_pos (by simpa using hyt)]
        rcases List.mem_cons.mp hx with rfl | hx
        · exact absurd hyt (not_lt.mpr hto)
        · exact ih hl' (hrun ▸ hnil) hx
      · have hlt : t < y.fromTS := by
          unfold runFrom at hnil
          rw [List.dropWhile_cons_of_neg (by simpa using hyt)] at hnil
          by_contra hle
          simp [not_lt.mp hle] at hnil
        rcases List.mem_cons.mp hx with rfl | hx
        · exact hlt
        · exact lt_of_lt_of_le hlt (hy x hx)
  · intro h
    by_contra hne
    obtain ⟨pre, ch, rest, hsplit, -, -, hfrom, hto⟩ := runFrom_ne_nil hne
    exact absurd (h ch (by rw [hsplit]; simp) hto) (not_lt.mpr hfrom)

/-- A run keeps its chunks that end at or after its position. -/
theorem runFrom_filter {keep : Chunk → Bool} (h : ∀ x ∈ l, t ≤ x.toTS → keep x = true) :
    runFrom t (l.filter keep) = (runFrom t l).filter keep := by
  unfold runFrom
  rw [dropWhile_filter fun x hx hto => h x hx (by simpa using hto)]
  rcases hd : l.dropWhile (·.toTS < t) with _ | ⟨ch, rest⟩
  · rw [hd]
    rfl
  · rw [hd]
    have hto : t ≤ ch.toTS := by
      have := List.head_dropWhile_not (fun c : Chunk => decide (c.toTS < t)) (l := l) (by simp [hd])
      simpa [hd] using this
    have hmem : ch ∈ l := (List.dropWhile_suffix _).subset (hd ▸ List.mem_cons_self)
    rw [List.filter_cons_of_pos (h ch hmem hto)]
    dsimp only
    split
    · rw [List.filter_cons_of_pos (h ch hmem hto)]
    · rfl

/-- The walk goes on in the same way when only chunks that end before `t` are left out: each chunk it
takes ends after the one before. -/
theorem walk_filter {keep : Chunk → Bool} {prev : Chunk} {w : Walk} {p : RestorePlan}
    (hk : ∀ x ∈ l, t ≤ x.toTS → keep x = true) (hl : Ordered l) (ht : t ≤ prev.toTS)
    (hlim : prev.toTS < w.plan.limit) (h : walk (some prev) w l = .ok (some p)) :
    walk (some prev) w (l.filter keep) = .ok (some p) := by
  induction l generalizing prev w with
  | nil => exact h
  | cons ch rest ih =>
    obtain ⟨hch, hrest⟩ := List.pairwise_cons.mp hl
    rw [walk] at h
    rcases hadd : addChunk (some prev) w ch with e | w'
    · rw [hadd] at h
      cases h
    rw [hadd] at h
    simp only [bind, Except.bind] at h
    obtain ⟨hfrom, -, -, -, rfl⟩ := addChunk_ok_iff.mp hadd
    have hfrom := hfrom prev rfl
    by_cases hreach : (Walk.push w ch).plan.limit ≤ ch.toTS
    · have hkeep := hk ch List.mem_cons_self (ht.trans (hlim.le.trans hreach))
      rw [List.filter_cons_of_pos hkeep, walk, hadd]
      simp only [bind, Except.bind]
      rw [if_pos hreach] at h ⊢
      exact h
    · rw [if_neg hreach] at h
      have hto : t ≤ ch.toTS := by
        -- the chunk after this one starts where this one ends, and not before it
        cases rest with
        | nil => cases h
        | cons next more =>
          rw [walk] at h
          rcases hnext : addChunk (some ch) (Walk.push w ch) next with e | w''
          · rw [hnext] at h
            cases h
          have := (addChunk_ok_iff.mp hnext).1 ch rfl
          calc t ≤ prev.toTS := ht
            _ = ch.fromTS := hfrom
            _ ≤ next.fromTS := hch next List.mem_cons_self
            _ = ch.toTS := this.symm
      rw [List.filter_cons_of_pos (hk ch List.mem_cons_self hto), walk, hadd]
      simp only [bind, Except.bind]
      rw [if_neg hreach]
      exact ih (fun x hx => hk x (List.mem_cons_of_mem _ hx)) hrest hto (not_le.mp hreach) h

section PlanFrom

variable {byChain : String → List Chunk} {b : Base} {limit : Timestamp} {c : Chain} {rest : List Chain}

theorem planFrom_cons_nil (h : runFrom b.tBefore.ts (byChain c.chainID) = []) :
    planFrom byChain b limit (c :: rest) = planFrom byChain b limit rest := by
  rw [planFrom]
  dsimp only
  rw [h]

theorem planFrom_cons_run {p : RestorePlan} (hne : runFrom b.tBefore.ts (byChain c.chainID) ≠ [])
    (h : walk none ⟨{ chainID := c.chainID, base := b, limit }, false⟩
      (runFrom b.tBefore.ts (byChain c.chainID)) = .ok (some p)) :
    planFrom byChain b limit (c :: rest) = .ok p := by
  rw [planFrom]
  dsimp only
  rcases hrun : runFrom b.tBefore.ts (byChain c.chainID) with _ | ⟨ch, run⟩
  · exact absurd hrun hne
  · rw [hrun] at h
    dsimp only
    rw [h]
    rfl

end PlanFrom

/-- **A plan depends only on the chunks of its run**: it is found again when only chunks of its chain that
end before the base's `T_before` are left out, and any chunks of the other chains. -/
theorem planFrom_filter {byChain : String → List Chunk} {keep : String → Chunk → Bool} {b : Base}
    {limit : Timestamp} {chains : List Chain} {p : RestorePlan}
    (hord : ∀ c ∈ chains, Ordered (byChain c.chainID))
    (hk : ∀ x ∈ byChain p.chainID, b.tBefore.ts ≤ x.toTS → keep p.chainID x = true)
    (h : planFrom byChain b limit chains = .ok p) :
    planFrom (fun id => (byChain id).filter (keep id)) b limit chains = .ok p := by
  obtain ⟨pre, c, post, rfl, hpre, hne, hwalk⟩ := planFrom_ok h
  have hchain : p.chainID = c.chainID :=
    (walk_ok hwalk rfl ⟨by simp, by simp, rfl, rfl, by simp⟩ (by simp)).2.2.1
  have hrun : walk none ⟨{ chainID := c.chainID, base := b, limit }, false⟩
      ((runFrom b.tBefore.ts (byChain c.chainID)).filter (keep c.chainID)) = .ok (some p) := by
    rw [hchain] at hk
    obtain ⟨pre', ch, rest, hsplit, hrun, -, -, hto⟩ := runFrom_ne_nil hne
    have hmem : ∀ x ∈ ch :: rest, x ∈ byChain c.chainID := fun x hx => by
      rw [hsplit]
      exact List.mem_append_right _ hx
    have hord := hord c (by simp)
    rw [hsplit] at hord
    have hord : Ordered rest := (List.pairwise_cons.mp (List.pairwise_append.mp hord).2.1).2
    rw [hrun] at hwalk ⊢
    rw [List.filter_cons_of_pos (hk ch (hmem ch List.mem_cons_self) hto)]
    rw [walk] at hwalk ⊢
    rcases hadd : addChunk none ⟨{ chainID := c.chainID, base := b, limit }, false⟩ ch with e | w'
    · rw [hadd] at hwalk
      cases hwalk
    rw [hadd] at hwalk
    simp only [bind, Except.bind] at hwalk ⊢
    by_cases hreach : w'.plan.limit ≤ ch.toTS
    · rw [if_pos hreach] at hwalk ⊢
      exact hwalk
    · rw [if_neg hreach] at hwalk ⊢
      exact walk_filter (fun x hx => hk x (hmem x (List.mem_cons_of_mem _ hx))) hord hto
        (not_le.mp hreach) hwalk
  have hne' : runFrom b.tBefore.ts ((byChain c.chainID).filter (keep c.chainID)) ≠ [] := by
    rw [runFrom_filter (by rw [← hchain]; exact hk)]
    intro hnil
    rw [hnil] at hrun
    cases hrun
  clear h hwalk
  induction pre with
  | nil =>
    refine planFrom_cons_run hne' ?_
    rw [runFrom_filter (by rw [← hchain]; exact hk)]
    exact hrun
  | cons x pre ih =>
    rw [List.cons_append, planFrom_cons_nil]
    · exact ih (fun d hd => hord d (List.mem_cons_of_mem _ hd))
        fun y hy => hpre y (List.mem_cons_of_mem _ hy)
    · have hx := (runFrom_eq_nil_iff (hord x (by simp))).mp (hpre x List.mem_cons_self)
      refine (runFrom_eq_nil_iff ((hord x (by simp)).filter _)).mpr fun y hy => ?_
      exact hx y (List.mem_of_mem_filter hy)

/-! ## What is kept -/

section Kept

variable {now : Int} {st : Retention} {bases : List Backup.Record} {chains : List Chain}
  {chunks : String → List Chunk} {pins : PinSnapshot}

/-- What the store guarantees of the rows of a stream: IDs are unique, chains have one, and the chunks
of a chain are listed by their start. -/
structure Rows (bases : List Backup.Record) (chains : List Chain) (chunks : String → List Chunk) :
    Prop where
  baseIDs : (bases.map (·.id)).Nodup
  chainIDs : (chains.map (·.chainID)).Nodup
  named : ∀ c ∈ chains, c.chainID ≠ ""
  chunkIDs : (chains.flatMap fun c => (chunks c.chainID).map (·.id)).Nodup
  ordered : ∀ c ∈ chains, Ordered (chunks c.chainID)

variable {b : Backup.Record} {c : Chain} {ch : Chunk}

theorem mem_completedBases :
    b ∈ completedBases bases ↔ b ∈ bases ∧ b.status = .completed ∧ b.instanceScope = true := by
  rw [completedBases, List.mem_insertionSort, List.mem_filter]
  simp

theorem completedBases_ids (h : (bases.map (·.id)).Nodup) :
    ((completedBases bases).map (·.id)).Nodup := by
  have hp : (completedBases bases).Perm (bases.filter fun b => b.status = .completed && b.instanceScope) :=
    List.perm_insertionSort _ _
  exact (hp.map _).nodup_iff.mpr (h.sublist (List.filter_sublist.map _))

theorem eligible_completed (hb : b ∈ bases) (h : eligibleBase b = true) : b ∈ completedBases bases := by
  unfold eligibleBase at h
  simp only [Bool.and_eq_true, decide_eq_true_eq] at h
  exact mem_completedBases.mpr ⟨hb, h.1.1.1, h.1.1.2⟩

/-- A completed base that is not deleted was kept. -/
theorem mem_keptBases (hb : b ∈ completedBases bases)
    (hd : b.id ∉ (planRetention now st bases chains chunks pins).deleteBases) :
    b ∈ keptBases now st bases chains chunks pins := by
  obtain ⟨i, hi⟩ := List.mem_iff_getElem?.mp hb
  have hmem : (b, i) ∈ (completedBases bases).zipIdx := List.mk_mem_zipIdx_iff_getElem?.mpr hi
  refine List.mem_map.mpr ⟨(b, i), List.mem_filter.mpr ⟨hmem, ?_⟩, rfl⟩
  by_contra hkeep
  exact hd (List.mem_map.mpr ⟨(b, i), List.mem_filter.mpr ⟨hmem, by simpa using hkeep⟩, rfl⟩)

/-- A kept base is not deleted: no other base has its ID. -/
theorem not_mem_deleteBases (hrows : Rows bases chains chunks) {i : Nat}
    (hb : (completedBases bases)[i]? = some b)
    (hk : keepBase now st bases chains chunks pins b i = true) :
    b.id ∉ (planRetention now st bases chains chunks pins).deleteBases := by
  intro hd
  obtain ⟨⟨d, j⟩, hdj, hid⟩ := List.mem_map.mp hd
  obtain ⟨hmem, hnot⟩ := List.mem_filter.mp hdj
  have hdj' : (completedBases bases)[j]? = some d := List.mk_mem_zipIdx_iff_getElem?.mp hmem
  have hij : i = j := by
    have hnd := completedBases_ids hrows.baseIDs
    refine (List.getElem?_inj ?_ hnd).mp ?_
    · rw [List.length_map]
      exact (List.getElem?_eq_some_iff.mp hb).1
    · rw [List.getElem?_map, List.getElem?_map, hb, hdj']
      exact congrArg some hid.symm
  subst hij
  rw [hb, Option.some.injEq] at hdj'
  subst hdj'
  rw [hk] at hnot
  cases hnot

theorem kept_not_deleted (hrows : Rows bases chains chunks)
    (hb : b ∈ keptBases now st bases chains chunks pins) : b ∈ completedBases bases ∧
      b.id ∉ (planRetention now st bases chains chunks pins).deleteBases := by
  obtain ⟨⟨d, i⟩, hd, rfl⟩ := List.mem_map.mp hb
  obtain ⟨hmem, hk⟩ := List.mem_filter.mp hd
  have hget : (completedBases bases)[i]? = some d := List.mk_mem_zipIdx_iff_getElem?.mp hmem
  exact ⟨List.mem_of_getElem? hget, not_mem_deleteBases hrows hget hk⟩

theorem baseOf_points {base : Base} (h : baseOf b = some base) :
    b.tBefore = some base.tBefore ∧ b.tAfter = some base.tAfter := by
  cases h1 : b.tBefore with
  | none => simp [baseOf, h1] at h
  | some x =>
    cases h2 : b.tAfter with
    | none => simp [baseOf, h1, h2] at h
    | some y =>
      simp only [baseOf, h1, h2, Option.bind_eq_bind, Option.bind_some, Option.pure_def,
        Option.some.injEq] at h
      rw [← h]
      exact ⟨rfl, rfl⟩

/-- The loop that finds the oldest `T_before`: it never goes up. -/
theorem foldl_before_le {p : Backup.Record → Prop} [DecidablePred p] (l : List Backup.Record)
    {cur : Option Timestamp} {t : Timestamp} (hp : ∀ b, p b → b.tBefore.isSome)
    (h : (∃ c, cur = some c ∧ c ≤ t) ∨ ∃ b ∈ l, p b ∧ ∃ x, b.tBefore = some x ∧ x.ts ≤ t) :
    ∃ c, l.foldl (fun cur b => if p b then
        b.tBefore.map fun before => (cur.map (min before.ts)).getD before.ts
      else cur) cur = some c ∧ c ≤ t := by
  induction l generalizing cur with
  | nil =>
    rcases h with h | ⟨b, hb, -⟩
    · exact h
    · cases hb
  | cons a l ih =>
    rw [List.foldl_cons]
    refine ih ?_
    by_cases ha : p a
    · rw [if_pos ha]
      obtain ⟨x, hx⟩ := Option.isSome_iff_exists.mp (hp a ha)
      rcases h with ⟨c, rfl, hc⟩ | ⟨b, hb, hpb, y, hy, hle⟩
      · exact .inl ⟨min x.ts c, by rw [hx]; rfl, (min_le_right _ _).trans hc⟩
      · rcases List.mem_cons.mp hb with rfl | hb
        · rw [hx, Option.some.injEq] at hy
          subst hy
          cases cur with
          | none => exact .inl ⟨x.ts, by rw [hx]; rfl, hle⟩
          | some c => exact .inl ⟨min x.ts c, by rw [hx]; rfl, (min_le_left _ _).trans hle⟩
        · exact .inr ⟨b, hb, hpb, y, hy, hle⟩
    · rw [if_neg ha]
      rcases h with h | ⟨b, hb, hpb, hy⟩
      · exact .inl h
      · rcases List.mem_cons.mp hb with rfl | hb
        · exact absurd hpb ha
        · exact .inr ⟨b, hb, hpb, hy⟩

theorem eligible_before (h : eligibleBase b = true) : b.tBefore.isSome := by
  unfold eligibleBase at h
  simp only [Bool.and_eq_true] at h
  exact h.1.2

theorem keptBefore_le (hb : b ∈ keptBases now st bases chains chunks pins) (he : eligibleBase b = true)
    (hne : chainOf chains chunks b ≠ "") {before : OpTime} (ht : b.tBefore = some before) :
    ∃ cutoff, keptBefore now st bases chains chunks pins (chainOf chains chunks b) = some cutoff ∧
      cutoff ≤ before.ts :=
  foldl_before_le _ (fun _ h => eligible_before h.2.2)
    (.inr ⟨b, hb, ⟨rfl, hne, he⟩, before, ht, le_rfl⟩)

theorem keptBefore_eq_none {id : String}
    (h : ∀ b ∈ keptBases now st bases chains chunks pins, eligibleBase b = true →
      chainOf chains chunks b ≠ id) :
    keptBefore now st bases chains chunks pins id = none := by
  unfold keptBefore
  revert h
  generalize keptBases now st bases chains chunks pins = l
  intro h
  induction l with
  | nil => rfl
  | cons a l ih =>
    rw [List.foldl_cons, if_neg]
    · exact ih fun b hb => h b (List.mem_cons_of_mem _ hb)
    · intro hp
      exact h a List.mem_cons_self hp.2.2 hp.1

/-! ## What is deleted -/

/-- A chunk is deleted exactly when the rule for its chain says so. -/
theorem mem_deleteChunks (hrows : Rows bases chains chunks) (hc : c ∈ chains)
    (hch : ch ∈ chunks c.chainID) :
    ch.id ∈ (planRetention now st bases chains chunks pins).deleteChunks ↔
      deleteChunk now st bases chains chunks pins c ch = true := by
  constructor
  · intro hd
    obtain ⟨d, hd, hmem⟩ := List.mem_flatMap.mp hd
    obtain ⟨x, hx, hid⟩ := List.mem_map.mp hmem
    obtain ⟨hx, hdel⟩ := List.mem_filter.mp hx
    -- the IDs of two chunks of the stream differ
    obtain ⟨hnd, hdis⟩ := List.nodup_flatMap.mp hrows.chunkIDs
    have hcd : c = d := by
      by_contra hne
      have : Std.Symm (Function.onFun List.Disjoint fun c : Chain => (chunks c.chainID).map (·.id)) :=
        ⟨fun _ _ h _ hx hy => h hy hx⟩
      exact hdis.forall hc hd hne (List.mem_map_of_mem hch) (hid ▸ List.mem_map_of_mem hx)
    subst hcd
    have : x = ch := List.inj_on_of_nodup_map (hnd c hc) hx hch hid
    subst this
    exact hdel
  · intro hdel
    refine List.mem_flatMap.mpr ⟨c, hc, List.mem_map.mpr ⟨ch, List.mem_filter.mpr ⟨hch, hdel⟩, rfl⟩⟩

theorem maxAge_zero (h : st.oplogMaxDays ≤ 0) : (maxAge now st).isZero = true := by
  rw [maxAge, if_neg (not_lt.mpr h)]
  rfl

theorem live_kept (hage : st.oplogMaxDays ≤ 0) (hl : ch.live = true) {cutoff : Timestamp}
    (hcut : keptBefore now st bases chains chunks pins c.chainID = some cutoff) (hto : cutoff ≤ ch.toTS) :
    deleteChunk now st bases chains chunks pins c ch = false := by
  have hcommitted : ch.status = .committed := by
    simp only [Chunk.live, Bool.and_eq_true, decide_eq_true_eq] at hl
    exact hl.1
  unfold deleteChunk
  rw [hcut, maxAge_zero hage, hcommitted]
  simp [not_lt.mpr hto]

theorem superseded_of_deleted (hage : st.oplogMaxDays ≤ 0) (ho : c.isOpen = true)
    (hcut : keptBefore now st bases chains chunks pins c.chainID = none)
    (h : deleteChunk now st bases chains chunks pins c ch = true) : ch.status = .superseded := by
  unfold deleteChunk at h
  rw [hcut, maxAge_zero hage] at h
  simp [ho] at h
  exact h.2

/-- The chunks of a chain that can be restored from. -/
def liveChunks (chunks : String → List Chunk) (id : String) : List Chunk :=
  (chunks id).filter (·.live)

/-- The chunks that are left once those of a plan are removed. -/
def remaining (plan : RetentionPlan) (chunks : String → List Chunk) (id : String) : List Chunk :=
  (chunks id).filter fun ch => !plan.deleteChunks.contains ch.id

/-- **The plans of a kept base from the chain that covers it stay as they are.** -/
theorem planFrom_remaining (hrows : Rows bases chains chunks) (hage : st.oplogMaxDays ≤ 0)
    {r : Backup.Record} (hr : r ∈ keptBases now st bases chains chunks pins)
    (he : eligibleBase r = true) {b : Base} (hb : r.tBefore = some b.tBefore) {limit : Timestamp}
    {p : RestorePlan} (hp : planFrom (liveChunks chunks) b limit chains = .ok p)
    (hchain : p.chainID = chainOf chains chunks r) :
    planFrom (liveChunks (remaining (planRetention now st bases chains chunks pins) chunks)) b limit
      chains = .ok p := by
  obtain ⟨pre, c, post, hsplit, -, hne, hwalk⟩ := planFrom_ok hp
  have hc : c ∈ chains := by
    rw [hsplit]
    simp
  have hpc : p.chainID = c.chainID :=
    (walk_ok hwalk rfl ⟨by simp, by simp, rfl, rfl, by simp⟩ (by simp)).2.2.1
  obtain ⟨cutoff, hcut, hle⟩ := keptBefore_le hr he
    (by rw [← hchain, hpc]; exact hrows.named c hc) hb
  rw [← hchain, hpc] at hcut
  have hsame : liveChunks (remaining (planRetention now st bases chains chunks pins) chunks) = fun id =>
      (liveChunks chunks id).filter fun ch =>
        !(planRetention now st bases chains chunks pins).deleteChunks.contains ch.id := by
    funext id
    rw [liveChunks, remaining, List.filter_filter, liveChunks, List.filter_filter]
    exact List.filter_congr fun ch _ => Bool.and_comm _ _
  rw [hsame]
  refine planFrom_filter (fun d hd => (hrows.ordered d hd).filter _) ?_ hp
  intro x hx hto
  rw [hpc] at hx
  obtain ⟨hx, hl⟩ := List.mem_filter.mp hx
  have hkeep := live_kept hage hl hcut (hle.trans hto)
  rw [Bool.not_eq_true', List.contains_eq_mem, decide_eq_false_iff_not, mem_deleteChunks hrows hc hx, hkeep]
  exact Bool.false_ne_true

/-! ## The promise -/

/-- A newest eligible base that a chain covers. -/
structure Newest (bases : List Backup.Record) (chains : List Chain) (chunks : String → List Chunk)
    (r : Backup.Record) : Prop where
  mem : r ∈ bases
  eligible : eligibleBase r = true
  covered : chainOf chains chunks r ≠ ""
  newest : ∀ x ∈ bases, eligibleBase x = true → chainOf chains chunks x ≠ "" →
    x.startedAt ≤ r.startedAt

theorem completedBases_sorted (bases : List Backup.Record) :
    (completedBases bases).Pairwise fun a b => b.startedAt ≤ a.startedAt := by
  have : Std.Total fun a b : Backup.Record => b.startedAt ≤ a.startedAt := ⟨fun a b => le_total _ _⟩
  have : IsTrans Backup.Record fun a b => b.startedAt ≤ a.startedAt :=
    ⟨fun _ _ _ h1 h2 => le_trans h2 h1⟩
  exact List.pairwise_insertionSort _ _

theorem newest_kept (hrows : Rows bases chains chunks) {r : Backup.Record} (hr : r ∈ bases)
    (he : eligibleBase r = true) (hcov : chainOf chains chunks r ≠ "") :
    ∃ x, Newest bases chains chunks x ∧
      x.id ∉ (planRetention now st bases chains chunks pins).deleteBases := by
  let p := fun b => eligibleBase b && decide (chainOf chains chunks b ≠ "")
  have hp : ∀ {b}, p b = true ↔ eligibleBase b = true ∧ chainOf chains chunks b ≠ "" := by simp [p]
  rcases hf : (completedBases bases).find? p with _ | x
  · exact absurd (hp.mpr ⟨he, hcov⟩) (List.find?_eq_none.mp hf r (eligible_completed hr he))
  obtain ⟨hx, pre, post, hsplit, hpre⟩ := List.find?_eq_some_iff_append.mp hf
  have hnewest : newestEligible bases chains chunks = x.id := by
    rw [newestEligible, show (completedBases bases).find? _ = some x from hf]
    rfl
  have hget : (completedBases bases)[pre.length]? = some x := by
    rw [hsplit]
    simp
  refine ⟨x, ⟨(mem_completedBases.mp (List.mem_of_getElem? hget)).1, (hp.mp hx).1, (hp.mp hx).2, ?_⟩,
    not_mem_deleteBases hrows hget ?_⟩
  · intro y hy hye hyc
    have hmem := eligible_completed hy hye
    have hsorted := completedBases_sorted bases
    rw [hsplit] at hmem hsorted
    rcases List.mem_append.mp hmem with hy' | hy'
    · exact absurd (hp.mpr ⟨hye, hyc⟩) (by simpa using hpre y hy')
    · rcases List.mem_cons.mp hy' with rfl | hy'
      · exact le_rfl
      · exact (List.pairwise_cons.mp (List.pairwise_append.mp hsorted).2.1).1 y hy'
  · simp [keepBase, hnewest]

/-- What retention promises about what it keeps. -/
structure Keeps (bases : List Backup.Record) (chains : List Chain) (chunks : String → List Chunk)
    (pins : PinSnapshot) (plan : RetentionPlan) : Prop where
  /-- A kept base that its chain covers has the plans it had from that chain. -/
  restores : ∀ r ∈ bases, eligibleBase r = true → r.id ∉ plan.deleteBases →
    chainOf chains chunks r ≠ "" → ∀ b, baseOf r = some b → ∀ limit p,
      planFrom (liveChunks chunks) b limit chains = .ok p → p.chainID = chainOf chains chunks r →
        planFrom (liveChunks (remaining plan chunks)) b limit chains = .ok p
  newest : (∃ r ∈ bases, eligibleBase r = true ∧ chainOf chains chunks r ≠ "") →
    ∃ r, Newest bases chains chunks r ∧ r.id ∉ plan.deleteBases
  pinnedBase : ∀ r ∈ bases, r.pinned = true ∨ r.id ∈ pins.bases → r.id ∉ plan.deleteBases
  pinnedChunk : ∀ id ∈ pins.chunks, id ∉ plan.deleteChunks
  openChain : ∀ c ∈ chains, c.isOpen = true →
    (∀ r ∈ bases, eligibleBase r = true → r.id ∉ plan.deleteBases →
      chainOf chains chunks r ≠ c.chainID) →
    ∀ ch ∈ chunks c.chainID, ch.id ∈ plan.deleteChunks → ch.status = .superseded

/-- **Retention keeps the restores of the bases it keeps**, and what is pinned. -/
theorem retention_keeps (hrows : Rows bases chains chunks) (hage : st.oplogMaxDays ≤ 0) :
    Keeps bases chains chunks pins (planRetention now st bases chains chunks pins) := by
  refine ⟨?_, ?_, ?_, ?_, ?_⟩
  · intro r hr he hd _ b hb limit p hp hchain
    exact planFrom_remaining hrows hage (mem_keptBases (eligible_completed hr he) hd) he
      (baseOf_points hb).1 hp hchain
  · intro h
    obtain ⟨r, hr, he, hcov⟩ := h
    exact newest_kept hrows hr he hcov
  · intro r hr hpin hd
    obtain ⟨⟨d, i⟩, hdi, hid⟩ := List.mem_map.mp hd
    obtain ⟨hmem, hnot⟩ := List.mem_filter.mp hdi
    have hget : (completedBases bases)[i]? = some d := List.mk_mem_zipIdx_iff_getElem?.mp hmem
    have : d = r := List.inj_on_of_nodup_map hrows.baseIDs
      (mem_completedBases.mp (List.mem_of_getElem? hget)).1 hr hid
    subst this
    rcases hpin with hpin | hpin
    · simp [keepBase, hpin] at hnot
    · simp [keepBase, hpin] at hnot
  · intro id hid hd
    obtain ⟨c, -, hmem⟩ := List.mem_flatMap.mp hd
    obtain ⟨ch, hch, rfl⟩ := List.mem_map.mp hmem
    have hdel := (List.mem_filter.mp hch).2
    simp [deleteChunk, hid] at hdel
  · intro c hc ho hnone ch hch hd
    refine superseded_of_deleted hage ho (keptBefore_eq_none fun r hr he => ?_)
      ((mem_deleteChunks hrows hc hch).mp hd)
    obtain ⟨hmem, hkept⟩ := kept_not_deleted hrows hr
    exact hnone r (mem_completedBases.mp hmem).1 he hkept

end Kept

/-! ## A plan from another chain -/

/-- A completed base with the given `T_before` and `T_after`, both of the term 1. -/
def baseRecord (before after : UInt32) : Backup.Record :=
  { id := "b", scope := .wholeInstance, tBefore := some ⟨⟨before, 0⟩, 1⟩, tAfter := some ⟨⟨after, 0⟩, 1⟩ }

/-- Keep the newest base. -/
def keepOne : Retention := ⟨1, 0, 0⟩

/-- An open chain from second 2 to 30. -/
def openChunks (id : String) : List Chunk :=
  if id = "c1" then [chunkOf "x" 2 8, chunkOf "y" 8 20, chunkOf "z" 20 30] else []

theorem retention_keeps_run : ∃ b p, baseOf (baseRecord 10 12) = some b ∧
    (planRetention 0 keepOne [baseRecord 10 12] [{ chainID := "c1" }] openChunks {}).deleteChunks =
      ["x"] ∧
    planFrom (liveChunks openChunks) b ⟨25, 0⟩ [{ chainID := "c1" }] = .ok p ∧
    p.chunks.map (·.id) = ["y", "z"] ∧
    planFrom (liveChunks (remaining (planRetention 0 keepOne [baseRecord 10 12] [{ chainID := "c1" }]
      openChunks {}) openChunks)) b ⟨25, 0⟩ [{ chainID := "c1" }] = .ok p := by
  have hrows : Rows [baseRecord 10 12] [{ chainID := "c1" }] openChunks :=
    ⟨by decide, by decide, by decide, by decide, by decide⟩
  have hkeeps : Keeps [baseRecord 10 12] [{ chainID := "c1" }] openChunks {}
      (planRetention 0 keepOne [baseRecord 10 12] [{ chainID := "c1" }] openChunks {}) :=
    retention_keeps hrows (by decide)
  obtain ⟨p, hp, hids, hc⟩ : ∃ p, planFrom (liveChunks openChunks)
      ⟨"b", ⟨⟨10, 0⟩, 1⟩, ⟨⟨12, 0⟩, 1⟩, 0, false, "", 0⟩ ⟨25, 0⟩ [{ chainID := "c1" }] = .ok p ∧
      p.chunks.map (·.id) = ["y", "z"] ∧ p.chainID = "c1" := ⟨_, rfl, rfl, rfl⟩
  refine ⟨_, p, rfl, by decide, hp, hids, ?_⟩
  exact hkeeps.restores _ List.mem_cons_self (by decide) (by decide) (by decide) _ rfl _ p hp
    (hc.trans (by decide))

/-- An ended chain whose only chunk starts at second 10 in the term 2, and an open one through it in the
term 1. -/
def twoChains : List Chain :=
  [{ chainID := "c1", start := ⟨3, 0⟩, endedAt := some 0 }, { chainID := "c2", start := ⟨5, 0⟩ }]

def overlapping (id : String) : List Chunk :=
  if id = "c1" then [{ chunkOf "x" 10 20 with firstTerm := 2, lastTerm := 2 }]
  else if id = "c2" then [{ chunkOf "y" 5 15 with chainID := "c2" }]
  else []

/-- **A restore from a chain that does not cover the base is taken away**: the consistent point of the
base is the start of the chunk `x`, where a restore does not look at its term. Retention does, finds the
base in the open chain, and deletes the ended one. -/
theorem uncovered_plan_deleted : ∃ b p,
    Rows [baseRecord 10 10] twoChains overlapping ∧ eligibleBase (baseRecord 10 10) = true ∧
    chainOf twoChains overlapping (baseRecord 10 10) = "c2" ∧
    (planRetention 0 keepOne [baseRecord 10 10] twoChains overlapping {}).deleteBases = [] ∧
    baseOf (baseRecord 10 10) = some b ∧
    planFrom (liveChunks overlapping) b ⟨18, 0⟩ twoChains = .ok p ∧
    ∀ q, planFrom (liveChunks (remaining (planRetention 0 keepOne [baseRecord 10 10] twoChains
      overlapping {}) overlapping)) b ⟨18, 0⟩ twoChains ≠ .ok q := by
  refine ⟨_, _, ⟨by decide, by decide, by decide, by decide, by decide⟩, by decide, by decide, by decide,
    rfl, rfl, fun q hq => ?_⟩
  cases hq

end MongoRescue.PITR.Proof
