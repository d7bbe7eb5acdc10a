import MongoRescue.HA.Retention
import MongoRescue.HA.Proof.Takeover
import Mathlib.Data.List.Nodup

/-!
# Retention never changes what a takeover restores

`prune` drops verified snapshots it does not keep and, once there is a verified one, legacy ones; the
first verified snapshot is always kept (`keptSnapshots_spec`) and nothing that sorts before a failed one
goes (`prune_cases`). The selection reads its lists off the listing (`foldl_add`), so the first
candidate, a failed one ahead of it and the highest authentic epoch stay as they are (`prune_retains`).
-/

namespace MongoRescue.HA.Proof.Retention

variable {cluster : String}

/-! ## The loop of keptSnapshots -/

section Kept

variable {current : UInt64} {keep : Nat} {st : Keeping} {sn : SnapshotInfo}

@[simp] theorem seeNewest_kept : (st.seeNewest sn).kept = st.kept := by
  unfold Keeping.seeNewest
  split <;> rfl

@[simp] theorem seeNewest_inEpoch : (st.seeNewest sn).inEpoch = st.inEpoch := by
  unfold Keeping.seeNewest
  split <;> rfl

theorem keepInEpoch_of_mem {k : String} (h : k ∈ st.kept) : k ∈ (st.keepInEpoch current keep sn).kept := by
  unfold Keeping.keepInEpoch
  split
  · exact List.mem_cons_of_mem _ h
  · exact h

theorem keepFirst_of_mem {k : String} {i : Nat} (h : k ∈ st.kept) : k ∈ (st.keepFirst keep sn i).kept := by
  unfold Keeping.keepFirst
  split
  · exact List.mem_cons_of_mem _ h
  · exact h

@[simp] theorem keepFirst_inEpoch {i : Nat} : (st.keepFirst keep sn i).inEpoch = st.inEpoch := by
  unfold Keeping.keepFirst
  split <;> rfl

@[simp] theorem keepFirst_newest {i : Nat} : (st.keepFirst keep sn i).newest = st.newest := by
  unfold Keeping.keepFirst
  split <;> rfl

@[simp] theorem keepInEpoch_newest : (st.keepInEpoch current keep sn).newest = st.newest := by
  unfold Keeping.keepInEpoch
  split <;> rfl

theorem keepOne_of_mem {k : String} {i : Nat} (h : k ∈ st.kept) :
    k ∈ (keepOne current keep st (sn, i)).kept := by
  rw [keepOne, seeNewest_kept]
  exact keepInEpoch_of_mem (keepFirst_of_mem h)

/-- The loop forgets no key. -/
theorem foldl_keepOne_of_mem {list : List (SnapshotInfo × Nat)} {k : String} (h : k ∈ st.kept) :
    k ∈ (list.foldl (keepOne current keep) st).kept := by
  induction list generalizing st with
  | nil => exact h
  | cons x list ih => exact ih (keepOne_of_mem h)

theorem keepOne_first {i : Nat} (h : i < keep) : sn.key ∈ (keepOne current keep st (sn, i)).kept := by
  rw [keepOne, seeNewest_kept]
  apply keepInEpoch_of_mem
  rw [Keeping.keepFirst, if_pos h]
  exact List.mem_cons_self

/-- The newest snapshots of the current epoch are kept, as many as there is room for. -/
theorem foldl_keepOne_inEpoch (list : List SnapshotInfo) (i : Nat) :
    ∀ x ∈ (list.filter (·.epoch = current)).take (keep - st.inEpoch),
      x.key ∈ ((list.zipIdx i).foldl (keepOne current keep) st).kept := by
  induction list generalizing st i with
  | nil => simp
  | cons sn list ih =>
    intro x hx
    rw [List.zipIdx_cons, List.foldl_cons]
    by_cases hc : sn.epoch = current ∧ st.inEpoch < keep
    · have hstep : (keepOne current keep st (sn, i)).inEpoch = st.inEpoch + 1 := by
        simp [keepOne, Keeping.keepInEpoch, hc]
      rw [List.filter_cons_of_pos (by simpa using hc.1),
        show keep - st.inEpoch = keep - (st.inEpoch + 1) + 1 by omega, List.take_succ_cons] at hx
      rcases List.mem_cons.mp hx with rfl | hx
      · refine foldl_keepOne_of_mem ?_
        simp [keepOne, Keeping.keepInEpoch, hc]
      · exact ih _ x (by rwa [hstep])
    · have hstep : (keepOne current keep st (sn, i)).inEpoch = st.inEpoch := by
        simp [keepOne, Keeping.keepInEpoch, hc]
      refine ih _ x ?_
      rw [hstep]
      by_cases hcur : sn.epoch = current
      · have hfull : keep - st.inEpoch = 0 := by
          have hle : ¬ st.inEpoch < keep := fun h => hc ⟨hcur, h⟩
          omega
        rw [hfull] at hx
        simp at hx
      · rwa [List.filter_cons_of_neg (by simpa using hcur)] at hx

/-- After a round the newest is at least as new as the one before and as this snapshot. -/
theorem keepOne_newest (i : Nat) : ∃ m, (keepOne current keep st (sn, i)).newest = some m ∧
    sn.createdAt ≤ m.createdAt ∧ (∀ n, st.newest = some n → n.createdAt ≤ m.createdAt) ∧
    (m = sn ∨ st.newest = some m) := by
  rw [keepOne, Keeping.seeNewest, keepInEpoch_newest, keepFirst_newest]
  cases hn : st.newest with
  | none => exact ⟨sn, rfl, le_rfl, by simp, .inl rfl⟩
  | some n =>
    by_cases h : n.createdAt < sn.createdAt
    · refine ⟨sn, by simp [h], le_rfl, ?_, .inl rfl⟩
      rintro _ ⟨⟩
      exact h.le
    · refine ⟨n, by simp [h, hn], not_lt.mp h, ?_, .inr rfl⟩
      rintro _ ⟨⟩
      exact le_rfl

theorem foldl_keepOne_newest (list : List SnapshotInfo) (i : Nat) {n : SnapshotInfo}
    (hn : st.newest = some n) :
    ∃ m, ((list.zipIdx i).foldl (keepOne current keep) st).newest = some m ∧
      n.createdAt ≤ m.createdAt ∧ (∀ x ∈ list, x.createdAt ≤ m.createdAt) ∧ (m = n ∨ m ∈ list) := by
  induction list generalizing st i n with
  | nil => exact ⟨n, hn, le_rfl, by simp, .inl rfl⟩
  | cons sn list ih =>
    obtain ⟨m, hm, hsn, hle, hfrom⟩ : ∃ m, (keepOne current keep st (sn, i)).newest = some m ∧ _ :=
      keepOne_newest i
    obtain ⟨m', hm', hmm, hlist, hfrom'⟩ := ih (i + 1) hm
    refine ⟨m', hm', (hle n hn).trans hmm, ?_, ?_⟩
    · intro x hx
      rcases List.mem_cons.mp hx with rfl | hx
      · exact hsn.trans hmm
      · exact hlist x hx
    · rcases hfrom' with rfl | h
      · rcases hfrom with rfl | h
        · exact .inr List.mem_cons_self
        · rw [hn] at h
          exact .inl (Option.some.inj h).symm
      · exact .inr (List.mem_cons_of_mem _ h)

/-- **Of a list that is not empty, retention keeps the first snapshot, the `keep` newest of the current
epoch and the newest by time.** -/
theorem keptSnapshots_spec (current : UInt64) {keep : Nat} (hkeep : 0 < keep) (sn : SnapshotInfo)
    (list : List SnapshotInfo) : sn.key ∈ keptSnapshots (sn :: list) current keep ∧
      (∀ x ∈ ((sn :: list).filter (·.epoch = current)).take keep,
        x.key ∈ keptSnapshots (sn :: list) current keep) ∧
      ∃ m ∈ sn :: list, m.key ∈ keptSnapshots (sn :: list) current keep ∧
        ∀ x ∈ sn :: list, x.createdAt ≤ m.createdAt := by
  have hkept {k : String} (h : k ∈ (((sn :: list).zipIdx).foldl (keepOne current keep) {}).kept) :
      k ∈ keptSnapshots (sn :: list) current keep := List.mem_append_right _ h
  refine ⟨hkept ?_, fun x hx => hkept (foldl_keepOne_inEpoch _ _ x hx), ?_⟩
  · rw [List.zipIdx_cons, List.foldl_cons]
    exact foldl_keepOne_of_mem (keepOne_first hkeep)
  · obtain ⟨m, hm, hsn, -, hfrom⟩ : ∃ m, (keepOne current keep {} (sn, 0)).newest = some m ∧ _ :=
      keepOne_newest 0
    obtain rfl : m = sn := hfrom.resolve_right (by simp)
    obtain ⟨m', hm', hmm, hlist, hfrom'⟩ := foldl_keepOne_newest list 1 hm
    refine ⟨m', ?_, ?_, ?_⟩
    · rcases hfrom' with rfl | h
      · exact List.mem_cons_self
      · exact List.mem_cons_of_mem _ h
    · refine List.mem_append_left _ ?_
      rw [List.zipIdx_cons, List.foldl_cons, hm']
      simp
    · intro x hx
      rcases List.mem_cons.mp hx with rfl | hx
      · exact hmm
      · exact hlist x hx

end Kept

/-! ## The lists of a selection -/

section Select

variable {c : SnapshotCheck cluster}

theorem not_legacy_of_verified (h : c.verified = true) : c.legacy = false := by
  simp only [SnapshotCheck.verified, Bool.and_eq_true, Option.isNone_iff_eq_none] at h
  simp [SnapshotCheck.legacy, h.1]

theorem not_refused_of_verified (h : c.verified = true) : c.refused = false := by
  simp only [SnapshotCheck.verified, Bool.and_eq_true, Option.isNone_iff_eq_none] at h
  simp [SnapshotCheck.refused, h.1]

theorem not_refused_of_legacy (h : c.legacy = true) : c.refused = false := by
  simp only [SnapshotCheck.legacy, decide_eq_true_eq] at h
  simp [SnapshotCheck.refused, h]

theorem add_lists (sel : SnapshotSelection cluster) (c : SnapshotCheck cluster) :
    (sel.add c).verified = sel.verified ++ [c].filter (·.verified) ∧
      (sel.add c).refused = sel.refused ++ [c].filter (·.refused) ∧
      (sel.add c).failed = sel.failed ++ [c].filter (·.failed) ∧
      (sel.add c).failedAhead = (sel.failedAhead || (c.failed && sel.verified.isEmpty)) := by
  unfold SnapshotSelection.add
  by_cases hv : c.verified = true
  · simp [hv, not_refused_of_verified hv, SnapshotCheck.failed]
  · by_cases hl : c.legacy = true
    · simp [hv, hl, not_refused_of_legacy hl, SnapshotCheck.failed]
    · by_cases hr : c.refused = true <;> simp [hv, hl, hr, SnapshotCheck.failed]

/-- **The lists of a selection, and whether a failed snapshot sorts before the first verified one.** -/
theorem foldl_add (checks : List (SnapshotCheck cluster)) (sel : SnapshotSelection cluster) :
    (checks.foldl .add sel).verified = sel.verified ++ checks.filter (·.verified) ∧
      (checks.foldl .add sel).refused = sel.refused ++ checks.filter (·.refused) ∧
      (checks.foldl .add sel).failed = sel.failed ++ checks.filter (·.failed) ∧
      (checks.foldl .add sel).failedAhead = (sel.failedAhead ||
        (sel.verified.isEmpty && (checks.takeWhile (!·.verified)).any (·.failed))) := by
  induction checks generalizing sel with
  | nil => simp
  | cons c checks ih =>
    obtain ⟨hv, hr, hf, ha⟩ := add_lists sel c
    obtain ⟨hv', hr', hf', ha'⟩ := ih (sel.add c)
    rw [List.foldl_cons, ← List.singleton_append, List.filter_append, List.filter_append,
      List.filter_append]
    refine ⟨by rw [hv', hv, List.append_assoc], by rw [hr', hr, List.append_assoc],
      by rw [hf', hf, List.append_assoc], ?_⟩
    rw [ha', ha, hv, List.singleton_append]
    by_cases hc : c.verified = true
    · have hcf : c.failed = false := by simp [SnapshotCheck.failed, hc]
      simp [hc, hcf]
    · simp only [Bool.not_eq_true] at hc
      cases hcf : c.failed <;> cases sel.verified <;> cases sel.failedAhead <;> simp [hc, hcf]

theorem select_lists (l : CheckedListing cluster) :
    l.select.verified = l.checks.filter (·.verified) ∧
      l.select.refused = l.checks.filter (·.refused) ∧
      l.select.failed = l.checks.filter (·.failed) ∧
      l.select.failedAhead = (l.checks.takeWhile (!·.verified)).any (·.failed) := by
  simpa [CheckedListing.select] using foldl_add l.checks { listed := l.checks.length }

/-! ## What is dropped -/

theorem le_foldl_max {α : Type} {f : α → Nat} {l : List α} {m : Int} :
    m ≤ l.foldl (fun m a => max m (f a : Int)) m ∧
      ∀ a ∈ l, (f a : Int) ≤ l.foldl (fun m a => max m (f a : Int)) m := by
  induction l generalizing m with
  | nil => simp
  | cons b l ih =>
    obtain ⟨hm, hl⟩ := @ih (max m (f b))
    refine ⟨(le_max_left _ _).trans hm, fun a ha => ?_⟩
    rcases List.mem_cons.mp ha with rfl | ha
    · exact (le_max_right _ _).trans hm
    · exact hl a ha

theorem le_lastFailed {checks : List (SnapshotCheck cluster)} {j : Nat} (h : checks[j]? = some c)
    (hf : c.failed = true) : (j : Int) ≤ lastFailed checks := by
  refine (le_foldl_max (f := fun c : SnapshotCheck cluster × Nat => c.2)).2 (c, j) ?_
  rw [List.mem_filter]
  exact ⟨List.mem_zipIdx_iff_getElem?.mpr h, hf⟩

theorem map_fst_filter_zipIdx (p : SnapshotCheck cluster → Bool) (checks : List (SnapshotCheck cluster)) :
    (checks.zipIdx.filter (fun x => p x.1)).map (·.1) = checks.filter p := by
  rw [show (fun x : SnapshotCheck cluster × Nat => p x.1) = p ∘ Prod.fst from rfl, ← List.filter_map,
    List.zipIdx_map_fst]

/-- What is dropped, and where it stands. -/
theorem mem_droppable {checks : List (SnapshotCheck cluster)} {current : UInt64} {keep i : Nat}
    (h : (c, i) ∈ droppable checks current keep) :
    checks[i]? = some c ∧ checks.filter (·.verified) ≠ [] ∧
      (c.verified = true ∧
          c.info.key ∉ keptSnapshots ((checks.filter (·.verified)).map (·.info)) current keep ∨
        c.legacy = true) := by
  have hinfos : (checks.zipIdx.filter (·.1.verified)).map (·.1.info) =
      (checks.filter (·.verified)).map (·.info) := by
    rw [← map_fst_filter_zipIdx, List.map_map]
    rfl
  have hne : checks.zipIdx.filter (·.1.verified) ≠ [] → checks.filter (·.verified) ≠ [] := by
    intro h1 h2
    rw [← map_fst_filter_zipIdx] at h2
    exact h1 (List.map_eq_nil_iff.mp h2)
  unfold droppable at h
  dsimp only at h
  rw [hinfos] at h
  rcases List.mem_append.mp h with h | h
  · obtain ⟨hv, hk⟩ := List.mem_filter.mp h
    have hmem := List.mem_filter.mp hv
    exact ⟨List.mem_zipIdx_iff_getElem?.mp hmem.1, hne (List.ne_nil_of_mem hv),
      .inl ⟨hmem.2, by simpa using hk⟩⟩
  · by_cases hlen : 0 < (checks.zipIdx.filter (·.1.verified)).length
    · rw [if_pos hlen, List.mem_filter] at h
      exact ⟨List.mem_zipIdx_iff_getElem?.mp h.1, hne (List.length_pos_iff.mp hlen), .inr h.2⟩
    · rw [if_neg hlen] at h
      cases h

/-- **A snapshot whose key is deleted is verified and not kept, or legacy beside a verified one, and no
failed one sorts after it.** -/
theorem pruned_cases {l : CheckedListing cluster} {current : UInt64} {cfgKeep : Int}
    (hc : c ∈ l.checks) (h : c.info.key ∈ prunedKeys l current cfgKeep) :
    l.checks.filter (·.verified) ≠ [] ∧
      (c.verified = true ∧ c.info.key ∉
          keptSnapshots ((l.checks.filter (·.verified)).map (·.info)) current (max cfgKeep 1).toNat ∨
        c.legacy = true) ∧
      ∃ i, l.checks[i]? = some c ∧ ∀ (j : Nat) (f : SnapshotCheck cluster), l.checks[j]? = some f →
        f.failed = true → j ≤ i := by
  obtain ⟨⟨d, i⟩, hd, hkey⟩ := List.mem_map.mp h
  obtain ⟨hd, hi⟩ := List.mem_filter.mp hd
  obtain ⟨hget, hne, hcase⟩ := mem_droppable hd
  obtain rfl : d = c := List.inj_on_of_nodup_map l.distinct (List.mem_of_getElem? hget) hc hkey
  refine ⟨hne, hcase, i, hget, fun j f hj hf => ?_⟩
  have hle := le_lastFailed hj hf
  have : lastFailed l.checks ≤ i := by simpa using hi
  omega

/-! ## What a takeover asks -/

/-- Removing neither the first verified snapshot nor a failed one keeps what is ahead. -/
theorem any_failed_ahead {checks : List (SnapshotCheck cluster)} {q : SnapshotCheck cluster → Bool}
    (hf : ∀ c ∈ checks, c.failed = true → q c = true)
    (hv : ∀ v, (checks.filter (·.verified)).head? = some v → q v = true) :
    ((checks.filter q).takeWhile (!·.verified)).any (·.failed) =
      (checks.takeWhile (!·.verified)).any (·.failed) := by
  induction checks with
  | nil => rfl
  | cons c checks ih =>
    have hf' : ∀ d ∈ checks, d.failed = true → q d = true := fun d hd => hf d (List.mem_cons_of_mem _ hd)
    by_cases hc : c.verified = true
    · have hq := hv c (by rw [List.filter_cons_of_pos hc]; rfl)
      rw [List.filter_cons_of_pos hq, List.takeWhile_cons_of_neg (by simp [hc]),
        List.takeWhile_cons_of_neg (by simp [hc])]
    · rw [List.filter_cons_of_neg hc] at hv
      rw [List.takeWhile_cons_of_pos (by simp [hc]), List.any_cons, ← ih hf' hv]
      by_cases hq : q c = true
      · rw [List.filter_cons_of_pos hq, List.takeWhile_cons_of_pos (by simp [hc]), List.any_cons]
      · have hcf : c.failed = false := by
          simpa using fun h => hq (hf c List.mem_cons_self h)
        rw [List.filter_cons_of_neg hq, hcf, Bool.false_or]

theorem header_of_verified (h : c.verified = true) : ∃ hd, c.header = some hd ∧ hd.epoch = c.info.epoch := by
  simp only [SnapshotCheck.verified, Bool.and_eq_true, Option.isNone_iff_eq_none] at h
  obtain ⟨hd, hhd, hv⟩ := c.agrees h.1
  exact ⟨hd, hhd, congrArg SnapshotMark.epoch (mark_of_verify hv)⟩

theorem max_epoch_of_le {a b : UInt64} (h : b ≤ a) : max a b = a := by
  change (if a ≤ b then b else a) = a
  split
  · exact UInt64.le_antisymm h ‹a ≤ b›
  · rfl

theorem maxEpoch_of_le {e : UInt64} {cs : List (SnapshotCheck cluster)}
    (h : ∀ c ∈ cs, ∀ hd, c.header = some hd → hd.epoch ≤ e) : SnapshotSelection.maxEpoch e cs = e := by
  induction cs with
  | nil => rfl
  | cons c cs ih =>
    have hstep : (c.header.elim e fun hd => max e hd.epoch) = e := by
      cases hh : c.header with
      | none => rfl
      | some hd => exact max_epoch_of_le (h c List.mem_cons_self hd hh)
    rw [SnapshotSelection.maxEpoch, List.foldl_cons, hstep]
    exact ih fun d hd => h d (List.mem_cons_of_mem _ hd)

theorem epoch_le_of_not_before {m o : SnapshotMark} (h : m.before o = false) : o.epoch ≤ m.epoch := by
  rw [SnapshotMark.before] at h
  by_cases heq : m.epoch = o.epoch
  · rw [heq]
    exact UInt64.le_refl _
  · rw [if_pos heq, decide_eq_false_iff_not] at h
    exact UInt64.not_lt.mp h

theorem maxEpoch_verified {v : SnapshotCheck cluster} {vs : List (SnapshotCheck cluster)}
    (hv : ∀ c ∈ v :: vs, c.verified = true)
    (hs : (v :: vs).Pairwise fun a b => !b.info.sortsBefore a.info) :
    SnapshotSelection.maxEpoch 0 (v :: vs) = v.info.epoch := by
  obtain ⟨hd, hhd, he⟩ := header_of_verified (hv v List.mem_cons_self)
  have hstart : SnapshotSelection.maxEpoch 0 (v :: vs) = SnapshotSelection.maxEpoch v.info.epoch vs := by
    rw [SnapshotSelection.maxEpoch, List.foldl_cons, hhd, SnapshotSelection.maxEpoch, ← he]
    congr 1
  rw [hstart]
  refine maxEpoch_of_le fun c hc hdc hhdc => ?_
  obtain ⟨hd', hhd', he'⟩ := header_of_verified (hv c (List.mem_cons_of_mem _ hc))
  obtain rfl : hd' = hdc := Option.some.inj (hhd'.symm.trans hhdc)
  rw [he']
  have hsort := (List.pairwise_cons.mp hs).1 c hc
  rw [Bool.not_eq_true', SnapshotInfo.sortsBefore] at hsort
  exact epoch_le_of_not_before hsort

/-- What retention leaves as it was. -/
structure Retains (l rest : CheckedListing cluster) (current : UInt64) (keep : Nat) : Prop where
  first : rest.select.candidates.1.head? = l.select.candidates.1.head?
  legacy : rest.select.candidates.2 = l.select.candidates.2
  failedAhead : rest.select.firstFailedAhead = l.select.firstFailedAhead
  authenticEpoch : rest.select.authenticEpoch = l.select.authenticEpoch
  newest : ∀ c ∈ l.checks, c.verified = true → ∃ m ∈ rest.checks, m.verified = true ∧
    ∀ d ∈ l.checks, d.verified = true → d.info.createdAt ≤ m.info.createdAt
  inEpoch : ∀ c ∈ ((l.checks.filter (·.verified)).filter (·.info.epoch = current)).take keep,
    c ∈ rest.checks
  refused : ∀ c ∈ l.checks, c.refused = true → c ∈ rest.checks
  failed : ∀ c ∈ l.checks, c.failed = true → c ∈ rest.checks
  ahead : ∀ (i j : Nat) (c f : SnapshotCheck cluster), l.checks[i]? = some c → l.checks[j]? = some f →
    f.failed = true → i < j → c ∈ rest.checks

section Prune

variable {l : CheckedListing cluster} {current : UInt64} {cfgKeep : Int} {deletes : String → Bool}

theorem mem_prune (hc : c ∈ l.checks) (h : c.info.key ∉ prunedKeys l current cfgKeep) :
    c ∈ (prune l current cfgKeep deletes).checks := by
  refine List.mem_filter.mpr ⟨hc, decide_eq_true fun hk => h (List.mem_filter.mp hk).1⟩

theorem without_nil (l : CheckedListing cluster) : l.without [] = l := by
  obtain ⟨checks, hs, hd⟩ := l
  simp [CheckedListing.without]

/-- Without a verified snapshot nothing is deleted. -/
theorem prunedKeys_of_none (h : l.checks.filter (·.verified) = []) : prunedKeys l current cfgKeep = [] := by
  rw [prunedKeys, List.map_eq_nil_iff, List.filter_eq_nil_iff]
  rintro ⟨c, i⟩ hc
  exact absurd h (mem_droppable hc).2.1

theorem not_pruned_of_kept (hc : c ∈ l.checks) (hv : c.verified = true) (hk : c.info.key ∈
      keptSnapshots ((l.checks.filter (·.verified)).map (·.info)) current (max cfgKeep 1).toNat) :
    c.info.key ∉ prunedKeys l current cfgKeep := by
  intro h
  rcases (pruned_cases hc h).2.1 with ⟨-, hn⟩ | hl
  · exact hn hk
  · rw [not_legacy_of_verified hv] at hl
    cases hl

theorem not_pruned_of_refused (hc : c ∈ l.checks) (hr : c.refused = true) :
    c.info.key ∉ prunedKeys l current cfgKeep := by
  intro h
  rcases (pruned_cases hc h).2.1 with ⟨hv, -⟩ | hl
  · rw [not_refused_of_verified hv] at hr
    cases hr
  · rw [not_refused_of_legacy hl] at hr
    cases hr

theorem not_pruned_of_failed (hc : c ∈ l.checks) (hf : c.failed = true) :
    c.info.key ∉ prunedKeys l current cfgKeep := by
  intro h
  rcases (pruned_cases hc h).2.1 with ⟨hv, -⟩ | hl
  · simp [SnapshotCheck.failed, hv] at hf
  · simp [SnapshotCheck.failed, hl] at hf

/-- Before a failed snapshot nothing is deleted. -/
theorem not_pruned_of_ahead {i j : Nat} {f : SnapshotCheck cluster} (hi : l.checks[i]? = some c)
    (hj : l.checks[j]? = some f) (hf : f.failed = true) (hij : i < j) :
    c.info.key ∉ prunedKeys l current cfgKeep := by
  intro h
  obtain ⟨-, -, i', hi', hlast⟩ := pruned_cases (List.mem_of_getElem? hi) h
  have hnd : l.checks.Nodup := List.Nodup.of_map _ l.distinct
  obtain ⟨hlt, -⟩ := List.getElem?_eq_some_iff.mp hi
  obtain rfl : i = i' := (List.getElem?_inj hlt hnd).mp (hi.trans hi'.symm)
  exact absurd (hlast j f hj hf) (by omega)

theorem filter_prune (p : SnapshotCheck cluster → Bool)
    (h : ∀ c ∈ l.checks, p c = true → c.info.key ∉ prunedKeys l current cfgKeep) :
    (prune l current cfgKeep deletes).checks.filter p = l.checks.filter p := by
  change (l.checks.filter _).filter p = _
  rw [List.filter_filter]
  refine List.filter_congr fun c hc => ?_
  by_cases hp : p c = true
  · have hk : c.info.key ∉ (prunedKeys l current cfgKeep).filter deletes :=
      fun hk => h c hc hp (List.mem_filter.mp hk).1
    simp [hp, hk]
  · simp [hp]

variable {vs : List (SnapshotCheck cluster)} {v : SnapshotCheck cluster}

theorem not_pruned_first
    (hv : l.checks.filter (·.verified) = v :: vs) : v.info.key ∉ prunedKeys l current cfgKeep := by
  have hmem : v ∈ l.checks.filter (·.verified) := hv ▸ List.mem_cons_self
  obtain ⟨hvl, hvv⟩ := List.mem_filter.mp hmem
  refine not_pruned_of_kept hvl hvv ?_
  rw [hv, List.map_cons]
  exact (keptSnapshots_spec current (by omega) v.info _).1

/-- The first verified snapshot stays the first. -/
theorem verified_prune (hv : l.checks.filter (·.verified) = v :: vs) :
    ∃ vs', (prune l current cfgKeep deletes).checks.filter (·.verified) = v :: vs' := by
  have hq : v.info.key ∉ (prunedKeys l current cfgKeep).filter deletes :=
    fun h => not_pruned_first hv (List.mem_filter.mp h).1
  change ∃ vs', (l.checks.filter _).filter _ = _
  rw [List.filter_comm, hv]
  refine ⟨_, List.filter_cons_of_pos ?_⟩
  exact decide_eq_true hq

theorem not_pruned_of_inEpoch
    (hc : c ∈ ((l.checks.filter (·.verified)).filter (·.info.epoch = current)).take
      (max cfgKeep 1).toNat) : c ∈ l.checks ∧ c.info.key ∉ prunedKeys l current cfgKeep := by
  have hmem := (List.mem_filter.mp (List.mem_of_mem_take hc)).1
  obtain ⟨hl, hverified⟩ := List.mem_filter.mp hmem
  refine ⟨hl, not_pruned_of_kept hl hverified ?_⟩
  rcases hv : l.checks.filter (·.verified) with _ | ⟨v, vs⟩
  · rw [hv] at hmem
    cases hmem
  rw [hv] at hc
  have htake : c.info ∈ (((v :: vs).map (·.info)).filter (·.epoch = current)).take (max cfgKeep 1).toNat := by
    rw [List.filter_map, ← List.map_take]
    exact List.mem_map_of_mem hc
  rw [hv, List.map_cons]
  exact (keptSnapshots_spec current (by omega) v.info (vs.map (·.info))).2.1 c.info htake

theorem exists_newest
    (hv : l.checks.filter (·.verified) = v :: vs) (current : UInt64) (cfgKeep : Int) :
    ∃ m ∈ l.checks, m.verified = true ∧ m.info.key ∉ prunedKeys l current cfgKeep ∧
      ∀ d ∈ l.checks, d.verified = true → d.info.createdAt ≤ m.info.createdAt := by
  obtain ⟨-, -, info, hinfo, hkept, hnewest⟩ :=
    keptSnapshots_spec current (show 0 < (max cfgKeep 1).toNat by omega) v.info (vs.map (·.info))
  rw [← List.map_cons (f := SnapshotCheck.info), ← hv] at hinfo hkept hnewest
  obtain ⟨m, hm, rfl⟩ := List.mem_map.mp hinfo
  obtain ⟨hml, hmv⟩ := List.mem_filter.mp hm
  refine ⟨m, hml, hmv, not_pruned_of_kept hml hmv hkept, fun d hd hdv => ?_⟩
  exact hnewest d.info (List.mem_map_of_mem (List.mem_filter.mpr ⟨hd, hdv⟩))

/-- A failed snapshot is ahead of the first verified one as before. -/
theorem failedAhead_prune :
    (prune l current cfgKeep deletes).select.failedAhead = l.select.failedAhead := by
  rw [(select_lists _).2.2.2, (select_lists l).2.2.2]
  refine any_failed_ahead (fun c hc hf => ?_) fun v hv => ?_
  · exact decide_eq_true fun h => not_pruned_of_failed hc hf (List.mem_filter.mp h).1
  · obtain ⟨vs, hvs⟩ := List.head?_eq_some_iff.mp hv
    exact decide_eq_true fun h => not_pruned_first hvs (List.mem_filter.mp h).1

/-- With a verified snapshot, what a takeover asks depends on the first one alone, the refused and the
failed ones. -/
theorem asks_of_verified {l : CheckedListing cluster}
    (hv : l.checks.filter (·.verified) = v :: vs) :
    l.select.candidates.1.head? = (if l.select.failedAhead then none else some v) ∧
      l.select.candidates.2 = false ∧
      l.select.authenticEpoch = (SnapshotSelection.maxEpoch v.info.epoch
        ((l.checks.filter (·.refused)).filter (·.header.any (·.cluster = cluster))),
        !l.select.failedAhead) := by
  obtain ⟨hverified, hrefused, -, -⟩ := select_lists l
  rw [hv] at hverified
  have hcand : l.select.candidates = if l.select.failedAhead then ([], false) else (v :: vs, false) := by
    rw [SnapshotSelection.candidates, hverified]
    rfl
  have hlegacy : l.select.candidates.2 = false := by
    rw [hcand]
    split <;> rfl
  have hmax : SnapshotSelection.maxEpoch 0 (v :: vs) = v.info.epoch := by
    rw [← hv]
    refine hv ▸ maxEpoch_verified (fun c hc => ?_) (hv ▸ l.sorted.filter _)
    exact (List.mem_filter.mp (hv ▸ hc)).2
  refine ⟨?_, hlegacy, ?_⟩
  · rw [hcand]
    split <;> rfl
  · rw [SnapshotSelection.authenticEpoch, hlegacy, hverified, hrefused, hmax]
    simp

/-- **After pruning, whichever deletes fail, a takeover decides as it did before, and what retention
promises is there.** -/
theorem prune_retains (l : CheckedListing cluster) (current : UInt64) (cfgKeep : Int)
    (deletes : String → Bool) :
    Retains l (prune l current cfgKeep deletes) current (max cfgKeep 1).toNat := by
  have hfailed : (prune l current cfgKeep deletes).select.failed = l.select.failed := by
    rw [(select_lists _).2.2.1, (select_lists l).2.2.1]
    exact filter_prune _ fun c hc => not_pruned_of_failed hc
  have hahead : (prune l current cfgKeep deletes).select.firstFailedAhead = l.select.firstFailedAhead := by
    rw [SnapshotSelection.firstFailedAhead, SnapshotSelection.firstFailedAhead, hfailed,
      failedAhead_prune]
  have hrefused (c : SnapshotCheck cluster) (hc : c ∈ l.checks) (h : c.refused = true) :
      c ∈ (prune l current cfgKeep deletes).checks := mem_prune hc (not_pruned_of_refused hc h)
  have hfail (c : SnapshotCheck cluster) (hc : c ∈ l.checks) (h : c.failed = true) :
      c ∈ (prune l current cfgKeep deletes).checks := mem_prune hc (not_pruned_of_failed hc h)
  have hbefore (i j : Nat) (c f : SnapshotCheck cluster) (hi : l.checks[i]? = some c)
      (hj : l.checks[j]? = some f) (hf : f.failed = true) (hij : i < j) :
      c ∈ (prune l current cfgKeep deletes).checks :=
    mem_prune (List.mem_of_getElem? hi) (not_pruned_of_ahead hi hj hf hij)
  rcases hv : l.checks.filter (·.verified) with _ | ⟨v, vs⟩
  · -- nothing is deleted
    have hsame : prune l current cfgKeep deletes = l := by
      rw [prune, prunedKeys_of_none hv]
      exact without_nil l
    refine ⟨by rw [hsame], by rw [hsame], hahead, by rw [hsame], fun c hc hcv => ?_, ?_, hrefused, hfail,
      hbefore⟩
    · exact absurd (List.mem_filter.mpr ⟨hc, hcv⟩) (by simp [hv])
    · simp [hv]
  · obtain ⟨vs', hv'⟩ : ∃ vs', (prune l current cfgKeep deletes).checks.filter (·.verified) = v :: vs' :=
      verified_prune hv
    obtain ⟨hfirst, hlegacy, hepoch⟩ := asks_of_verified hv
    obtain ⟨hfirst', hlegacy', hepoch'⟩ := asks_of_verified hv'
    rw [failedAhead_prune] at hfirst' hepoch'
    rw [filter_prune _ fun c hc => not_pruned_of_refused hc] at hepoch'
    refine ⟨hfirst'.trans hfirst.symm, hlegacy'.trans hlegacy.symm, hahead, hepoch'.trans hepoch.symm,
      fun _ _ _ => ?_, fun c hc => ?_, hrefused, hfail, hbefore⟩
    · obtain ⟨m, hm, hmv, hkey, hnewest⟩ := exists_newest hv current cfgKeep
      exact ⟨m, mem_prune hm hkey, hmv, hnewest⟩
    · obtain ⟨hl, hkey⟩ := not_pruned_of_inEpoch hc
      exact mem_prune hl hkey

end Prune

end Select

/-! ## What the checker selects from -/

theorem checkSnapshot_key (info : SnapshotInfo) (r : Retrieved) :
    (checkSnapshot cluster info r).info.key = info.key := by
  unfold checkSnapshot
  split <;> rfl

theorem checkCached_key (cache : SnapshotCache cluster) (info : SnapshotInfo) (r : Retrieved) :
    (checkCached cache info r).1.info.key = info.key := by
  unfold checkCached
  rcases hf : cache.find? (·.info.key = info.key) with _ | old
  · rw [hf]
    exact checkSnapshot_key info r
  · rw [hf]
    simpa using List.find?_some hf

/-- Selecting every snapshot adds one outcome after the other. -/
theorem selectSnapshots_all (retrieve : String → Retrieved) (list : List SnapshotInfo)
    (sel : SnapshotSelection cluster) (cache : SnapshotCache cluster) :
    ∃ checks : List (SnapshotCheck cluster), checks.map (·.info.key) = list.map (·.key) ∧
      (selectSnapshots 0 retrieve list sel cache).1 = checks.foldl .add sel := by
  induction list generalizing sel cache with
  | nil => exact ⟨[], rfl, rfl⟩
  | cons info list ih =>
    have hkey := checkCached_key cache info (retrieve info.key)
    obtain ⟨checks, hkeys, heq⟩ := ih (sel.add (checkCached cache info (retrieve info.key)).1)
      (checkCached cache info (retrieve info.key)).2
    refine ⟨(checkCached cache info (retrieve info.key)).1 :: checks, ?_, ?_⟩
    · rw [List.map_cons, List.map_cons, hkey, hkeys]
    · rw [List.foldl_cons, ← heq]
      rfl

/-- **What the checker selects from a listing of distinct keys is the selection of a checked listing.** -/
theorem select_eq {objs : List StoredObject} {list : List SnapshotInfo}
    (hlist : IsListing cluster objs list) (hkeys : (list.map (·.key)).Nodup)
    (cache : SnapshotCache cluster) (retrieve : String → Retrieved) :
    ∃ l : CheckedListing cluster, l.checks.map (·.info.key) = list.map (·.key) ∧
      (cache.select list 0 retrieve).1 = l.select := by
  obtain ⟨checks, hchecks, heq⟩ := selectSnapshots_all retrieve list { listed := list.length }
    (cache.filter fun old => (list.reverse.find? (·.key = old.info.key)).any (sameObject old.info))
  -- the rank of a snapshot is read from its key
  have hmark (a : SnapshotInfo) : some a.mark = (parseSnapshotKey a.key).map fun t => ⟨t.2, t.1⟩ := by
    rw [a.named]
    rfl
  have hmarks : checks.map (·.info.mark) = list.map (·.mark) := by
    refine List.map_injective_iff.mpr (Option.some_injective _) ?_
    have hread := congrArg (List.map fun k => (parseSnapshotKey k).map fun t =>
      (⟨t.2, t.1⟩ : SnapshotMark)) hchecks
    simpa [List.map_map, Function.comp_def, hmark] using hread
  have hsorted : checks.Pairwise fun a b => !b.info.sortsBefore a.info := by
    have h := hlist.2
    have hmap : (list.map (·.mark)).Pairwise fun a b => !a.before b := List.pairwise_map.mpr h
    rw [← hmarks] at hmap
    exact List.pairwise_map.mp hmap
  refine ⟨⟨checks, hsorted, hchecks ▸ hkeys⟩, hchecks, heq.trans ?_⟩
  have hlen : list.length = checks.length := by
    simpa using (congrArg List.length hchecks).symm
  rw [CheckedListing.select, hlen]

end MongoRescue.HA.Proof.Retention
