import MongoRescue.PITR.Proof.Newest

/-!
# Which windows can be restored

`Status` takes its windows from the usable segments of the chains; `planFrom` walks from the first chunk
listed that touches the base's `T_before`. `advertised_iff`: the windows hold the positions after an
eligible base's `T_after` up to the end of the segment that covers it. All of them can be restored, whichever
bases are left, exactly when that first chunk is in the segment for every base (`windows_restorable_iff`).
-/

namespace MongoRescue.PITR.Proof

/-! ## Segments -/

/-- A segment's chunks are usable and linked, from its start to its end. -/
structure Segment.Valid (s : Segment) : Prop where
  usable : ∀ c ∈ s.chunks, c.live = true ∧ c.verifyError = ""
  linked : s.chunks.IsChain fun p c => p.toTS = c.fromTS
  first : ∀ c, s.chunks.head? = some c → s.fromTS = c.fromTS
  last : ∃ pre c, s.chunks = pre ++ [c] ∧ s.toTS = c.toTS

namespace Segment.Valid

theorem single {c : Chunk} (hl : c.live = true) (hv : c.verifyError = "") :
    Segment.Valid (.single c) := by
  refine ⟨fun x hx => ?_, ?_, fun x hx => ?_, ⟨[], c, rfl, rfl⟩⟩
  · rw [List.mem_singleton.mp hx]
    exact ⟨hl, hv⟩
  · exact List.isChain_singleton c
  · have : c = x := by simpa [Segment.single] using hx
    rw [← this]
    rfl

theorem add {s : Segment} {c : Chunk} (h : Segment.Valid s) (hl : c.live = true)
    (hv : c.verifyError = "") (hfrom : c.fromTS = s.toTS) : Segment.Valid (s.add c) := by
  obtain ⟨pre, d, hpre, hto⟩ := h.last
  refine ⟨fun x hx => ?_, ?_, fun x hx => ?_, ⟨s.chunks, c, rfl, rfl⟩⟩
  · rcases List.mem_append.mp hx with hx | hx
    · exact h.usable x hx
    · rw [List.mem_singleton.mp hx]
      exact ⟨hl, hv⟩
  · refine List.isChain_append.mpr ⟨h.linked, List.isChain_singleton c, fun x hx y hy => ?_⟩
    have hx : d = x := by simpa [hpre] using hx
    have hy : c = y := by simpa using hy
    rw [← hx, ← hy, ← hto, hfrom]
  · refine h.first x ?_
    unfold Segment.add at hx
    rw [hpre] at hx ⊢
    cases pre <;> simpa using hx

end Segment.Valid

section SegmentsFrom

variable {cur : Option Segment} {s : Segment} {c : Chunk} {l : List Chunk}

theorem segmentsFrom_sound (hcur : ∀ t ∈ cur, Segment.Valid t) (h : s ∈ segmentsFrom cur l) :
    Segment.Valid s ∧ ∃ a b, (cur.map (·.chunks)).getD [] ++ l.filter (·.live) = a ++ s.chunks ++ b := by
  fun_induction segmentsFrom cur l with
  | case1 cur =>
    rw [Option.mem_toList] at h
    exact ⟨hcur s h, [], [], by simp [show cur = some s from h]⟩
  | case2 cur c l hl ih =>
    rw [List.filter_cons_of_neg (by simpa using hl)]
    exact ih hcur h
  | case3 cur c l hl hv ih =>
    rw [List.filter_cons_of_pos (by simpa using hl)]
    rcases List.mem_append.mp h with h | h
    · rw [Option.mem_toList] at h
      exact ⟨hcur s h, [], c :: l.filter (·.live), by simp [show cur = some s from h]⟩
    · obtain ⟨hs, a, b, hab⟩ := ih (by simp) h
      have hab : l.filter (·.live) = a ++ s.chunks ++ b := by simpa using hab
      exact ⟨hs, (cur.map (·.chunks)).getD [] ++ c :: a, b, by simp [hab]⟩
  | case4 c l hl hv ih =>
    obtain ⟨hs, a, b, hab⟩ := ih (by simpa using .single (by simpa using hl) (not_not.mp hv)) h
    rw [List.filter_cons_of_pos (by simpa using hl)]
    exact ⟨hs, a, b, hab⟩
  | case5 c l hl hv t hfrom ih =>
    rw [List.filter_cons_of_pos (by simpa using hl)]
    rcases List.mem_cons.mp h with rfl | h
    · exact ⟨hcur s rfl, [], c :: l.filter (·.live), by simp⟩
    · obtain ⟨hs, a, b, hab⟩ := ih (by simpa using .single (by simpa using hl) (not_not.mp hv)) h
      have hab : c :: l.filter (·.live) = a ++ s.chunks ++ b := by simpa [Segment.single] using hab
      exact ⟨hs, t.chunks ++ a, b, by simp [hab]⟩
  | case6 c l hl hv t hfrom ih =>
    have hadd := (hcur t rfl).add (by simpa using hl) (not_not.mp hv) (not_not.mp hfrom)
    obtain ⟨hs, a, b, hab⟩ := ih (by simpa using hadd) h
    rw [List.filter_cons_of_pos (by simpa using hl)]
    exact ⟨hs, a, b, by simpa [Segment.add] using hab⟩

theorem isChain_next {run : List Chunk} (h : (c :: run).IsChain fun p c => p.toTS = c.fromTS) :
    ∀ x, run.head? = some x → x.fromTS = c.toTS := by
  intro x hx
  cases run with
  | nil => cases hx
  | cons y run =>
    rw [← Option.some.inj hx]
    exact (List.isChain_cons_cons.mp h).1.symm

theorem segmentsFrom_add (hc : c.live = true ∧ c.verifyError = "") (h : c.fromTS = s.toTS) :
    segmentsFrom (some s) (c :: l) = segmentsFrom (some (s.add c)) l := by
  simp [segmentsFrom, hc, h]

/-- A segment being built goes on, at least up to what it holds. -/
theorem segmentsFrom_keeps (s : Segment) (l : List Chunk) :
    ∃ t ∈ segmentsFrom (some s) l, ∃ more, t.chunks = s.chunks ++ more := by
  generalize hcur : some s = cur
  fun_induction segmentsFrom cur l generalizing s with
  | case1 cur => exact ⟨s, by simp [← hcur], [], by simp⟩
  | case2 cur c l hl ih => exact ih s hcur
  | case3 cur c l hl hv ih => exact ⟨s, by simp [← hcur], [], by simp⟩
  | case4 c l hl hv ih => cases hcur
  | case5 c l hl hv t hfrom ih =>
    cases hcur
    exact ⟨t, by simp, [], by simp⟩
  | case6 c l hl hv t hfrom ih =>
    cases hcur
    obtain ⟨t, ht, more, hmore⟩ := ih _ rfl
    exact ⟨t, ht, c :: more, by simpa [Segment.add] using hmore⟩

/-- A segment being built goes on through the chunks that continue it. -/
theorem segmentsFrom_grow {run : List Chunk} (hu : ∀ c ∈ run, c.live = true ∧ c.verifyError = "")
    (hlink : run.IsChain fun p c => p.toTS = c.fromTS)
    (hfirst : ∀ c, run.head? = some c → c.fromTS = s.toTS) :
    ∃ t ∈ segmentsFrom (some s) (run ++ l), ∃ more, t.chunks = s.chunks ++ run ++ more := by
  induction run generalizing s with
  | nil => simpa using segmentsFrom_keeps s l
  | cons c run ih =>
    rw [List.cons_append, segmentsFrom_add (hu c List.mem_cons_self) (hfirst c rfl)]
    obtain ⟨t, ht, more, hmore⟩ := ih (s := s.add c) (fun x hx => hu x (List.mem_cons_of_mem _ hx))
      hlink.tail (isChain_next hlink)
    exact ⟨t, ht, more, by simpa [Segment.add] using hmore⟩

/-- Usable chunks that are linked lie in one segment. -/
theorem segmentsFrom_complete (cur : Option Segment) (pre l : List Chunk) {run : List Chunk}
    (hne : run ≠ []) (hu : ∀ c ∈ run, c.live = true ∧ c.verifyError = "")
    (hlink : run.IsChain fun p c => p.toTS = c.fromTS) :
    ∃ t ∈ segmentsFrom cur (pre ++ run ++ l), ∃ before more, t.chunks = before ++ run ++ more := by
  fun_induction segmentsFrom cur pre with
  | case1 cur =>
    obtain ⟨c, run, rfl⟩ := List.exists_cons_of_ne_nil hne
    have hc := hu c List.mem_cons_self
    have hgrow := fun (s : Segment) (hs : s.toTS = c.toTS) => segmentsFrom_grow (s := s) (l := l)
      (fun x hx => hu x (List.mem_cons_of_mem _ hx)) hlink.tail
      (fun x hx => (isChain_next hlink x hx).trans hs.symm)
    obtain ⟨t, ht, more, hmore⟩ := hgrow (.single c) rfl
    rw [List.nil_append, List.cons_append]
    cases cur with
    | none => exact ⟨t, by simpa [segmentsFrom, hc] using ht, [], more, by simpa [Segment.single] using hmore⟩
    | some s =>
      by_cases hfrom : c.fromTS = s.toTS
      · rw [segmentsFrom_add hc hfrom]
        obtain ⟨t, ht, more, hmore⟩ := hgrow (s.add c) rfl
        exact ⟨t, ht, s.chunks, more, by simpa [Segment.add] using hmore⟩
      · exact ⟨t, by simp [segmentsFrom, hc, hfrom, ht], [], more, by simpa [Segment.single] using hmore⟩
  | case2 cur c pre hl ih => simpa [segmentsFrom, hl] using ih
  | case3 cur c pre hl hv ih =>
    obtain ⟨t, ht, h⟩ := ih
    exact ⟨t, by simp_all [segmentsFrom], h⟩
  | case4 c pre hl hv ih => simpa [segmentsFrom, hl, hv] using ih
  | case5 c pre hl hv s hfrom ih =>
    obtain ⟨t, ht, h⟩ := ih
    exact ⟨t, by simp_all [segmentsFrom], h⟩
  | case6 c pre hl hv s hfrom ih => simpa [segmentsFrom, hl, hv, hfrom] using ih

/-- The segments follow each other in the list. -/
theorem segmentsFrom_sublist (cur : Option Segment) (l : List Chunk) :
    ((segmentsFrom cur l).flatMap (·.chunks)).Sublist ((cur.map (·.chunks)).getD [] ++ l) := by
  fun_induction segmentsFrom cur l with
  | case1 cur => cases cur <;> simp
  | case2 cur c l hl ih => exact ih.trans ((List.sublist_cons_self c l).append_left _)
  | case3 cur c l hl hv ih =>
    rw [List.flatMap_append]
    refine List.Sublist.append ?_ (ih.trans (List.sublist_cons_self c l))
    cases cur <;> simp
  | case4 c l hl hv ih => exact ih
  | case5 c l hl hv s hfrom ih =>
    rw [List.flatMap_cons]
    exact (List.Sublist.refl _).append ih
  | case6 c l hl hv s hfrom ih => simpa [Segment.add] using ih

/-- Only the live chunks make segments. -/
theorem segmentsFrom_live (cur : Option Segment) (l : List Chunk) :
    segmentsFrom cur (l.filter (·.live)) = segmentsFrom cur l := by
  induction l generalizing cur with
  | nil => rfl
  | cons c l ih => by_cases hl : c.live <;> cases cur <;> simp [segmentsFrom, hl, ih]

end SegmentsFrom

/-! ## The live chunks of a chain -/

/-- What the live chunks of a chain are like: no two overlap, and each has its checksum. Deleted,
superseded and pruned chunks leave holes. -/
structure Listed (l : List Chunk) : Prop where
  nodup : l.Nodup
  apart : l.Pairwise (·.toTS ≤ ·.fromTS)
  forward : ∀ c ∈ l, c.fromTS ≤ c.toTS
  live : ∀ c ∈ l, c.live = true
  sums : ∀ c ∈ l, Go.blank c.sha256 = false

namespace Listed

variable {l : List Chunk} {s : Segment} {c x y : Chunk} {t : Timestamp}

theorem ordered (h : Listed l) : Ordered l := by
  refine h.apart.imp_of_mem fun {a b} ha _ hab => ?_
  exact (h.forward a ha).trans hab

/-- Only one chunk holds a position. -/
theorem unique (h : Listed l) (hx : x ∈ l) (hy : y ∈ l) (hx1 : x.fromTS < t) (hx2 : t ≤ x.toTS)
    (hy1 : y.fromTS < t) (hy2 : t ≤ y.toTS) : x = y := by
  by_contra hne
  have : Std.Symm fun a b : Chunk => a.toTS ≤ b.fromTS ∨ b.toTS ≤ a.fromTS := ⟨fun _ _ => Or.symm⟩
  have hsymm : l.Pairwise fun a b => a.toTS ≤ b.fromTS ∨ b.toTS ≤ a.fromTS := h.apart.imp .inl
  rcases hsymm.forall hx hy hne with hxy | hxy
  · exact absurd (hx2.trans hxy) (not_le.mpr hy1)
  · exact absurd (hy2.trans hxy) (not_le.mpr hx1)

theorem of_segment (h : Listed l) (hs : s ∈ segments l) :
    Segment.Valid s ∧ ∃ a b, l = a ++ s.chunks ++ b := by
  obtain ⟨hv, a, b, hab⟩ := segmentsFrom_sound (by simp) hs
  refine ⟨hv, a, b, ?_⟩
  rw [← hab, List.filter_eq_self.mpr h.live]
  simp

/-- The chunks of a segment end at or before its end. -/
theorem to_le (h : Listed l) (hs : s ∈ segments l) (hc : c ∈ s.chunks) : c.toTS ≤ s.toTS := by
  obtain ⟨hv, a, b, hab⟩ := h.of_segment hs
  obtain ⟨pre, d, hpre, hd⟩ := hv.last
  rw [hd]
  rw [hpre] at hab hc
  rcases List.mem_append.mp hc with hc | hc
  · have hap := h.apart
    rw [hab, List.append_assoc, List.append_assoc] at hap
    have hap := (List.pairwise_append.mp (List.pairwise_append.mp hap).2.1).2.2 c hc d (by simp)
    exact hap.trans (h.forward d (by rw [hab]; simp))
  · rw [List.mem_singleton.mp hc]

theorem le_last (h : Listed l) (hc : c ∈ l) : ∃ d, l.getLast? = some d ∧ c.toTS ≤ d.toTS := by
  rcases List.eq_nil_or_concat' l with rfl | ⟨pre, d, rfl⟩
  · cases hc
  refine ⟨d, by simp, ?_⟩
  rcases List.mem_append.mp hc with hc | hc
  · exact ((List.pairwise_append.mp h.apart).2.2 c hc d (by simp)).trans (h.forward d (by simp))
  · rw [List.mem_singleton.mp hc]

end Listed

/-! ## Positions of a segment -/

namespace Listed

variable {l : List Chunk} {s s' : Segment} {c : Chunk} {t : Timestamp} {r : Backup.Record} {b : Base}

section
variable (h : Listed l)
include h

section
variable (hs : s ∈ segments l)
include hs

/-- A chunk is in one segment. -/
theorem segment_eq (hs' : s' ∈ segments l) (hc : c ∈ s.chunks) (hc' : c ∈ s'.chunks) : s = s' := by
  have hnd : ((segments l).flatMap (·.chunks)).Nodup := h.nodup.sublist (segmentsFrom_sublist none l)
  by_contra hne
  have : Std.Symm (Function.onFun List.Disjoint (·.chunks : Segment → List Chunk)) :=
    ⟨fun _ _ h _ hx hy => h hy hx⟩
  exact (List.nodup_flatMap.mp hnd).2.forall hs hs' hne hc hc'

theorem mem_of_segment (hc : c ∈ s.chunks) : c ∈ l := by
  obtain ⟨-, a, z, hl⟩ := h.of_segment hs
  rw [hl]
  simp [hc]

/-- The ranges of a segment lead from its start to its end. -/
theorem linked : Range.Linked s.fromTS (s.chunks.map fun ch => (ch.fromTS, ch.toTS)) s.toTS := by
  obtain ⟨hv, a, z, hl⟩ := h.of_segment hs
  obtain ⟨pre, d, hpre, hd⟩ := hv.last
  obtain ⟨first, hfirst⟩ : ∃ first, s.chunks.head? = some first := by
    rw [hpre]
    cases pre <;> simp
  have hsub : s.chunks.Sublist l := by
    rw [hl]
    exact (List.sublist_append_right a _).trans (List.sublist_append_left _ z)
  rw [hd, hv.first first hfirst]
  exact linked_of_isChain hv.linked (h.ordered.sublist hsub) hpre hfirst
    (h.forward d (h.mem_of_segment hs (by simp [hpre])))

theorem holds (h1 : s.fromTS < t) (h2 : t ≤ s.toTS) :
    ∃ c ∈ s.chunks, c.fromTS < t ∧ t ≤ c.toTS := by
  obtain ⟨i, q, hq, hhold⟩ := ((h.linked hs).existsUnique h1 h2).exists
  obtain ⟨c, hc, rfl⟩ := List.mem_map.mp (List.mem_of_getElem? hq)
  exact ⟨c, hc, hhold⟩

theorem from_le (hc : c ∈ s.chunks) : s.fromTS ≤ c.fromTS :=
  (h.linked hs).start_le (p := (c.fromTS, c.toTS)) (List.mem_map.mpr ⟨c, hc, rfl⟩)

theorem touches (h1 : s.fromTS ≤ t) (h2 : t ≤ s.toTS) : ∃ c ∈ s.chunks, Touches t c := by
  rcases h1.lt_or_eq with hlt | rfl
  · obtain ⟨c, hc, hfrom, hto⟩ := h.holds hs hlt h2
    exact ⟨c, hc, hfrom.le, hto⟩
  · obtain ⟨pre, d, hpre, -⟩ := (h.of_segment hs).1.last
    obtain ⟨first, more, hfirst⟩ : ∃ first more, s.chunks = first :: more := by
      rw [hpre]
      cases pre <;> simp
    have hmem : first ∈ s.chunks := by simp [hfirst]
    rw [(h.of_segment hs).1.first first (by simp [hfirst])]
    exact ⟨first, hmem, le_rfl, h.forward first (h.mem_of_segment hs hmem)⟩

theorem termAt (hc : c ∈ s.chunks) (h1 : c.fromTS < t)
    (h2 : t ≤ c.toTS) : s.termAt t = some (c.firstTerm, c.lastTerm) := by
  have hstart := h.from_le hs hc
  have honly : ∀ x ∈ s.chunks, x.fromTS < t → t ≤ x.toTS → x = c := fun x hx hfrom hto =>
    h.unique (h.mem_of_segment hs hx) (h.mem_of_segment hs hc) hfrom hto h1 h2
  have hfirst := (h.of_segment hs).1.first
  unfold Segment.termAt
  rcases hchunks : s.chunks with _ | ⟨first, rest⟩
  · rw [hchunks] at hc
    cases hc
  rw [hchunks] at hc honly hfirst
  dsimp only
  split
  · rename_i hhold
    rw [hfirst first rfl] at hstart
    rw [honly first List.mem_cons_self (lt_of_le_of_lt hstart h1) hhold.2]
  · rename_i hnot
    have hrest : c ∈ rest := by
      rcases List.mem_cons.mp hc with rfl | hc
      · exact absurd ⟨h1.le, h2⟩ hnot
      · exact hc
    obtain ⟨x, hx⟩ : ∃ x, rest.find? (fun c => c.fromTS < t && t ≤ c.toTS) = some x := by
      rw [← Option.isSome_iff_exists, List.find?_isSome]
      exact ⟨c, hrest, by simp [h1, h2]⟩
    have hhold := List.find?_some hx
    simp only [Bool.and_eq_true, decide_eq_true_eq] at hhold
    rw [hx, honly x (List.mem_cons_of_mem _ (List.mem_of_find?_eq_some hx)) hhold.1 hhold.2]
    rfl

/-- A segment that covers a base holds its consistent point in its term, or starts there. -/
theorem of_covers (hb : baseOf r = some b) (hc : s.covers r = true) :
    s.fromTS ≤ b.tBefore.ts ∧ b.tAfter.ts ≤ s.toTS ∧
      (b.tAfter.ts ≤ s.fromTS ∨ ∃ x ∈ s.chunks, HoldsAfter b x) := by
  obtain ⟨hbefore, hafter⟩ := baseOf_points hb
  unfold Segment.covers at hc
  rw [hbefore, hafter] at hc
  simp only [Bool.and_eq_true, decide_eq_true_eq] at hc
  obtain ⟨⟨h1, h2⟩, hterm⟩ := hc
  refine ⟨h1, h2, ?_⟩
  by_cases hle : b.tAfter.ts ≤ s.fromTS
  · exact .inl hle
  obtain ⟨x, hx, hfrom, hto⟩ := h.holds hs (not_le.mp hle) h2
  refine .inr ⟨x, hx, hfrom, hto, ?_⟩
  rw [h.termAt hs hx hfrom hto] at hterm
  simpa using hterm

theorem covers (hb : baseOf r = some b)
    (h1 : s.fromTS ≤ b.tBefore.ts) (hc : c ∈ s.chunks) (hhold : HoldsAfter b c) : s.covers r = true := by
  obtain ⟨hbefore, hafter⟩ := baseOf_points hb
  have h2 : b.tAfter.ts ≤ s.toTS := hhold.2.1.trans (h.to_le hs hc)
  unfold Segment.covers
  rw [hbefore, hafter]
  dsimp only
  rw [h.termAt hs hc hhold.1 hhold.2.1]
  simpa [h1, h2] using hhold.2.2

end

end

end Listed

theorem not_zero_of_lt {x y : Timestamp} (h : x < y) : y.isZero = false := by
  cases hz : y.isZero with
  | false => rfl
  | true =>
    unfold Timestamp.isZero at hz
    simp only [Bool.and_eq_true, decide_eq_true_eq] at hz
    have h : x.key < y.key := h
    simp [Timestamp.key, Prod.Lex.lt_iff, hz.1, hz.2] at h

/-! ## Bases that reach a target -/

/-- From the chunk `ch` a segment of `l` reaches the limit and holds the consistent point of the base,
in its term unless the chunk starts there. -/
def Reaching (l : List Chunk) (b : Base) (limit : Timestamp) (ch : Chunk) : Prop :=
  ∃ seg ∈ segments l, ch ∈ seg.chunks ∧ limit ≤ seg.toTS ∧
    (b.tAfter.ts ≤ ch.fromTS ∨ ∃ x ∈ seg.chunks, HoldsAfter b x)

section Reaching

variable {chains : List Chain} {chunks : String → List Chunk} {b : Base} {limit : Timestamp} {c : Chain}
  {ch : Chunk}

theorem FirstTouching.head {t : Timestamp} {run : List Chunk} (h : FirstTouching chains chunks t c run)
    (hhead : run.head? = some ch) : FirstTouching chains chunks t c [ch] := by
  obtain ⟨⟨ch', hch', ht⟩, before, after, pre, rest, hsplit, hl, hbefore, hpre⟩ := h
  rw [hhead, Option.some.injEq] at hch'
  subst hch'
  obtain ⟨more, rfl⟩ := List.head?_eq_some_iff.mp hhead
  exact ⟨⟨ch, rfl, ht⟩, before, after, pre, more ++ rest, hsplit, by simp [hl], hbefore, hpre⟩

/-- From a chunk of a segment on, the chunks up to the first that reaches the limit. -/
theorem starts_of_reaching (h : Listed (chunks c.chainID))
    (hfirst : FirstTouching chains chunks b.tBefore.ts c [ch])
    (hreach : Reaching (chunks c.chainID) b limit ch) : ∃ run, Starts chains chunks b limit run := by
  obtain ⟨⟨ch', hch', ht⟩, before, after, pre, rest, hsplit, hl', hbefore, hpre⟩ := hfirst
  cases hch'
  obtain ⟨seg, hseg, hch, hto, hterm⟩ := hreach
  obtain ⟨hv, a, z, hl⟩ := h.of_segment hseg
  -- the run starts inside the segment, since the chunk is listed once
  obtain ⟨u, v, huv⟩ := List.append_of_mem hch
  rw [List.append_assoc, List.singleton_append] at hl'
  have hsame : pre = a ++ u ∧ rest = v ++ z := by
    have heq : pre ++ ch :: rest = (a ++ u) ++ ch :: (v ++ z) := by
      rw [← hl', hl, huv]
      simp
    have hnd : (pre ++ ch :: rest).Nodup := hl' ▸ h.nodup
    obtain ⟨-, hnd, hdisj⟩ := List.nodup_append.mp hnd
    have hpre : ch ∉ pre := fun hm => hdisj ch hm ch List.mem_cons_self rfl
    obtain ⟨h1, -, h2⟩ :=
      (List.append_cons_inj_of_notMem hpre (List.nodup_cons.mp hnd).1).mp heq
    exact ⟨h1, h2⟩
  obtain ⟨rfl, rfl⟩ := hsame
  obtain ⟨q, d, hq, hd⟩ := hv.last
  have hdmem : d ∈ ch :: v := by
    have hlast : (u ++ ch :: v).getLast? = some d := by
      rw [← huv, hq]
      simp
    rw [List.getLast?_append_cons] at hlast
    exact List.mem_of_getLast? hlast
  obtain ⟨s, hs⟩ : ∃ s, (ch :: v).find? (fun c => limit ≤ c.toTS) = some s := by
    rw [← Option.isSome_iff_exists, List.find?_isSome]
    exact ⟨d, hdmem, by simpa [← hd] using hto⟩
  obtain ⟨hreach, front, back, hcut, hfront⟩ := List.find?_eq_some_iff_append.mp hs
  have hsub : ∀ x ∈ front ++ [s], x ∈ seg.chunks := fun x hx => by
    rw [huv, hcut, List.append_cons]
    exact List.mem_append_right _ (List.mem_append_left _ hx)
  have hhead : (front ++ [s]).head? = some ch := by
    cases front <;> simp_all
  have hlink : (front ++ [s]).IsChain fun p c => p.toTS = c.fromTS := by
    have hlink := hv.linked
    rw [huv, hcut] at hlink
    have hlink := (List.isChain_append.mp hlink).2.1
    rw [List.append_cons] at hlink
    exact (List.isChain_append.mp hlink).1
  have hin : (front ++ [s]).Sublist (ch :: v) := by
    rw [hcut, List.append_cons front s back]
    exact List.sublist_append_left _ back
  have hord : Ordered (ch :: v) := by
    refine h.ordered.sublist ?_
    rw [hl', ← List.cons_append]
    exact (List.sublist_append_left _ z).trans (List.sublist_append_right _ _)
  refine ⟨front ++ [s], ⟨hlink, fun x hx => ?_, ⟨ch, hhead, ?_⟩, ⟨s, by simp, by simpa using hreach⟩,
    fun x hx hhold => ?_⟩, by simpa using hfront, c, ⟨ch, hhead, ht⟩, before, after, a ++ u, back ++ z,
    hsplit, ?_, hbefore, hpre⟩
  · exact ⟨(hv.usable x (hsub x hx)).2, h.sums x (h.mem_of_segment hseg (hsub x hx))⟩
  · rcases ht.1.lt_or_eq with hlt | heq
    · exact .inl ⟨hlt, ht.2⟩
    · exact .inr heq.symm
  · simp only [Chunk.holdsAfter, Bool.and_eq_true, decide_eq_true_eq] at hhold
    rcases hterm with hle | ⟨y, hy, hhy⟩
    · have hafter : ch.fromTS ≤ x.fromTS := by
        rcases List.mem_cons.mp (hin.subset hx) with rfl | hx
        · exact le_rfl
        · exact (List.pairwise_cons.mp hord).1 x hx
      exact absurd (hle.trans hafter) (not_le.mpr hhold.1)
    · rw [h.unique (h.mem_of_segment hseg (hsub x hx)) (h.mem_of_segment hseg hy) hhold.1 hhold.2 hhy.1
        hhy.2.1]
      exact (holdsAfter_iff.mp hhy).2
  · rw [hl', ← List.cons_append, hcut]
    simp

/-- The chunks of a run to the limit lie in one segment. -/
theorem segment_of_starts (h : Listed (chunks c.chainID)) {run : List Chunk}
    (hrun : Starts chains chunks b limit run)
    (hfirst : FirstTouching chains chunks b.tBefore.ts c run) :
    ∃ seg ∈ segments (chunks c.chainID), (∀ x ∈ run, x ∈ seg.chunks) ∧ limit ≤ seg.toTS := by
  obtain ⟨⟨ch, hhead, -⟩, before, after, pre, rest, -, hl, -⟩ := hfirst
  have hu : ∀ x ∈ run, x.live = true ∧ x.verifyError = "" := fun x hx =>
    ⟨h.live x (by rw [hl]; simp [hx]), (hrun.unbroken.checked x hx).1⟩
  obtain ⟨seg, hseg, front, more, hsplit⟩ := segmentsFrom_complete none pre rest
    (fun hnil => by simp [hnil] at hhead) hu hrun.unbroken.linked
  rw [← hl] at hseg
  have hin : ∀ x ∈ run, x ∈ seg.chunks := fun x hx => by
    rw [hsplit]
    simp [hx]
  obtain ⟨s, hs, hto⟩ := hrun.unbroken.reaches
  exact ⟨seg, hseg, hin, hto.trans (h.to_le hseg (hin s (List.mem_of_getLast? hs)))⟩

end Reaching

/-! ## The chain that covers a base -/

/-- `seg` is the first segment that covers the base, of the first chain that has one. -/
structure CoveredBy (chains : List Chain) (chunks : String → List Chunk) (r : Backup.Record) (c : Chain)
    (seg : Segment) : Prop where
  chain : ∃ pre post, chains = pre ++ c :: post ∧
    ∀ d ∈ pre, ∀ s ∈ segments (chunks d.chainID), s.covers r = false
  segment : (segments (chunks c.chainID)).find? (·.covers r) = some seg

namespace CoveredBy

variable {chains : List Chain} {chunks : String → List Chunk} {r : Backup.Record} {c : Chain}
  {seg : Segment}

theorem mem (h : CoveredBy chains chunks r c seg) : c ∈ chains ∧ seg ∈ segments (chunks c.chainID) := by
  obtain ⟨pre, post, rfl, -⟩ := h.chain
  exact ⟨by simp, List.mem_of_find?_eq_some h.segment⟩

theorem covers (h : CoveredBy chains chunks r c seg) : seg.covers r = true := by
  simpa using List.find?_some h.segment

end CoveredBy

section Covering

variable {chains : List Chain} {chunks : String → List Chunk} {r : Backup.Record} {b : Base}
  {limit : Timestamp}

theorem coveringChain_eq_findSome (r : Backup.Record) (l : List ChainStatus) :
    coveringChain r l = l.findSome? fun c => (coveringSegment c.segments r).map (c, ·) := by
  induction l with
  | nil => rfl
  | cons c l ih =>
    rw [coveringChain, List.findSome?_cons]
    cases coveringSegment c.segments r with
    | none => exact ih
    | some s => rfl

theorem coveringChain_iff {cs : ChainStatus} {seg : Segment} :
    coveringChain r (chains.map fun c => chainStatus c (chunks c.chainID)) = some (cs, seg) ↔
      ∃ c, cs = chainStatus c (chunks c.chainID) ∧ CoveredBy chains chunks r c seg := by
  rw [coveringChain_eq_findSome, List.findSome?_map, List.findSome?_eq_some_iff]
  constructor
  · intro h
    obtain ⟨pre, c, post, hsplit, hc, hpre⟩ := h
    obtain ⟨s, hs, heq⟩ := Option.map_eq_some_iff.mp hc
    cases heq
    refine ⟨c, rfl, ⟨pre, post, hsplit, fun d hd s hs => ?_⟩, hs⟩
    have hnone := List.find?_eq_none.mp (Option.map_eq_none_iff.mp (hpre d hd)) s hs
    simpa using hnone
  · intro h
    obtain ⟨c, rfl, hc⟩ := h
    obtain ⟨pre, post, hsplit, hpre⟩ := hc.chain
    refine ⟨pre, c, post, hsplit, Option.map_eq_some_iff.mpr ⟨seg, hc.segment, rfl⟩, fun d hd => ?_⟩
    exact Option.map_eq_none_iff.mpr (List.find?_eq_none.mpr fun s hs => by simp [hpre d hd s hs])

/-- A run that starts before the consistent point lies in a segment that covers the base. -/
theorem covers_of_starts {c : Chain} {run : List Chunk} (h : Listed (chunks c.chainID))
    (hb : baseOf r = some b) (hlim : b.tAfter.ts < limit) (hrun : Starts chains chunks b limit run)
    (hfirst : FirstTouching chains chunks b.tBefore.ts c run)
    (hlate : ∀ ch, run.head? = some ch → ch.fromTS < b.tAfter.ts) :
    ∃ s ∈ segments (chunks c.chainID), s.covers r = true := by
  obtain ⟨s, hs, hin, hto⟩ := segment_of_starts h hrun hfirst
  have hord : Ordered run := h.ordered.sublist hfirst.sublist.2
  obtain ⟨⟨ch, hhead, ht⟩, -⟩ := hfirst
  obtain ⟨x, hx, hhold⟩ := hrun.holdsAfter hord hlim hhead (hlate ch hhead)
  have hfrom : s.fromTS ≤ ch.fromTS := h.from_le hs (hin ch (List.mem_of_mem_head? hhead))
  exact ⟨s, hs, h.covers hs hb (hfrom.trans ht.1) (hin x hx)
    (holdsAfter_iff.mpr ⟨hhold, hrun.unbroken.term x hx hhold⟩)⟩

/-- A chain before the one with the first chunk that touches `T_before` covers nothing from there. -/
theorem FirstTouching.uncovered {c : Chain} {run : List Chunk}
    (hl : ∀ c ∈ chains, Listed (chunks c.chainID)) (hb : baseOf r = some b)
    (hba : b.tBefore.ts ≤ b.tAfter.ts) (hfirst : FirstTouching chains chunks b.tBefore.ts c run) :
    ∃ pre post, chains = pre ++ c :: post ∧
      ∀ d ∈ pre, ∀ s ∈ segments (chunks d.chainID), s.covers r = false := by
  obtain ⟨-, before, after, -, -, rfl, -, hbefore, -⟩ := hfirst
  refine ⟨before, after, rfl, fun d hd s hs => ?_⟩
  have hlist := hl d (List.mem_append_left _ hd)
  cases hcov : s.covers r with
  | false => rfl
  | true =>
    obtain ⟨h1, h2, -⟩ := hlist.of_covers hs hb hcov
    obtain ⟨x, hx, ht⟩ := hlist.touches hs h1 (hba.trans h2)
    exact absurd ht (hbefore d hd x (hlist.mem_of_segment hs hx))

/-- **A plan comes from the chain that covers its base**, unless its first chunk starts at the base's
consistent point: then the term is not compared. -/
theorem planFrom_chainOf (hl : ∀ c ∈ chains, Listed (liveChunks chunks c.chainID))
    (hb : baseOf r = some b) (hba : b.tBefore.ts ≤ b.tAfter.ts) (hlim : b.tAfter.ts < limit)
    {p : RestorePlan} (hp : planFrom (liveChunks chunks) b limit chains = .ok p)
    (hlate : ∀ ch, p.chunks.head? = some ch → ch.fromTS ≠ b.tAfter.ts) :
    p.chainID = chainOf chains chunks r := by
  obtain ⟨-, hstarts, c, hchain, hfirst⟩ := starts_of_planFrom (fun c hc => (hl c hc).ordered) hlim hp
  have hseg : ∀ id, segments (liveChunks chunks id) = segments (chunks id) := fun id =>
    segmentsFrom_live none (chunks id)
  obtain ⟨ch, hhead, ht⟩ := hfirst.1
  have hlt : ∀ ch', p.chunks.head? = some ch' → ch'.fromTS < b.tAfter.ts := by
    intro ch' hch'
    rw [hhead, Option.some.injEq] at hch'
    subst hch'
    exact lt_of_le_of_ne (ht.1.trans hba) (hlate ch hhead)
  obtain ⟨s, hs, hcov⟩ := covers_of_starts (hl c hfirst.sublist.1) hb hlim hstarts hfirst hlt
  obtain ⟨pre, post, hsplit, hpre⟩ := hfirst.uncovered hl hb hba
  have hfind : chains.find? (fun c => (segments (chunks c.chainID)).any (·.covers r)) = some c := by
    rw [List.find?_eq_some_iff_append]
    refine ⟨List.any_eq_true.mpr ⟨s, hseg c.chainID ▸ hs, hcov⟩, pre, post, hsplit, fun d hd => ?_⟩
    rw [Bool.not_eq_true', List.any_eq_false]
    intro s hs
    simp [hpre d hd s (hseg d.chainID ▸ hs)]
  rw [chainOf, hfind, hchain]
  rfl

end Covering

/-! ## The windows of a status -/

/-- The position is after the start of a window of the stream's status, and not after its end. -/
def Advertised (repo : Repository) (streamID : String) (records : List Backup.Record)
    (limit : Timestamp) : Prop :=
  ∃ st, status repo streamID records = some st ∧
    ∃ w ∈ st.windows, w.start < limit ∧ limit ≤ w.stop

section Windows

variable {limit : Timestamp}

theorem Window.add_before (w : Window) (b : BaseStatus) :
    (w.add b).bases ≠ 0 ∧ (w.add b).start < limit ↔
      w.bases ≠ 0 ∧ w.start < limit ∨ (b.tAfter.map (·.ts)).getD {} < limit := by
  unfold Window.add
  dsimp only
  by_cases h0 : w.bases = 0
  · simp [h0]
  by_cases hlt : (b.tAfter.map (·.ts)).getD {} < w.start
  · simp only [h0, hlt, false_or, if_true, ne_eq, Nat.add_eq_zero_iff, Nat.succ_ne_self, and_false,
      not_false_eq_true, true_and]
    exact ⟨.inr, fun h => h.elim hlt.trans id⟩
  · simp only [h0, hlt, or_self, if_false, ne_eq, Nat.add_eq_zero_iff, Nat.succ_ne_self, and_false,
      not_false_eq_true, true_and]
    exact ⟨.inl, fun h => h.elim id (lt_of_le_of_lt (not_lt.mp hlt))⟩

theorem foldl_add (limit : Timestamp) (l : List BaseStatus) (w : Window) :
    (l.foldl Window.add w).stop = w.stop ∧
      ((l.foldl Window.add w).bases ≠ 0 ∧ (l.foldl Window.add w).start < limit ↔
        w.bases ≠ 0 ∧ w.start < limit ∨ ∃ b ∈ l, (b.tAfter.map (·.ts)).getD {} < limit) := by
  induction l generalizing w with
  | nil => simp
  | cons b l ih =>
    obtain ⟨h1, h2⟩ := ih (w.add b)
    refine ⟨h1, h2.trans ?_⟩
    rw [Window.add_before, List.exists_mem_cons_iff, or_assoc]

/-- The window of a segment reaches from the oldest consistent point of its bases to its end. -/
theorem segmentWindow_iff (bases : List BaseStatus) (c : ChainStatus) (seg : Segment) :
    (∃ w, segmentWindow bases c seg = some w ∧ w.start < limit ∧ limit ≤ w.stop) ↔
      limit ≤ seg.toTS ∧ ∃ b ∈ bases, b.opens c seg = true ∧ (b.tAfter.map (·.ts)).getD {} < limit := by
  unfold segmentWindow
  dsimp only
  obtain ⟨hstop, hstart⟩ := foldl_add limit (bases.filter (·.opens c seg))
    { chainID := c.chain.chainID, isOpen := c.chain.isOpen && seg.toTS = c.lastTo, stop := seg.toTS }
  revert hstop hstart
  generalize (bases.filter (·.opens c seg)).foldl Window.add _ = w
  intro hstop hstart
  have hstop : w.stop = seg.toTS := hstop
  simp only [List.mem_filter, ne_eq, not_true_eq_false, false_and, false_or, and_assoc] at hstart
  rw [← hstart, ← hstop]
  by_cases h0 : w.bases = 0
  · simp [h0]
  · simp [h0, and_comm]

end Windows

/-- The state of a stream in the repository, as `Status` and `PlanRestore` read it: `chunks` are the live
chunks of its chains. Every key is at hand. -/
structure Stored (src : PlanSource) (streamID : String) (records : List Backup.Record)
    (chains : List Chain) (chunks : String → List Chunk) : Prop where
  listChains : src.repo.listChains streamID = some chains
  listChunks : ∀ c ∈ chains, src.repo.listChunks
    { streamID, chainID := c.chainID, status := some .committed, live := true } =
      some (chunks c.chainID)
  listed : ∀ c ∈ chains, Listed (chunks c.chainID)
  bases : src.bases = pitrBases records
  points : ∀ b ∈ src.bases, b.tBefore.ts ≤ b.tAfter.ts
  keys : ∀ e m, missingKey src.hasKey e m = false

/-- Restores from the base start in the segment: the first chunk listed that touches its `T_before` is in
it. A chunk that starts at the consistent point may also be in another segment that reaches as far. -/
def Anchored (chains : List Chain) (chunks : String → List Chunk) (b : Base) (seg : Segment) : Prop :=
  b.tBefore.ts.isZero = false ∧ ∃ c ch, FirstTouching chains chunks b.tBefore.ts c [ch] ∧
    (ch ∈ seg.chunks ∨ b.tAfter.ts = ch.fromTS ∧
      ∃ s ∈ segments (chunks c.chainID), ch ∈ s.chunks ∧ seg.toTS ≤ s.toTS)

namespace Stored

variable {src : PlanSource} {streamID : String} {records : List Backup.Record} {chains : List Chain}
  {chunks : String → List Chunk} {limit : Timestamp} {r : Backup.Record} {b : Base} {c : Chain}
  {seg : Segment}

theorem chainStatuses_eq {repo : Repository} (hl : ∀ c ∈ chains, repo.listChunks
      { streamID, chainID := c.chainID, status := some .committed, live := true } =
        some (chunks c.chainID)) :
    chainStatuses repo streamID chains = some (chains.map fun c => chainStatus c (chunks c.chainID)) := by
  induction chains with
  | nil => rfl
  | cons c chains ih =>
    rw [chainStatuses, hl c List.mem_cons_self, ih fun d hd => hl d (List.mem_cons_of_mem _ hd)]
    rfl

theorem baseOf_of_eligible (h : eligibleBase r = true) : ∃ b, baseOf r = some b ∧ usableBase r = true := by
  unfold eligibleBase at h
  simp only [Bool.and_eq_true, decide_eq_true_eq] at h
  obtain ⟨⟨⟨hstatus, hscope⟩, hbefore⟩, hafter⟩ := h
  obtain ⟨x, hx⟩ := Option.isSome_iff_exists.mp hbefore
  obtain ⟨y, hy⟩ := Option.isSome_iff_exists.mp hafter
  exact ⟨_, by rw [baseOf, hx, hy]; rfl, by simp [usableBase, hstatus, hscope]⟩

theorem baseStatus_opens {l : List ChainStatus} {cs : ChainStatus} :
    (baseStatus l r).opens cs seg = true ↔ eligibleBase r = true ∧ ∃ cs' seg',
      coveringChain r l = some (cs', seg') ∧ cs'.chain.chainID = cs.chain.chainID ∧
        seg'.toTS = seg.toTS := by
  unfold baseStatus BaseStatus.opens
  rcases coveringChain r l with _ | ⟨cs', seg'⟩
  · simp
  · simp [and_comm, and_left_comm, and_assoc]

theorem baseStatus_tAfter {l : List ChainStatus} : (baseStatus l r).tAfter = r.tAfter := by
  unfold baseStatus
  rcases coveringChain r l with _ | ⟨cs, seg⟩ <;> rfl

section
variable (h : Stored src streamID records chains chunks)
include h

/-- **What the windows of a status hold**: the positions after the consistent point of an eligible base,
up to the end of the segment that covers it. -/
theorem advertised_iff {kept : List Backup.Record} :
    Advertised src.repo streamID kept limit ↔ ∃ r ∈ kept, eligibleBase r = true ∧ ∃ b c seg,
      baseOf r = some b ∧ CoveredBy chains chunks r c seg ∧ b.tAfter.ts < limit ∧ limit ≤ seg.toTS := by
  obtain ⟨st, hst, hwindows⟩ : ∃ st, status src.repo streamID kept = some st ∧ st.windows =
      windows (chains.map fun c => chainStatus c (chunks c.chainID)) ((kept.filter fun b =>
        !b.status.isDeleted).map (baseStatus (chains.map fun c => chainStatus c (chunks c.chainID)))) := by
    unfold status
    rw [h.listChains, Option.bind_eq_bind, Option.bind_some, chainStatuses_eq h.listChunks]
    exact ⟨_, rfl, rfl⟩
  have hafter : ∀ {l r b}, baseOf r = some b →
      ((baseStatus l r).tAfter.map (·.ts)).getD {} = b.tAfter.ts := by
    intro l r b hb
    rw [baseStatus_tAfter, (baseOf_points hb).2]
    rfl
  constructor
  · intro ha
    obtain ⟨st', hst', w, hw, hlo, hhi⟩ := ha
    rw [hst, Option.some.injEq] at hst'
    rw [← hst', hwindows] at hw
    obtain ⟨cs, -, hw⟩ := List.mem_flatMap.mp hw
    obtain ⟨seg', -, hw⟩ := List.mem_filterMap.mp hw
    obtain ⟨hto, bs, hbs, hopens, hlt⟩ := (segmentWindow_iff _ cs seg').mp ⟨w, hw, hlo, hhi⟩
    obtain ⟨r, hr, rfl⟩ := List.mem_map.mp hbs
    obtain ⟨he, cs', seg, hcov, -, hseg⟩ := baseStatus_opens.mp hopens
    obtain ⟨c, -, hc⟩ := coveringChain_iff.mp hcov
    obtain ⟨b, hb, -⟩ := baseOf_of_eligible he
    rw [hafter hb] at hlt
    exact ⟨r, (List.mem_filter.mp hr).1, he, b, c, seg, hb, hc, hlt, hseg ▸ hto⟩
  · intro ha
    obtain ⟨r, hr, he, b, c, seg, hb, hc, hlo, hhi⟩ := ha
    have hcov := coveringChain_iff.mpr ⟨c, rfl, hc⟩
    have hdel : r.status.isDeleted = false := by
      simp only [eligibleBase, Bool.and_eq_true, decide_eq_true_eq] at he
      rw [he.1.1.1]
      rfl
    obtain ⟨w, hw, hw1, hw2⟩ := (segmentWindow_iff ((kept.filter fun b => !b.status.isDeleted).map
      (baseStatus (chains.map fun c => chainStatus c (chunks c.chainID)))) (chainStatus c (chunks c.chainID))
      seg).mpr ⟨hhi, _, List.mem_map.mpr ⟨r, List.mem_filter.mpr ⟨hr, by simp [hdel]⟩, rfl⟩,
        baseStatus_opens.mpr ⟨he, _, _, hcov, rfl, rfl⟩, hafter hb ▸ hlo⟩
    refine ⟨st, hst, w, ?_, hw1, hw2⟩
    rw [hwindows]
    exact List.mem_flatMap.mpr ⟨_, List.mem_map.mpr ⟨c, hc.mem.1, rfl⟩,
      List.mem_filterMap.mpr ⟨seg, hc.mem.2, hw⟩⟩

theorem own (hc : c ∈ chains) {ch : Chunk}
    (hch : ch ∈ chunks c.chainID) : ch.chainID = c.chainID := by
  have hsel := src.repo.selected (h.listChunks c hc) ch hch
  simp only [ChunkQuery.selects, Bool.and_eq_true, decide_eq_true_eq] at hsel
  exact hsel.1.1.1.1.2

theorem before_le (hr : r ∈ records)
    (he : eligibleBase r = true) (hb : baseOf r = some b) : b.tBefore.ts ≤ b.tAfter.ts := by
  obtain ⟨-, -, hu⟩ := baseOf_of_eligible he
  refine h.points b ?_
  rw [h.bases]
  exact List.mem_filterMap.mpr ⟨r, List.mem_filter.mpr ⟨hr, hu⟩, hb⟩

/-- A target up to the end of a segment is one of the stream. -/
theorem planned (bases : List Base) (hc : c ∈ chains)
    (hseg : seg ∈ segments (chunks c.chainID)) (hz : limit.isZero = false) (hlim : limit ≤ seg.toTS) :
    Planned { src with bases } streamID { ts := some limit } chains chunks limit := by
  refine ⟨h.listChains, h.listChunks, by simp [Target.limit, hz], c, hc, ?_⟩
  have hl := h.listed c hc
  obtain ⟨pre, d, hpre, hd⟩ := (hl.of_segment hseg).1.last
  obtain ⟨e, he, hle⟩ := hl.le_last (hl.mem_of_segment hseg (c := d) (by simp [hpre]))
  exact ⟨e, he, hlim.trans (hd ▸ hle)⟩

/-- A base that is anchored in its segment starts a run to every position of it. -/
theorem starts (hb : baseOf r = some b)
    (hcov : CoveredBy chains chunks r c seg) (hlim : limit ≤ seg.toTS)
    (ha : Anchored chains chunks b seg) : ∃ run, Starts chains chunks b limit run := by
  obtain ⟨-, d, ch, hfirst, hch⟩ := ha
  have hd := hfirst.sublist.1
  refine starts_of_reaching (h.listed d hd) hfirst ?_
  rcases hch with hch | ⟨hafter, s, hs, hch, hto⟩
  · have hl := h.listed c hcov.mem.1
    have hid : c.chainID = d.chainID := by
      rw [← h.own hcov.mem.1 (hl.mem_of_segment hcov.mem.2 hch),
        h.own hd (hfirst.sublist.2.subset List.mem_cons_self)]
    obtain ⟨-, -, hterm⟩ := hl.of_covers hcov.mem.2 hb hcov.covers
    refine ⟨seg, hid ▸ hcov.mem.2, hch, hlim, ?_⟩
    rcases hterm with hle | hterm
    · exact .inl (hle.trans (hl.from_le hcov.mem.2 hch))
    · exact .inr hterm
  · exact ⟨s, hs, hch, hlim.trans hto, .inl hafter.le⟩

/-- A base that starts a run to the end of its segment is anchored there. -/
theorem anchored (hb : baseOf r = some b)
    (hba : b.tBefore.ts ≤ b.tAfter.ts) (hcov : CoveredBy chains chunks r c seg)
    (hlim : b.tAfter.ts < seg.toTS) (hz : b.tBefore.ts.isZero = false) {run : List Chunk}
    (hrun : Starts chains chunks b seg.toTS run) : Anchored chains chunks b seg := by
  obtain ⟨d, hfirst⟩ := hrun.listed
  have hd := h.listed d hfirst.sublist.1
  obtain ⟨s, hs, hin, hto⟩ := segment_of_starts hd hrun hfirst
  obtain ⟨ch, hhead, ht⟩ := hfirst.1
  have hch : ch ∈ run := List.mem_of_mem_head? hhead
  refine ⟨hz, d, ch, hfirst.head hhead, ?_⟩
  by_cases hafter : ch.fromTS < b.tAfter.ts
  · left
    obtain ⟨s', hs', hcov'⟩ := covers_of_starts hd hb hlim hrun hfirst fun x hx => by
      rw [hhead, Option.some.injEq] at hx
      exact hx ▸ hafter
    -- the chain of the run is the first that covers the base
    obtain ⟨seg', hseg'⟩ : ∃ seg', (segments (chunks d.chainID)).find? (·.covers r) = some seg' :=
      Option.isSome_iff_exists.mp (List.find?_isSome.mpr ⟨s', hs', hcov'⟩)
    have hsame : CoveredBy chains chunks r d seg' := ⟨hfirst.uncovered h.listed hb hba, hseg'⟩
    have heq := (coveringChain_iff.mpr ⟨d, rfl, hsame⟩).symm.trans (coveringChain_iff.mpr ⟨c, rfl, hcov⟩)
    rw [Option.some.injEq, Prod.mk.injEq] at heq
    have hdc : d = c := congrArg ChainStatus.chain heq.1
    subst hdc
    -- both segments hold the end of the window
    have hpos := hd.of_covers hcov.mem.2 hb hcov.covers
    have hlt : b.tBefore.ts < seg.toTS := lt_of_le_of_lt hba hlim
    obtain ⟨x, hx, hx1, hx2⟩ := hd.holds hs
      (lt_of_le_of_lt ((hd.from_le hs (hin ch hch)).trans ht.1) hlt) hto
    obtain ⟨y, hy, hy1, hy2⟩ := hd.holds hcov.mem.2 (lt_of_le_of_lt hpos.1 hlt) le_rfl
    have hxy := hd.unique (hd.mem_of_segment hs hx) (hd.mem_of_segment hcov.mem.2 hy) hx1 hx2 hy1 hy2
    rw [← hd.segment_eq hs hcov.mem.2 hx (hxy ▸ hy)]
    exact hin ch hch
  · exact .inr ⟨le_antisymm (not_lt.mp hafter) (ht.1.trans hba), s, hs, hin ch hch, hto⟩

end

end Stored

theorem touching_stored {before after : UInt32} (h : (⟨before, 0⟩ : Timestamp) ≤ ⟨after, 0⟩) :
    Stored (touchingSource [baseRecord before after]) "s1" [baseRecord before after]
      [{ chainID := "c1", endedAt := some 0 }, { chainID := "c2", start := ⟨20, 0⟩ }]
      touchingChunks where
  listChains := rfl
  listChunks := by
    intro c hc
    simp only [List.mem_cons, List.not_mem_nil, or_false] at hc
    rcases hc with rfl | rfl <;> rfl
  listed := by
    intro c hc
    simp only [List.mem_cons, List.not_mem_nil, or_false] at hc
    rcases hc with rfl | rfl <;>
      exact ⟨by decide, by decide, by decide, by decide, by decide⟩
  bases := rfl
  points := by
    intro b hb
    have hb : b ∈ [({ id := "b", tBefore := ⟨⟨before, 0⟩, 1⟩, tAfter := ⟨⟨after, 0⟩, 1⟩ } : Base)] := hb
    rw [List.mem_singleton.mp hb]
    exact h
  keys := by
    intro e m
    cases e <;> rfl

end MongoRescue.PITR.Proof
