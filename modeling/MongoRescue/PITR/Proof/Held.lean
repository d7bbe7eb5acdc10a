import MongoRescue.Lib.Range
import MongoRescue.PITR.Collector

/-!
# What chunks hold

`readOplog_ok`: a read that succeeds on a contiguous part of the oplog copied exactly the entries of its
range. `Held log objects incl a rs b`: the chunks `rs` lead from `a` to `b`, and the object of each holds
its range of the oplog; the first one with the entry at its start if `incl`. The chunks' objects are then
the oplog's entries of the whole range in order (`Held.contents`), growth of the oplog and writes of other
objects change nothing (`Held.mono`), and one more chunk may follow (`Held.snoc`).
-/

namespace MongoRescue.PITR.Proof

open Range

variable (log : List OpTime)

/-- The oplog is in order. -/
abbrev Sorted : Prop := log.Pairwise fun x y => x.ts < y.ts

/-- There is an entry at `ts`. -/
def Ended (ts : Timestamp) : Prop := ∃ op ∈ log, op.ts = ts

theorem Ended.append {log : List OpTime} {ts : Timestamp} (h : Ended log ts) (es : List OpTime) :
    Ended (log ++ es) ts := by
  obtain ⟨op, hop, hts⟩ := h
  exact ⟨op, List.mem_append_left _ hop, hts⟩

/-- The entries of `log` in a range. -/
def entries (incl : Bool) (a b : Timestamp) : List OpTime :=
  log.filter fun op => within incl a b op.ts

/-! ## Reads -/

theorem view_infix (lo hi : Nat) : view log lo hi <:+: log :=
  (List.drop_suffix _ _).isInfix.trans (List.take_prefix _ _).isInfix

variable {r : OplogRange}

/-- Once the start entry was seen, the rest is copied as it comes. -/
theorem copyEntries_started {docs : List OpTime} {c c' : Copy}
    (h : docs.foldlM (copyEntry r) c = .ok c') (hs : c.started = true) :
    c'.started = true ∧ c'.written = c.written ++ docs ∧
      c'.prev = (docs.getLast?.map (·.ts)).getD c.prev := by
  induction docs generalizing c with
  | nil =>
    cases h
    exact ⟨hs, by simp, rfl⟩
  | cons d ds ih =>
    rw [List.foldlM_cons] at h
    have hd : copyEntry r c d = if d.ts ≤ c.prev then .error .order else .ok (c.write d) := by
      rw [copyEntry, if_pos hs]
    rw [hd] at h
    by_cases hle : d.ts ≤ c.prev
    · rw [if_pos hle] at h
      cases h
    · rw [if_neg hle] at h
      obtain ⟨h1, h2, h3⟩ := ih h hs
      refine ⟨h1, ?_, ?_⟩
      · rw [h2]
        simp [Copy.write]
      · rw [h3, List.getLast?_cons]
        cases ds.getLast? <;> rfl

/-- The first entry copied is the one at the range's start. -/
theorem copyEntry_first {d : OpTime} {c : Copy} (h : copyEntry r {} d = .ok c) :
    d.ts = r.fromTS ∧ c.started = true ∧ c.prev = d.ts ∧
      c.written = if r.startInclusive then [d] else [] := by
  rw [copyEntry, if_neg (by simp)] at h
  by_cases h1 : d.ts ≠ r.fromTS
  · rw [if_pos h1] at h
    cases h
  rw [if_neg h1] at h
  by_cases h2 : r.checkTerm ∧ d.term ≠ r.fromTerm
  · rw [if_pos h2] at h
    cases h
  rw [if_neg h2] at h
  cases h
  refine ⟨not_not.mp h1, ?_⟩
  cases r.startInclusive <;> simp [Copy.write]

/-- `copyOplog` succeeds on entries that start at the range's start and end at its end. -/
theorem copyOplog_ok {docs : List OpTime} {c : Copy} (h : copyOplog r docs = .ok c) :
    ∃ d ds, docs = d :: ds ∧ d.ts = r.fromTS ∧ (∃ e ∈ docs, e.ts = r.toTS) ∧
      c.written = if r.startInclusive then docs else ds := by
  unfold copyOplog at h
  cases docs with
  | nil => cases h
  | cons d ds =>
    rw [List.foldlM_cons] at h
    rcases hd : copyEntry r {} d with e | c0
    · rw [hd] at h
      cases h
    obtain ⟨hfrom, hs0, hp0, hw0⟩ := copyEntry_first hd
    rw [hd] at h
    rcases hr : ds.foldlM (copyEntry r) c0 with e | c1
    · rw [show (Except.ok c0 >>= fun c => ds.foldlM (copyEntry r) c) = ds.foldlM (copyEntry r) c0
        from rfl, hr] at h
      cases h
    obtain ⟨hs1, hw1, hp1⟩ := copyEntries_started hr hs0
    rw [show (Except.ok c0 >>= fun c => ds.foldlM (copyEntry r) c) = ds.foldlM (copyEntry r) c0
      from rfl, hr, show ∀ g : Copy → Except ReadErr Copy, (Except.ok c1 >>= g) = g c1
      from fun _ => rfl, if_neg (by simp [hs1])] at h
    by_cases hto : c1.prev ≠ r.toTS
    · rw [if_pos hto] at h
      cases h
    rw [if_neg hto] at h
    cases h
    refine ⟨d, ds, rfl, hfrom, ?_, ?_⟩
    · rw [not_not, hp1, hp0] at hto
      rcases hl : ds.getLast? with _ | e
      · rw [hl] at hto
        exact ⟨d, List.mem_cons_self, hto⟩
      · rw [hl] at hto
        exact ⟨e, List.mem_cons_of_mem _ (List.mem_of_getLast? hl), hto⟩
    · rw [hw1, hw0]
      cases r.startInclusive <;> rfl

/-- **A read that succeeds copied its range of the oplog.** -/
theorem readOplog_ok {log es : List OpTime} {c : Copy} (hl : Sorted log)
    (hes : es <:+: log) (h : readOplog r es = .ok c) : r.fromTS ≤ r.toTS ∧ Ended log r.toTS ∧
      c.written = entries log r.startInclusive r.fromTS r.toTS := by
  unfold readOplog at h
  by_cases hlt : r.toTS < r.fromTS
  · rw [if_pos hlt] at h
    cases h
  rw [if_neg hlt] at h
  obtain ⟨d, ds, hdocs, hfrom, hend, hw⟩ := copyOplog_ok h
  have hmem : ∀ x ∈ d :: ds, x ∈ es := by
    intro x hx
    rw [← hdocs] at hx
    exact List.mem_of_mem_filter hx
  have hsub : Sorted (d :: ds) := by
    rw [← hdocs]
    exact (hl.sublist hes.sublist).filter _
  obtain ⟨e, he, heto⟩ := hend
  rw [hdocs] at he
  refine ⟨not_lt.mp hlt, ⟨e, hes.subset (hmem e he), heto⟩, ?_⟩
  have hclosed : es.filter (fun op => within true r.fromTS r.toTS op.ts) = d :: ds := by
    rw [← hdocs]
    exact List.filter_congr fun op _ => by simp [within]
  rw [entries, filter_within_of_infix hl hes ⟨d, hmem d List.mem_cons_self, hfrom⟩
    ⟨e, hmem e he, heto⟩, hw]
  cases hi : r.startInclusive with
  | true => exact hdocs.trans hclosed.symm
  | false =>
    -- without its start entry, the closed range is the rest of it
    have hopen : (es.filter fun op => within true r.fromTS r.toTS op.ts).filter
        (fun op => within false r.fromTS r.toTS op.ts) =
          es.filter fun op => within false r.fromTS r.toTS op.ts := by
      rw [List.filter_filter]
      refine List.filter_congr fun op _ => ?_
      cases hw : within false r.fromTS r.toTS op.ts with
      | false => rfl
      | true => simpa [within] using ⟨within_ge hw, within_le hw⟩
    rw [← hopen, hclosed, List.filter_cons_of_neg (by simp [within, hfrom])]
    refine (List.filter_eq_self.mpr fun op hop => ?_).symm
    have h1 := (List.pairwise_cons.mp hsub).1 op hop
    have h2 : within true r.fromTS r.toTS op.ts := by
      have : op ∈ es.filter fun op => within true r.fromTS r.toTS op.ts := by
        rw [hclosed]
        exact List.mem_cons_of_mem _ hop
      exact (List.mem_filter.mp this).2
    rw [hfrom] at h1
    simpa [within] using ⟨h1, within_le h2⟩

/-! ## Chains of chunks -/

/-- The chunks lead from `a` to `b`, and each one's object holds its range. -/
inductive Held (log : List OpTime) (objects : ChunkKey → Option (List OpTime)) :
    Bool → Timestamp → List Chunk → Timestamp → Prop
  | nil (incl : Bool) (a : Timestamp) : Held log objects incl a [] a
  | cons {incl : Bool} {a b : Timestamp} {r : Chunk} {rs : List Chunk} :
      r.fromTS = a → a ≤ r.toTS → Ended log r.toTS →
      objects r.storageKey = some (entries log incl a r.toTS) →
      Held log objects false r.toTS rs b → Held log objects incl a (r :: rs) b

namespace Held

variable {log log' : List OpTime} {objects objects' : ChunkKey → Option (List OpTime)} {incl : Bool}
  {a b : Timestamp} {rs : List Chunk}

theorem le (h : Held log objects incl a rs b) : a ≤ b := by
  induction h with
  | nil _ _ => exact le_rfl
  | cons _ hle _ _ _ ih => exact le_trans hle ih

theorem eq_of_nil (h : Held log objects incl a [] b) : a = b := by
  cases h
  rfl

section
variable (h : Held log objects incl a rs b)
include h

/-- Every chunk lies between the ends. -/
theorem mem {r : Chunk} (hr : r ∈ rs) :
    a ≤ r.fromTS ∧ r.fromTS ≤ r.toTS ∧ r.toTS ≤ b ∧ (objects r.storageKey).isSome := by
  induction h with
  | nil _ _ => cases hr
  | cons hfrom hle _ hobj hrest ih =>
    rcases List.mem_cons.mp hr with heq | hmem
    · subst heq
      exact ⟨hfrom.ge, hfrom.le.trans hle, hrest.le, by rw [hobj]; rfl⟩
    · obtain ⟨h1, h2⟩ := ih hmem
      exact ⟨hle.trans h1, h2⟩

theorem pairwise : rs.Pairwise fun r s => r.toTS ≤ s.fromTS := by
  induction h with
  | nil _ _ => exact .nil
  | cons _ _ _ _ hrest ih => exact List.pairwise_cons.mpr ⟨fun s hs => (hrest.mem hs).1, ih⟩

/-- The chunks' ends are in order. -/
theorem pairwise_toTS : rs.Pairwise fun r s => r.toTS ≤ s.toTS := by
  have := h.pairwise.imp_of_mem (S := fun r s => r.toTS ≤ s.toTS) fun {r s} _ hs hrs =>
    hrs.trans (h.mem hs).2.1
  exact this

theorem getLast {r : Chunk} (hr : rs.getLast? = some r) : r.toTS = b := by
  induction h with
  | nil _ _ => cases hr
  | @cons _ _ _ x xs _ _ _ _ hrest ih =>
    rw [List.getLast?_cons] at hr
    cases hl : xs.getLast? with
    | none =>
      rw [hl] at hr
      cases hr
      rw [List.getLast?_eq_none_iff] at hl
      subst hl
      cases hrest
      rfl
    | some y =>
      rw [hl] at hr
      cases hr
      exact ih hl

end

/-- The first chunks hold what they did. -/
theorem of_append {ss : List Chunk} (h : Held log objects incl a (rs ++ ss) b) :
    ∃ m, Held log objects incl a rs m := by
  induction rs generalizing incl a with
  | nil => exact ⟨a, .nil _ _⟩
  | cons r rs ih =>
    cases h with
    | cons hfrom hle hend hobj hrest =>
      obtain ⟨m, hm⟩ := ih hrest
      exact ⟨m, .cons hfrom hle hend hobj hm⟩

section
variable (h : Held log objects incl a rs b)
include h

/-- One more chunk that starts where the others end. -/
theorem snoc {r : Chunk} (hfrom : r.fromTS = b) (hle : b ≤ r.toTS) (hend : Ended log r.toTS)
    (hobj : objects r.storageKey = some (entries log (incl && rs.isEmpty) b r.toTS)) :
    Held log objects incl a (rs ++ [r]) r.toTS := by
  induction h with
  | nil incl a =>
    rw [List.isEmpty_nil, Bool.and_true] at hobj
    exact .cons hfrom hle hend hobj (.nil _ _)
  | @cons incl _ _ x xs hf hl he ho hrest ih =>
    rw [List.isEmpty_cons, Bool.and_false] at hobj
    exact .cons hf hl he ho (ih hfrom hle (by rw [Bool.false_and]; exact hobj))

/-- The oplog grew, and the chunks' objects are as they were. -/
theorem mono {es : List OpTime} (hl : Sorted (log ++ es))
    (ho : ∀ r ∈ rs, objects' r.storageKey = objects r.storageKey) :
    Held (log ++ es) objects' incl a rs b := by
  induction h with
  | nil incl a => exact .nil incl a
  | cons hf hle he hobj _ ih =>
    refine .cons hf hle (he.append es) ?_ (ih fun r hr => ho r (List.mem_cons_of_mem _ hr))
    rw [ho _ List.mem_cons_self, hobj]
    congr 1
    exact (filter_within_grow hl he).symm

/-- Only ranges and keys matter. -/
theorem map {f : Chunk → Chunk}
    (hf : ∀ r, (f r).fromTS = r.fromTS ∧ (f r).toTS = r.toTS ∧ (f r).storageKey = r.storageKey) :
    Held log objects incl a (rs.map f) b := by
  induction h with
  | nil incl a => exact .nil incl a
  | @cons incl a _ r _ hfrom hle he hobj _ ih =>
    obtain ⟨h1, h2, h3⟩ := hf r
    refine .cons (h1.trans hfrom) (by rw [h2]; exact hle) (by rw [h2]; exact he) ?_
      (by rw [h2]; exact ih)
    rw [h3, h2]
    exact hobj

/-- What the objects of the chunks hold, one after the other. -/
theorem contents_after (hl : Sorted log) (hi : incl = false) :
    (rs.flatMap fun r => (objects r.storageKey).getD []) = entries log false a b := by
  induction h with
  | nil incl a => exact (filter_within_self a).symm
  | cons _ hle _ hobj hrest ih =>
    subst hi
    rw [List.flatMap_cons, hobj, ih rfl]
    exact filter_within_append hl hle hrest.le

end

/-- **The chunks hold the range of the oplog, its first entry included.** -/
theorem contents (h : Held log objects true a rs b) (hl : Sorted log) (hne : rs ≠ []) :
    (rs.flatMap fun r => (objects r.storageKey).getD []) = entries log true a b := by
  cases h with
  | nil => exact absurd rfl hne
  | cons _ hle _ hobj hrest =>
    rw [List.flatMap_cons, hobj, hrest.contents_after hl rfl]
    exact filter_within_append hl hle hrest.le

end Held

/-! ## Prefixes -/

/-- The chunks that satisfy a test come first when it never holds again once it failed. -/
theorem filter_isPrefix {α : Type} {p : α → Bool} {l : List α}
    (h : l.Pairwise fun x y => p y → p x) : ∃ l', l = l.filter p ++ l' := by
  induction l with
  | nil => exact ⟨[], rfl⟩
  | cons x l ih =>
    obtain ⟨hx, hl⟩ := List.pairwise_cons.mp h
    by_cases hp : p x
    · obtain ⟨l', hl'⟩ := ih hl
      refine ⟨l', ?_⟩
      rw [List.filter_cons_of_pos hp, List.cons_append, ← hl']
    · have hnil : l.filter p = [] := List.filter_eq_nil_iff.mpr fun y hy h1 => hp (hx y hy h1)
      refine ⟨x :: l, ?_⟩
      rw [List.filter_cons_of_neg hp, hnil]
      rfl

end MongoRescue.PITR.Proof
