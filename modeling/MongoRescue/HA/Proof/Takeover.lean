import MongoRescue.HA.Takeover
import MongoRescue.HA.Proof.Pieces

/-!
# A takeover does not roll the metadata back

What a takeover may restore is bounded by the predecessor's mark, the instance's high-water mark and
the predecessor's epoch (`choose_spec`), and the predecessor's mark by the marks of the leases the
manager remembers. It does not remember every lease it reads: not the one read at startup, nor one
that names another key, and a takeover goes on with the predecessor it read first when the lease is
lost and acquired again meanwhile. `Remembers` excludes just these.

* `Reaches` — a mark is not before those of the leases read; `MgrReaches`, `PcReaches`, `PhaseOk` say where
  such marks are kept.
* `no_rollback_of_remembers` — in runs whose steps meet `Remembers`, no unforced takeover goes back.
-/

namespace MongoRescue.HA.Proof

open Go (Bytes)
open Manager (Acquire Acquisition Renewal)

/-! ## Marks -/

variable {a b : SnapshotMark}

theorem before_iff :
    a.before b = true ↔ a.epoch < b.epoch ∨ a.epoch = b.epoch ∧ a.takenAt < b.takenAt := by
  unfold SnapshotMark.before
  split <;> simp_all

/-- No mark is between two that are not before each other. -/
theorem not_before_trans {c : SnapshotMark} (hab : ¬ a.before b) (hbc : ¬ b.before c) :
    ¬ a.before c := by
  simp only [before_iff, UInt64.lt_iff_toNat_lt, ← UInt64.toNat_inj, not_or, not_and] at *
  omega

theorem laterMark_left (a b : SnapshotMark) : ¬ (laterMark a b).before a := by
  unfold laterMark
  split
  · rename_i h
    simp only [before_iff, UInt64.lt_iff_toNat_lt, ← UInt64.toNat_inj, not_or, not_and] at *
    omega
  · simp [before_iff]

theorem laterMark_right (a b : SnapshotMark) : ¬ (laterMark a b).before b := by
  unfold laterMark
  split
  · simp [before_iff]
  · assumption

theorem eq_of_isZero {m : SnapshotMark} (h : m.isZero = true) : m = {} := by
  simp only [SnapshotMark.isZero, Bool.and_eq_true, decide_eq_true_eq] at h
  obtain ⟨h1, h2⟩ := h
  cases m
  simp_all

/-- The mark is not before the one any of the leases names. -/
def Reaches (m : SnapshotMark) (ls : List Lease) : Prop := ∀ l ∈ ls, ¬ m.before l.snapshotMark

theorem Reaches.mono {ls : List Lease} (hab : ¬ a.before b) (h : Reaches b ls) : Reaches a ls :=
  fun l hl => not_before_trans hab (h l hl)

/-! ## Selection -/

section
variable {cluster : String}

theorem verify_spec {h : SnapshotHeader} {key : String} (hv : h.verify cluster key = .ok ()) :
    h.cluster = cluster ∧ parseSnapshotKey key = some (h.createdAt, h.epoch) := by
  revert hv
  fun_cases SnapshotHeader.verify h cluster key <;> simp_all

/-- The header of a snapshot whose check found no error has the mark of its name. -/
theorem mark_of_verify {h : SnapshotHeader} {info : SnapshotInfo}
    (hv : h.verify cluster info.key = .ok ()) :
    (⟨h.epoch, h.createdAt⟩ : SnapshotMark) = info.mark := by
  have hp := (verify_spec hv).2
  rw [info.named, Option.some.injEq, Prod.mk.injEq] at hp
  simp [SnapshotInfo.mark, hp.1, hp.2]

/-- All snapshots whose header was read. -/
def checked (sel : SnapshotSelection cluster) : List (SnapshotCheck cluster) :=
  sel.verified ++ sel.legacy ++ sel.refused ++ sel.failed

structure SelOk (sel : SnapshotSelection cluster) : Prop where
  verified : ∀ c ∈ sel.verified, c.err = none
  headers : sel.headerSeen = false → ∀ c ∈ checked sel, ∀ h, c.header = some h →
    h.cluster ≠ cluster

variable {sel : SnapshotSelection cluster}

/-- A check is added to one of the four lists. -/
theorem mem_checked_add {c x : SnapshotCheck cluster}
    (h : x ∈ checked (sel.add c)) : x ∈ checked sel ∨ x = c := by
  grind [checked, SnapshotSelection.add]

theorem length_checked_add (sel : SnapshotSelection cluster) (c : SnapshotCheck cluster) :
    (checked (sel.add c)).length = (checked sel).length + 1 := by
  grind [checked, SnapshotSelection.add]

theorem listed_add (sel : SnapshotSelection cluster) (c : SnapshotCheck cluster) :
    (sel.add c).listed = sel.listed := by
  grind [SnapshotSelection.add]

theorem mem_verified_add {c x : SnapshotCheck cluster}
    (h : x ∈ (sel.add c).verified) : x ∈ sel.verified ∨ x = c ∧ c.verified = true := by
  grind [SnapshotSelection.add]

theorem headerSeen_add {c : SnapshotCheck cluster} (h : (sel.add c).headerSeen = false) :
    sel.headerSeen = false ∧ c.header.any (·.cluster = cluster) = false := by
  grind [SnapshotSelection.add]

theorem SelOk.add (h : SelOk sel) (c : SnapshotCheck cluster) : SelOk (sel.add c) where
  verified := fun x hx => by
    rcases mem_verified_add hx with hx | ⟨rfl, hv⟩
    · exact h.verified x hx
    · simp only [SnapshotCheck.verified, Bool.and_eq_true, Option.isNone_iff_eq_none] at hv
      exact hv.1
  headers := fun hs x hx k hk => by
    have hseen := headerSeen_add hs
    rcases mem_checked_add hx with hx | rfl
    · exact h.headers hseen.1 x hx k hk
    · simpa [hk] using hseen.2

/-- What a loop over the rest of a listing adds to a selection. -/
theorem selectSnapshots_spec (want : Nat) (retrieve : String → Retrieved)
    (list : List SnapshotInfo) (sel : SnapshotSelection cluster) (cache : SnapshotCache cluster)
    (h : SelOk sel) (hn : (checked sel).length + list.length = sel.listed) :
    SelOk (selectSnapshots want retrieve list sel cache).1 ∧
      ((selectSnapshots want retrieve list sel cache).1.complete = true →
        (checked (selectSnapshots want retrieve list sel cache).1).length =
          (selectSnapshots want retrieve list sel cache).1.listed) := by
  induction list generalizing sel cache with
  | nil => exact ⟨h, fun _ => hn⟩
  | cons info rest ih =>
    simp only [selectSnapshots]
    split
    · exact ⟨⟨h.verified, h.headers⟩, fun hc => (by cases hc)⟩
    · refine ih _ _ (h.add _) ?_
      rw [length_checked_add, listed_add, ← hn, List.length_cons]
      omega

theorem select_spec (cache : SnapshotCache cluster) (list : List SnapshotInfo) (want : Nat)
    (retrieve : String → Retrieved) : SelOk (cache.select list want retrieve).1 ∧
      ((cache.select list want retrieve).1.complete = true →
        (checked (cache.select list want retrieve).1).length =
          (cache.select list want retrieve).1.listed) :=
  selectSnapshots_spec want retrieve list _ _
    ⟨fun _ hc => (by cases hc), fun _ _ hc => (by cases hc)⟩ (by simp [checked])

/-! ## The decision -/

/-- What a takeover that finds snapshots may do, whatever leases were read. -/
structure Bounded (t : Takeover cluster) : Prop where
  pred : ¬ t.plan.mark.before t.pred.mark
  highWater : ¬ t.plan.mark.before (t.before.highWater cluster)
  epoch : t.pred.trust = .authentic → t.plan.mark.epoch ≤ t.pred.lease.epoch
  legacy : t.plan.legacy = true → (checked t.sel).length = t.sel.listed ∧
    (∀ c ∈ checked t.sel, ∀ h, c.header = some h → h.cluster ≠ cluster) ∧
    t.pred.mark.isZero = true ∧ (t.before.highWater cluster).isZero = true

/-- The candidates are the verified snapshots or, when all were read and none has a header of the
cluster, the legacy ones. -/
theorem candidates_spec {list : List (SnapshotCheck cluster)}
    {legacy : Bool} (h : sel.candidates = (list, legacy)) (hne : list ≠ []) :
    if legacy then sel.complete = true ∧ sel.headerSeen = false else list = sel.verified := by
  grind [SnapshotSelection.candidates]

theorem checkNewest_spec {pred : Predecessor} {high : SnapshotMark}
    {newest : SnapshotCheck cluster} {rest : List (SnapshotCheck cluster)} {legacy : Bool}
    (h : checkNewest pred high newest rest legacy = .ok ()) :
    if legacy then pred.mark.isZero = true ∧ high.isZero = true
    else (pred.trust = .authentic → ∀ k, newest.header = some k → k.epoch ≤ pred.lease.epoch) ∧
      ¬ newest.info.mark.before pred.mark ∧ ¬ newest.info.mark.before high := by
  unfold checkNewest at h
  grind [UInt64.not_lt]

theorem choose_spec {pred : Predecessor} {st : State} {plan : Plan cluster} (hsel : SelOk sel)
    (hall : sel.complete = true → (checked sel).length = sel.listed)
    (h : choose pred sel st = .ok plan) (hl : sel.listed ≠ 0) : Bounded ⟨pred, sel, st, plan⟩ := by
  unfold choose at h
  rw [if_neg hl] at h
  split at h
  · cases h
  split at h
  · cases h
  rename_i newest rest legacy hcand
  split at h
  · cases h
  rename_i hnew
  have hcand := candidates_spec hcand (List.cons_ne_nil _ _)
  have hnew := checkNewest_spec hnew
  -- kept or restored, the plan has the mark of the newest candidate
  have hplan : plan.mark = (if legacy then {} else newest.info.mark) ∧ plan.legacy = legacy := by
    split at h <;> cases h <;> exact ⟨rfl, rfl⟩
  cases legacy with
  | true =>
    simp only [if_true] at hcand hnew hplan
    have hp := eq_of_isZero hnew.1
    have hh := eq_of_isZero hnew.2
    refine ⟨?_, ?_, fun _ => ?_, fun _ => ⟨hall hcand.1, hsel.headers hcand.2, hnew⟩⟩
    · simp only [hplan.1, hp]
      decide
    · simp only [hplan.1, hh]
      decide
    · rw [hplan.1]
      exact UInt64.le_iff_toNat_le.mpr (Nat.zero_le _)
  | false =>
    simp only [Bool.false_eq_true, if_false] at hcand hnew hplan
    refine ⟨?_, ?_, fun ht => ?_, fun hf => ?_⟩
    · rw [hplan.1]
      exact hnew.2.1
    · rw [hplan.1]
      exact hnew.2.2
    · obtain ⟨k, hk, hv⟩ := newest.agrees (hsel.verified newest (hcand ▸ List.mem_cons_self))
      have hmark := mark_of_verify hv
      rw [hplan.1, ← hmark]
      exact hnew.1 ht k hk
    · rw [hplan.2] at hf
      cases hf

end

/-! ## The manager -/

/-- The marks the manager keeps reach the leases that were read: the remembered one, and that of
the lease it replaced while it is active. -/
structure MgrReaches (m : Manager) (read : List Lease) : Prop where
  seen : Reaches m.seenMark read
  active : m.role = .active → Reaches m.pred.mark read

/-- A standby waits for the answers of `observe` and `acquire`. -/
def PcReaches (m : Manager) (read : List Lease) : Pc → Prop
  | .reading _ => m.role = .standby
  | .flooring _ => m.role = .standby
  | .acquiring _ a => m.role = .standby ∧ Reaches a.pred.mark read
  | _ => True

structure PieceReaches (q : Piece) (read : List Lease) : Prop where
  mgr : MgrReaches q.mgr read
  pc : PcReaches q.mgr read (q.pc 0)

theorem MgrReaches.sameOrStepped {m m' : Manager} {read : List Lease} (h : MgrReaches m read)
    (hs : Same m m' ∨ Stepped m m') : MgrReaches m' read := by
  rcases hs with hs | hs
  · exact ⟨hs.seenMark ▸ h.seen, fun hr => hs.pred ▸ h.active (hs.role ▸ hr)⟩
  · refine ⟨hs.seenMark ▸ h.seen, fun hr => ?_⟩
    rw [hs.role] at hr
    cases hr

theorem MgrReaches.same {m m' : Manager} {read : List Lease} (h : MgrReaches m read) (hs : Same m m') :
    MgrReaches m' read :=
  h.sameOrStepped (.inl hs)

theorem standby_of_ne {r : Role} (h : ¬ r = .active) : r = .standby := by
  cases r
  · rfl
  · exact absurd rfl h

section
variable {hmac : Bytes → String → Bytes} {read : List Lease} {m : Manager}

theorem renewPiece_reaches (h : MgrReaches m read) (after : After) (c : Clocks) :
    PieceReaches (renewPiece hmac m after c) read := by
  unfold renewPiece
  rcases renewSend_spec hmac m c with ⟨m', he, hm'⟩ | ⟨r, mac, he, -⟩
  · rw [he]
    exact ⟨(h.sameOrStepped hm').same (afterRenew_same _ _ _), trivial⟩
  · rw [he]
    exact ⟨h, trivial⟩

theorem releasePiece_reaches (h : MgrReaches m read) (c : Clocks) :
    PieceReaches (releasePiece hmac m c) read := by
  unfold releasePiece
  rcases m.releaseSend hmac c with _ | ⟨next, data⟩
  · exact ⟨h.sameOrStepped (stepDown_spec (.refl m) _ _), trivial⟩
  · exact ⟨h, trivial⟩

theorem callPiece_reaches (h : MgrReaches m read) (op : Op) (c : Clocks) :
    PieceReaches (callPiece hmac m op c) read := by
  cases op with
  | step =>
    simp only [callPiece]
    split
    · exact renewPiece_reaches h _ _
    · rename_i hr
      exact ⟨h, standby_of_ne hr⟩
  | confirm mark =>
    simp only [callPiece]
    split
    · exact ⟨h, trivial⟩
    · rename_i m' hm'
      exact renewPiece_reaches (h.same (confirmBegin_spec hm').2) _ _
  | recordSnapshot mark =>
    simp only [callPiece]
    split
    · exact ⟨h, trivial⟩
    · rename_i m' hm'
      exact renewPiece_reaches (h.same (recordBegin_spec hm').2) _ _
  | stepDown release =>
    cases release with
    | false => exact ⟨h.sameOrStepped (stepDown_spec (.refl m) _ _), trivial⟩
    | true => exact releasePiece_reaches h c
  | release => exact releasePiece_reaches h c

def otherKey (m : Manager) (l : Lease) : Prop :=
  l.keyID ≠ "" ∧ m.cfg.keyID ≠ "" ∧ l.keyID ≠ m.cfg.keyID

theorem readPiece_reaches (h : MgrReaches m read) (hr : m.role = .standby) (ans : ReadAnswer)
    (hkey : ∀ l ∈ Member.authenticIn hmac m ans, otherKey m l → ¬ m.seenMark.before l.snapshotMark)
    (c : Clocks) : PieceReaches (readPiece hmac m ans c) (read ++ Member.authenticIn hmac m ans) := by
  cases ans with
  | notFound =>
    simp only [Member.authenticIn, List.append_nil, readPiece, Manager.observeAnswer]
    by_cases hcool : c.now < m.cooldownUntil
    · simp only [hcool, if_true]
      exact ⟨⟨h.seen, h.active⟩, trivial⟩
    · simp only [hcool, if_false]
      exact ⟨⟨h.seen, h.active⟩, hr⟩
  | failed =>
    simp only [Member.authenticIn, List.append_nil]
    exact ⟨h.same (recordError_same _ _), trivial⟩
  | found d v =>
    obtain ⟨m', acq, heq, hobs, -⟩ := observeFound_spec hmac m d v c.now
    have hr' : m'.role = .standby := hobs.role.trans hr
    have hm : MgrReaches m' (read ++ Member.authenticIn hmac m (.found d v)) := by
      refine ⟨?_, fun ha => ?_⟩
      · rcases hobs.seenMark with ⟨hd, hs⟩ | ⟨l, hd, hs⟩
        · rw [hs]
          simpa [Member.authenticIn, hd] using h.seen
        · have hold : ¬ m'.seenMark.before m.seenMark := by
            rw [hs]
            split
            · exact laterMark_left _ _
            · simp [before_iff]
          intro k hk
          rcases List.mem_append.mp hk with hk | hk
          · exact not_before_trans hold (h.seen k hk)
          · have hmem := hk
            simp only [Member.authenticIn, hd, Option.toList_some, List.mem_filter,
              List.mem_singleton] at hk
            obtain ⟨rfl, hauth⟩ := hk
            by_cases ho : otherKey m k
            · exact not_before_trans hold (hkey k hmem ho)
            · rw [hs, if_pos ⟨hauth, ho⟩]
              exact laterMark_right _ _
      · rw [hr'] at ha
        cases ha
    simp only [readPiece, Manager.observeAnswer, heq]
    cases acq with
    | none => exact ⟨hm, trivial⟩
    | some a => exact ⟨hm, hr'⟩

/-- The mark of the replaced lease is at least the remembered one. -/
theorem assess_mark (m : Manager) (prev : Option Content) :
    ¬ (m.assess hmac prev).mark.before m.seenMark := by
  have hrefl : ¬ m.seenMark.before m.seenMark := by simp [before_iff]
  fun_cases Manager.assess
  all_goals first | exact hrefl | exact laterMark_left _ _

theorem floorPiece_reaches (h : MgrReaches m read) (hr : m.role = .standby) (a : Acquire)
    (ans : FloorAnswer) (c : Clocks) : PieceReaches (floorPiece hmac m a ans c) read := by
  unfold floorPiece
  rcases acquireSend_spec hmac m a ans c with ⟨m', he, hm'⟩ | ⟨acq, mac, he, hq⟩
  · rw [he]
    exact ⟨h.same hm', trivial⟩
  · rw [he]
    refine ⟨h, hr, ?_⟩
    rw [hq.pred]
    exact h.seen.mono (assess_mark m _)

theorem renewAnswer_reaches (h : MgrReaches m read) (r : Renewal) (ans : WriteAnswer) (c : Clocks) :
    MgrReaches (m.renewAnswer r ans c) read := by
  rcases renewAnswer_spec m r ans c with ⟨v, -, hh, hrole, hpred, -⟩ | hs
  · exact ⟨hh.seenMark ▸ h.seen, fun hr => hpred ▸ h.active (hrole ▸ hr)⟩
  · exact h.sameOrStepped hs

theorem writePiece_reaches {pc : Pc} {ans : WriteAnswer} {c : Clocks} {q : Piece}
    (h : MgrReaches m read) (hpc : PcReaches m read pc) (hq : writePiece hmac m pc ans c = some q) :
    PieceReaches q read := by
  cases pc with
  | acquiring rid a =>
    cases hq
    refine ⟨?_, trivial⟩
    rcases acquireAnswer_spec hmac m a ans with ⟨v, -, hh, hpred, -⟩ | hs
    · exact ⟨hh.seenMark ▸ h.seen, fun _ => hpred ▸ hpc.2⟩
    · exact h.same hs
  | renewing rid r after =>
    cases hq
    exact ⟨(renewAnswer_reaches h r ans c).same (afterRenew_same _ _ _), trivial⟩
  | releasing rid next =>
    cases hq
    refine ⟨?_, trivial⟩
    rcases releaseAnswer_spec m next ans c with ⟨v, -, he⟩ | hs
    · rw [he]
      exact ⟨h.seen, h.active⟩
    · exact h.same hs
  | idle => cases hq
  | reading s => cases hq
  | flooring a => cases hq
  | leaving => cases hq

end

/-! ## The process -/

section
variable {cluster : String}

/-- **A takeover that did not go back**, as far as the process and the instance know. -/
structure NoRollback (d : Done cluster) : Prop where
  /-- The mark is not before one that an authentic lease named which the process had read. -/
  leases : Reaches d.plan.mark d.read
  /-- Nor before the stored high-water mark. -/
  highWater : ¬ d.plan.mark.before (d.before.highWater cluster)
  /-- Its epoch is not above that of the replaced lease. -/
  epoch : d.pred.trust = .authentic → d.plan.mark.epoch ≤ d.pred.lease.epoch
  /-- A legacy snapshot is used only when the header of every listed snapshot was read, none is of
  the cluster, and neither a lease nor the instance knows a mark. -/
  legacy : d.plan.legacy = true → (checked d.sel).length = d.sel.listed ∧
    (∀ c ∈ checked d.sel, ∀ h, c.header = some h → h.cluster ≠ cluster) ∧
    d.pred.mark.isZero = true ∧ (d.before.highWater cluster).isZero = true
  /-- What was restored has the mark, by its authenticated header. -/
  restored : d.plan.legacy = false → ∀ h, d.header = some h →
    (⟨h.epoch, h.createdAt⟩ : SnapshotMark) = d.plan.mark

/-- A takeover is under way. -/
def underWay : Phase cluster → Bool
  | .selecting _ _ => true
  | .restoring _ _ => true
  | .confirming _ _ _ => true
  | _ => false

/-- **The leases are remembered**: an authentic lease that is read at startup, or that names another
key, names no later snapshot than the manager remembers; a takeover begins while the lease is held,
and no authentic lease is read before it is over. -/
def Remembers (hmac : Bytes → String → Bytes) (s : Member cluster) : MemberEvent → Prop
  | .observe ans => ∀ l ∈ Member.authenticIn hmac s.mgr ans, ¬ s.mgr.seenMark.before l.snapshotMark
  | .read ans _ => ∀ l ∈ Member.authenticIn hmac s.mgr ans, underWay s.phase = false ∧
    (otherKey s.mgr l → ¬ s.mgr.seenMark.before l.snapshotMark)
  | .takeOver _ => s.mgr.role = .active
  | _ => True

/-- A takeover in progress, with the header of what it restored. -/
def JobOk (read : List Lease) (header : Option SnapshotHeader) : Job cluster → Prop
  | .chosen t => t.sel.listed ≠ 0 → Bounded t ∧ Reaches t.pred.mark read ∧
    ∀ h, header = some h → t.plan.legacy = false →
      (⟨h.epoch, h.createdAt⟩ : SnapshotMark) = t.plan.mark
  | .forced _ => True

def PhaseOk (read : List Lease) : Phase cluster → Prop
  | .selecting pred _ => Reaches pred.mark read
  | .restoring job _ => JobOk read none job
  | .confirming job header _ => JobOk read header job
  | _ => True

/-- A phase the supervisor can go to. -/
def NextOk (read : List Lease) : Phase cluster → Prop
  | .starting => False
  | p => PhaseOk read p

structure MemberOk (s : Member cluster) : Prop where
  mgr : MgrReaches s.mgr s.read
  pc : PcReaches s.mgr s.read s.pc
  start : s.phase = .starting → s.mgr.role = .standby ∧ s.pc = .idle
  phase : PhaseOk s.read s.phase
  done : ∀ d ∈ s.done, d.sel.listed ≠ 0 → NoRollback d

theorem phaseOk_of_not_underWay {read : List Lease} {p : Phase cluster} (h : underWay p = false) :
    PhaseOk read p := by
  cases p <;> trivial

variable {s : Member cluster}

/-- The manager goes on and reads nothing. -/
theorem MemberOk.proceed (h : MemberOk s) {q : Piece}
    (hs : s.phase ≠ .starting) (hq : PieceReaches q s.read) : MemberOk (s.proceed q) :=
  ⟨hq.mgr, hq.pc, fun hp => absurd hp hs, h.phase, h.done⟩

/-- Only the supervisor goes on. -/
theorem MemberOk.goTo (h : MemberOk s) {st : State}
    {cache : SnapshotCache cluster} {p : Phase cluster} (hp : NextOk s.read p) :
    MemberOk { s with state := st, cache := cache, phase := p } := by
  cases p with
  | starting => cases hp
  | _ => exact ⟨h.mgr, h.pc, fun he => (by cases he), hp, h.done⟩

theorem MemberOk.nextOk (h : MemberOk s) (hs : s.phase ≠ .starting) : NextOk s.read s.phase := by
  have hp := h.phase
  cases he : s.phase with
  | starting => exact absurd he hs
  | _ =>
    rw [he] at hp
    exact hp

theorem MemberOk.not_starting (h : MemberOk s) (hpc : s.pc ≠ .idle) : s.phase ≠ .starting :=
  fun hp => hpc (h.start hp).2

section
variable {hmac : Bytes → String → Bytes} {header : Option SnapshotHeader}

theorem MemberOk.bootstrap (h : MemberOk s) (hp : s.phase = .starting) {ans : ReadAnswer}
    (hr : ∀ l ∈ Member.authenticIn hmac s.mgr ans, ¬ s.mgr.seenMark.before l.snapshotMark) :
    MemberOk (s.bootstrap hmac ans) := by
  obtain ⟨hrole, hpc⟩ := h.start hp
  have hbase : ∀ (st : State) (p : Phase cluster), p ≠ .starting → underWay p = false →
      MemberOk { s with
        state := st, phase := p, read := s.read ++ Member.authenticIn hmac s.mgr ans } := by
    intro st p hne ht
    refine ⟨⟨fun l hl => ?_, fun ha => ?_⟩, ?_, fun he => absurd he hne,
      phaseOk_of_not_underWay ht, h.done⟩
    · rcases List.mem_append.mp hl with hl | hl
      · exact h.mgr.seen l hl
      · exact hr l hl
    · rw [show s.mgr.role = .active from ha] at hrole
      cases hrole
    · show PcReaches _ _ s.pc
      rw [hpc]
      trivial
  unfold Member.bootstrap
  dsimp only
  repeat' split
  all_goals exact hbase _ _ (fun he => by cases he) rfl

theorem MemberOk.checkSnapshotKey (h : MemberOk s) (t : Option Target) :
    MemberOk (s.checkSnapshotKey t) := by
  cases t with
  | none => exact h.goTo trivial
  | some t =>
    unfold Member.checkSnapshotKey
    dsimp only
    split <;> exact h.goTo trivial

theorem MemberOk.selectForTakeover (h : MemberOk s) {pred : Predecessor}
    (hpred : Reaches pred.mark s.read) (attempt : Nat) (t : Option Target) :
    MemberOk (s.selectForTakeover pred attempt t) := by
  cases t with
  | none => exact h.goTo trivial
  | some t =>
    obtain ⟨hsel, hall⟩ := select_spec s.cache t.list 2 t.retrieve
    unfold Member.selectForTakeover
    dsimp only
    split
    · split
      · exact h.goTo trivial
      · exact h.goTo hpred
    · split
      · exact h.goTo trivial
      · rename_i plan hplan
        have hjob : JobOk s.read none (.chosen ⟨pred, _, s.state, plan⟩) := fun hl =>
          ⟨choose_spec hsel hall hplan hl, hpred, fun _ hh => (by cases hh)⟩
        split <;> exact h.goTo hjob

variable {job : Job cluster}

theorem JobOk.fetched {read : List Lease} (h : JobOk read none job)
    {info : SnapshotInfo} {allowLegacy : Bool} (hs : job.source = some (info, allowLegacy))
    {r : Retrieved} {k : SnapshotHeader} (hr : openSnapshot cluster info.key r = (none, some k)) :
    JobOk read (some k) job := by
  cases job with
  | forced o => trivial
  | chosen t =>
    intro hl
    obtain ⟨h1, h2, -⟩ := h hl
    refine ⟨h1, h2, fun k' hk' hleg => ?_⟩
    cases hk'
    have hmark : (⟨k.epoch, k.createdAt⟩ : SnapshotMark) = info.mark :=
      mark_of_verify (openSnapshot_agrees hr)
    rw [hmark]
    unfold Job.source at hs
    dsimp only at hs
    split at hs
    · rename_i newest legacy hplan
      cases hs
      rw [hplan] at hleg ⊢
      cases hleg
      rfl
    · cases hs

theorem MemberOk.restoreSnapshot (h : MemberOk s)
    (hjob : JobOk s.read none job) (attempt : Nat) (r : Retrieved) (replaced : Bool) :
    MemberOk (s.restoreSnapshot job attempt r replaced) := by
  have hagain : MemberOk (if attempt ≥ takeoverAttempts then { s with phase := .standby }
      else { s with phase := .restoring job (attempt + 1) }) := by
    split
    · exact h.goTo trivial
    · exact h.goTo hjob
  unfold Member.restoreSnapshot
  split
  · exact h.goTo hjob
  · rename_i info allowLegacy hsource
    dsimp only
    split
    · exact hagain
    · exact h.goTo trivial
    · split
      · exact h.goTo trivial
      · split
        · exact h.goTo hjob
        · exact hagain
    · rename_i k hk
      split
      · exact h.goTo (hjob.fetched hsource hk)
      · exact hagain

theorem MemberOk.finish (h : MemberOk s)
    (hjob : JobOk s.read header job) (ok : Bool) : MemberOk (s.finish job header ok) := by
  unfold Member.finish
  split
  · exact h.goTo trivial
  · refine ⟨h.mgr, h.pc, fun he => (by cases he), trivial, fun d hd hl => ?_⟩
    cases job with
    | forced o => exact h.done d hd hl
    | chosen t =>
      rcases List.mem_append.mp hd with hd | hd
      · exact h.done d hd hl
      · rw [List.mem_singleton] at hd
        subst hd
        obtain ⟨hb, hreach, hmark⟩ := hjob hl
        exact ⟨hreach.mono hb.pred, hb.highWater, hb.epoch, hb.legacy,
          fun hleg k hk => hmark k hk hleg⟩

theorem MemberOk.confirmEnd (h : MemberOk s) (hs : s.phase ≠ .starting)
    {m : Manager} (hm : MgrReaches m s.read) (held : Lease)
    (hjob : JobOk s.read header job) (c : Clocks) :
    MemberOk (s.confirmEnd hmac m held job header c) := by
  have hsame : Same m (afterRenew hmac m (.confirm held) c) := afterRenew_same _ _ _
  have hq : PieceReaches { mgr := afterRenew hmac m (.confirm held) c } s.read :=
    ⟨hm.same hsame, trivial⟩
  exact (h.proceed hs hq).finish hjob _

theorem MemberOk.confirmTakeover (h : MemberOk s) (hs : s.phase ≠ .starting)
    (hjob : JobOk s.read header job) (c : Clocks) :
    MemberOk (s.confirmTakeover hmac job header c) := by
  unfold Member.confirmTakeover
  dsimp only
  split
  · exact h.goTo trivial
  · rename_i m hm
    have hok := h.mgr.same (confirmBegin_spec hm).2
    have hst : MemberOk { s with
        state := s.state.observe cluster (job.mark header) job.reset } := h.goTo (h.nextOk hs)
    rcases renewSend_spec hmac m c with ⟨m', he, hm'⟩ | ⟨r, mac, he, -⟩
    · rw [he]
      exact hst.confirmEnd hs (hok.sameOrStepped hm') _ hjob c
    · rw [he]
      exact ⟨hok, trivial, fun he => (by cases he), hjob, h.done⟩

theorem MemberOk.writeReturn {s' : Member cluster} (h : MemberOk s) {ans : WriteAnswer}
    {c : Clocks} (hw : s.writeReturn hmac ans c = some s') : MemberOk s' := by
  have hother : ∀ {q}, writePiece hmac s.mgr s.pc ans c = some q → MemberOk (s.proceed q) := by
    intro q hq
    have hne : s.pc ≠ .idle := fun hi => by
      rw [hi] at hq
      cases hq
    exact h.proceed (h.not_starting hne) (writePiece_reaches h.mgr h.pc hq)
  unfold Member.writeReturn at hw
  split at hw
  · rename_i job header r held hp _
    cases hw
    have hphase := h.phase
    rw [hp] at hphase
    exact h.confirmEnd (by simp [hp]) (renewAnswer_reaches h.mgr _ _ _) _
      hphase c
  · obtain ⟨q, hq, rfl⟩ := Option.map_eq_some_iff.mp hw
    exact hother hq

theorem MemberOk.step {s' : Member cluster} {ev : MemberEvent} (h : MemberOk s)
    (hr : Remembers hmac s ev) (hstep : s.step hmac ev = some s') : MemberOk s' := by
  have hphase := h.phase
  revert hstep
  fun_cases Member.step hmac s ev
  case case16 => exact h.writeReturn
  all_goals intro hstep; cases hstep
  case case1 ans hp => exact h.bootstrap hp hr
  case case3 t _ _ => exact h.checkSnapshotKey t
  case case10 op c _ hs _ _ => exact h.proceed hs (callPiece_reaches h.mgr op c)
  case case11 ans c served hpc =>
    have hok := h.pc
    rw [hpc] at hok
    have hq := readPiece_reaches h.mgr hok ans (fun l hl => (hr l hl).2) c
    refine ⟨hq.mgr, hq.pc, fun he => absurd he (h.not_starting (by simp [hpc])), ?_, h.done⟩
    -- what a takeover relies on is not changed by a read without an authentic lease
    rcases hl : Member.authenticIn hmac s.mgr ans with _ | ⟨l, ls⟩
    · show PhaseOk (s.read ++ []) s.phase
      rw [List.append_nil]
      exact h.phase
    · exact phaseOk_of_not_underWay (hr l (by rw [hl]; exact List.mem_cons_self)).1
  case case14 ans c a hpc _ =>
    have hok := h.pc
    rw [hpc] at hok
    exact h.proceed (h.not_starting (by simp [hpc])) (floorPiece_reaches h.mgr hok a ans c)
  case case18 c hpc =>
    exact h.proceed (h.not_starting (by simp_all))
      ⟨h.mgr.sameOrStepped (stepDown_spec (.refl s.mgr) _ _), trivial⟩
  case case19 o _ => exact h.goTo trivial
  case case20 o _ _ => exact h.goTo (h.mgr.active hr)
  case case22 t pred attempt hp _ =>
    rw [hp] at hphase
    exact h.selectForTakeover hphase attempt t
  case case25 r replaced job attempt hp =>
    rw [hp] at hphase
    exact h.restoreSnapshot hphase attempt r replaced
  case case28 c job header hp _ =>
    rw [hp] at hphase
    exact h.confirmTakeover (by simp [hp]) hphase c
  case case34 => exact h.goTo trivial
  all_goals exact h.goTo (h.nextOk (by simp_all))

theorem MemberOk.init {s : Member cluster} (h : s.Initial) : MemberOk s := by
  obtain ⟨⟨cfg, -, hm⟩, hpc, -, hp, hread, hdone⟩ := h
  have hrole : s.mgr.role = .standby := by
    unfold Manager.new at hm
    split at hm
    · cases hm
    · rw [← Except.ok.inj hm]
  refine ⟨⟨?_, fun ha => ?_⟩, ?_, fun _ => ⟨hrole, hpc⟩, ?_, ?_⟩
  · rw [hread]
    exact fun l hl => (by cases hl)
  · rw [hrole] at ha
    cases ha
  · rw [hpc]
    trivial
  · rw [hp]
    trivial
  · rw [hdone]
    exact fun d hd => (by cases hd)

/-- **No unforced takeover rolls the metadata back** while the leases are remembered. -/
theorem no_rollback_of_remembers {s : Member cluster}
    (h : (member hmac cluster).Reach (Remembers hmac) s) {d : Done cluster} (hd : d ∈ s.done)
    (hl : d.sel.listed ≠ 0) : NoRollback d :=
  (Trans.Sys.Reach.inv (I := MemberOk) (fun _ hi => .init hi)
    (fun _ _ _ hok hr hst => hok.step hr hst) h).done d hd hl

end

end

/-! ## Two runs -/

instance (m : Manager) (l : Lease) : Decidable (otherKey m l) :=
  inferInstanceAs (Decidable (_ ∧ _ ∧ _))

instance {cluster : String} (hmac : Bytes → String → Bytes) (s : Member cluster)
    (ev : MemberEvent) : Decidable (Remembers hmac s ev) :=
  match ev with
  | .observe ans => inferInstanceAs
    (Decidable (∀ l ∈ Member.authenticIn hmac s.mgr ans, ¬ s.mgr.seenMark.before l.snapshotMark))
  | .read ans _ => inferInstanceAs (Decidable (∀ l ∈ Member.authenticIn hmac s.mgr ans,
    underWay s.phase = false ∧ (otherKey s.mgr l → ¬ s.mgr.seenMark.before l.snapshotMark)))
  | .takeOver _ => inferInstanceAs (Decidable (s.mgr.role = .active))
  | .checkKey _ => .isTrue trivial
  | .call _ _ => .isTrue trivial
  | .floor _ _ => .isTrue trivial
  | .write _ _ => .isTrue trivial
  | .leave _ => .isTrue trivial
  | .select _ => .isTrue trivial
  | .restore _ _ => .isTrue trivial
  | .confirm _ => .isTrue trivial
  | .activate => .isTrue trivial
  | .written _ => .isTrue trivial
  | .lost => .isTrue trivial

/-- A MAC without collisions: the bytes of the text. -/
def encoded (_ : Bytes) (text : String) : Bytes := text.toByteArray.data.toList

def memberCfg : Config :=
  { cluster := "c", instanceID := "a", keyID := "k", macKey := some [], ttl := 30 * Go.second
    renew := 10 * Go.second, epochFloor := true }

def newMember : Member "c" :=
  ⟨{ cfg := memberCfg, valid := rfl }, .idle, { instanceID := "a" }, [], .starting, [], []⟩

theorem newMember_initial : (member encoded "c").init newMember :=
  ⟨⟨memberCfg, rfl, rfl⟩, rfl, rfl, rfl, rfl, rfl⟩

/-- The 1st of January 2026. -/
def firstDay : Int := 1767225600 * Go.second

/-- A lease that the holder of epoch 4 released after its last snapshot. -/
def earlierLease : Lease :=
  Lease.sign encoded { cluster := "c", epoch := 4, ttlSeconds := 30, keyID := "k"
                       lastSnapshotEpoch := 4, lastSnapshotAt := firstDay } []

/-- The lease of the holder of epoch 5, which wrote a snapshot since. -/
def laterLease : Lease :=
  Lease.sign encoded { cluster := "c", holder := "b", epoch := 5, ttlSeconds := 30, keyID := "k"
                       lastSnapshotEpoch := 5, lastSnapshotAt := firstDay + 60 * Go.second } []

def earlierKey : String :=
  "_mongorescue/metadata/ha/c/mongorescue-20260101T000000000Z-e00000000000000000004.db.age"

def earlierHeader : SnapshotHeader :=
  { cluster := "c", epoch := 4, instanceID := "z", createdAt := firstDay }

/-- Only the snapshot of epoch 4 is left on the target. -/
def earlierTarget : Target :=
  { objs := [{ key := earlierKey }]
    list := ((⟨earlierKey, 0, Go.zeroTime, ""⟩ : StoredObject).snapshot "c").toList
    retrieve := fun _ => .plain (.headed earlierHeader) }

/-- A takeover from the lease of epoch 4, after a startup that read `ans`. -/
def takesOver (ans : ReadAnswer) : List MemberEvent :=
  let c : Clocks := ⟨0, 0, 0, 0⟩
  [.observe ans, .checkKey (some earlierTarget), .call .step c,
    .read (.found (.json earlierLease) 8) c, .floor (.ok 4) c, .write (.ok 9) c, .takeOver none,
    .select (some earlierTarget), .restore (.plain (.headed earlierHeader)) true, .confirm c,
    .write (.ok 10) c]

/-- A takeover succeeded that found snapshots, and went back behind the given lease. -/
def tookOver (behind : Option Lease) (s : Member "c") : Bool :=
  s.done.any fun d => decide (d.sel.listed ≠ 0) &&
    behind.all fun l => decide (l ∈ d.read) && d.plan.mark.before l.snapshotMark

theorem tookOver_spec {behind : Option Lease} {s : Member "c"} (h : tookOver behind s = true) :
    ∃ d ∈ s.done, d.sel.listed ≠ 0 ∧
      ∀ l, behind = some l → l ∈ d.read ∧ d.plan.mark.before l.snapshotMark := by
  simp only [tookOver, List.any_eq_true, Bool.and_eq_true, decide_eq_true_eq] at h
  obtain ⟨d, hd, hl, hb⟩ := h
  refine ⟨d, hd, hl, fun l hbl => ?_⟩
  subst hbl
  simpa only [Option.all_some, Bool.and_eq_true, decide_eq_true_eq] using hb

theorem takesOver_remembers :
    (member encoded "c").Along (Remembers encoded) newMember (takesOver .failed) :=
  Trans.Sys.along_of_meets (fun s ev => decide (Remembers encoded s ev))
    (fun _ _ h => of_decide_eq_true h) (by decide +kernel)

theorem no_rollback_of_remembers_fresh :
    ∃ (s : Member "c") (d : Done "c"), (member encoded "c").Reach (Remembers encoded) s ∧
      d ∈ s.done ∧ d.sel.listed ≠ 0 ∧ NoRollback d := by
  obtain ⟨s, hs, ht⟩ := Trans.Sys.exists_exec (M := member encoded "c") newMember
    (takesOver .failed) (tookOver none) (by decide +kernel)
  obtain ⟨d, hd, hl, -⟩ := tookOver_spec ht
  have hreach := Trans.Sys.reach_of_exec (.init newMember_initial) takesOver_remembers hs
  exact ⟨s, d, hreach, hd, hl, no_rollback_of_remembers hreach hd hl⟩

/-- **The lease read at startup is forgotten**: it names a snapshot of epoch 5; the earlier lease is
put back and the newer snapshots are deleted, and the takeover restores the one of epoch 4. -/
theorem startup_lease_forgotten :
    ∃ (s : Member "c") (d : Done "c"), (member encoded "c").Reach Trans.Sys.Any s ∧
      d ∈ s.done ∧ d.sel.listed ≠ 0 ∧ laterLease ∈ d.read ∧
      d.plan.mark.before laterLease.snapshotMark ∧ ¬ NoRollback d := by
  obtain ⟨s, hs, ht⟩ := Trans.Sys.exists_exec (M := member encoded "c") newMember
    (takesOver (.found (.json laterLease) 7)) (tookOver (some laterLease)) (by decide +kernel)
  obtain ⟨d, hd, hl, hback⟩ := tookOver_spec ht
  obtain ⟨hmem, hbefore⟩ := hback laterLease rfl
  have hreach := Trans.Sys.reach_of_exec (.init newMember_initial) (Trans.Sys.along_any _ _) hs
  exact ⟨s, d, hreach, hd, hl, hmem, hbefore, fun hn => hn.leases laterLease hmem hbefore⟩

end MongoRescue.HA.Proof
