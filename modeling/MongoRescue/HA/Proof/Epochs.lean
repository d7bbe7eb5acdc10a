import MongoRescue.HA.Fencing
import MongoRescue.HA.Proof.History

/-!
# Epochs fence

An acquisition continues from the highest epoch its instance has seen and from the floor, and takes
effect only on the version it read. What the instance has seen need not be all there was: a lease
that is gone or unreadable does not tell its epoch, and the floor tells only those under which a
snapshot was written. `Covered` asks for what is missing: when an instance that found no readable
lease reads the floor, every epoch so far is below the one it continues from or has a snapshot; and
a lease is created only if none was written since then.

* `Raised`, `Keeps` — what is known of a request when it is sent: an acquisition exceeds every epoch
  up to the version it expects (`Above`); a renewal or release has the epoch of the version its own
  process wrote.
* `fenced_of_covered` — in covered runs the epochs of the acquisitions increase, no epoch has two
  holders, and every one exceeds its floor.
-/

namespace MongoRescue.HA.Proof

open Go (Bytes)
open Manager (Acquire Acquisition Renewal)
open Fencing (largest granted Surroundings)

variable {ι : Type}

/-! ## The statement -/

/-- Version `v` was written by an acquisition of the process `pid` under the epoch `x`. -/
def AcquiredBy (s : Fencing ι) (v pid : Nat) (x : UInt64) : Prop :=
  ∃ e rid r l, Wrote s.world v e rid r ∧ (∃ g ∈ s.grants, g.rid = rid) ∧ r.pid = pid ∧
    e.data = .json l ∧ l.epoch = x

/-- **The epochs fence.** -/
structure Fenced (s : Fencing ι) : Prop where
  /-- The epochs grow with every acquisition. -/
  increasing : ∀ u v pid pid' x y, u < v → AcquiredBy s u pid x → AcquiredBy s v pid' y → x < y
  /-- An active process holds an epoch it acquired, and no other process acquired it. -/
  held : ∀ i p, s.world.procs i = some p → p.mgr.role = .active →
    ∃ v, AcquiredBy s v p.pid p.mgr.lease.epoch ∧
      ∀ u pid, AcquiredBy s u pid p.mgr.lease.epoch → u = v ∧ pid = p.pid
  /-- Every other write of an instance has the epoch of the version it replaced. -/
  kept : ∀ v e rid r l, Wrote s.world v e rid r → (∀ g ∈ s.grants, g.rid ≠ rid) →
    e.data = .json l → ∃ u f k, r.cond = .matches (some u) ∧ s.world.log[u]? = some f ∧
      f.data = .json k ∧ l.epoch = k.epoch
  /-- An acquired epoch exceeds the floor that was read for it. -/
  floor : ∀ g ∈ s.grants, ∀ v e r l, Wrote s.world v e g.rid r → e.data = .json l →
    g.floor < l.epoch

/-- Every epoch so far is below `x`, or a snapshot was written under it or a later one. -/
def Recorded (s : Fencing ι) (x : UInt64) : Prop :=
  ∀ (v : Nat) (e : Commit) (l : Lease), s.world.log[v]? = some e → e.data = .json l →
    l.epoch < x ∨ ∃ y ∈ s.snapshots, l.epoch ≤ y

/-- An instance that found no readable lease reads a floor that covers every epoch so far, and the
lease it creates is the first since then. -/
def Covered (s : Fencing ι) : FenceEvent ι → Prop
  | .ha (.floorReturn i (.ok _) _) => ∀ p a, s.world.procs i = some p → p.pc = .flooring a →
    (∀ d v, a.prev = some (d, v) → decodeLease d = none) → Recorded s a.epoch
  | .ha (.commit rid) => ∀ g ∈ s.grants, g.rid = rid → ∀ r, s.world.net[rid]? = some r →
    r.cond = .absent → s.world.log.length = g.written
  | _ => True

/-! ## Epochs as numbers -/

variable {x : UInt64} {r : Request} {pid rid v : Nat} {m : Manager}

theorem lt_largest : x < largest ↔ x.toNat + 1 < 18446744073709551616 := by
  rw [UInt64.lt_iff_toNat_lt]
  show x.toNat < 18446744073709551615 ↔ _
  omega

theorem toNat_succ (h : x < largest) : (x + 1).toNat = x.toNat + 1 := by
  have := lt_largest.mp h
  rw [UInt64.toNat_add]
  show (x.toNat + 1) % 18446744073709551616 = x.toNat + 1
  omega

theorem lt_succ (h : x < largest) : x < x + 1 := by
  rw [UInt64.lt_iff_toNat_lt, toNat_succ h]
  omega

theorem max_eq_ite (a b : UInt64) : max a b = if a ≤ b then b else a := rfl

/-- The epoch an acquisition is raised to. -/
theorem le_raised (x : UInt64) (ans : FloorAnswer) : x ≤ raised x ans := by
  cases ans with
  | ok f =>
    simp only [raised, max_eq_ite]
    split
    · assumption
    · exact UInt64.le_refl _
  | unset => exact UInt64.le_refl _
  | failed => exact UInt64.le_refl _

theorem floor_lt_raised (x : UInt64) {f : UInt64} (h : f < largest) : f < raised x (.ok f) := by
  refine UInt64.lt_of_lt_of_le (lt_succ h) ?_
  simp only [raised, max_eq_ite]
  split
  · exact UInt64.le_refl _
  · rename_i hle
    exact UInt64.le_of_lt (UInt64.not_le.mp hle)

/-! ## Requests -/

variable (w : World ι)

/-- Every lease among the first `k` versions has an epoch below `x`. -/
def Above (k : Nat) (x : UInt64) : Prop :=
  ∀ v < k, ∀ e l, w.log[v]? = some e → e.data = .json l → l.epoch < x

theorem Above.mono {w w' : World ι} (hx : Ext w w') {k : Nat} (hk : k ≤ w.log.length) (h : Above w k x) :
    Above w' k x := by
  intro v hv e l he hl
  obtain ⟨f, hf⟩ : ∃ f, w.log[v]? = some f := ⟨_, List.getElem?_eq_getElem (by omega)⟩
  have := getElem?_mono hx.log hf
  rw [he, Option.some.injEq] at this
  exact h v hv f l hf (this ▸ hl)

/-- The acquisition `g` sent the request `r`: its lease exceeds the floor and every epoch up to the
version it expects, or, when it expects none, up to the moment it read the floor. -/
def Raised (g : Grant) (r : Request) : Prop :=
  ∃ l, r.data = .json l ∧ g.floor < l.epoch ∧
    ((r.cond = .absent ∧ g.written ≤ w.log.length ∧ Above w g.written l.epoch) ∨
      ∃ u : Nat, r.cond = .matches (some u) ∧ u < w.log.length ∧ Above w (u + 1) l.epoch)

/-- The lease keeps the epoch of a version that the process `pid` wrote and now expects. -/
def Keeps (pid : Nat) (c : Cond) (d : Content) : Prop :=
  ∃ u e rid r l k, c = .matches (some u) ∧ Wrote w u e rid r ∧ r.pid = pid ∧ e.data = .json k ∧
    d = .json l ∧ l.epoch = k.epoch

theorem Raised.mono {w w' : World ι} (hx : Ext w w') {g : Grant} (h : Raised w g r) :
    Raised w' g r := by
  obtain ⟨l, hl, hf, hor⟩ := h
  have hle := hx.log.length_le
  refine ⟨l, hl, hf, hor.imp ?_ ?_⟩
  · rintro ⟨hc, hk, ha⟩
    exact ⟨hc, by omega, ha.mono hx hk⟩
  · rintro ⟨u, hc, hu, ha⟩
    exact ⟨u, hc, by omega, ha.mono hx hu⟩

theorem Keeps.mono {w w' : World ι} (hx : Ext w w') {c : Cond} {d : Content} (h : Keeps w pid c d) :
    Keeps w' pid c d := by
  obtain ⟨u, e, rid, r, l, k, hc, hw, hrest⟩ := h
  exact ⟨u, e, rid, r, l, k, hc, hw.mono hx, hrest⟩

/-- What is known of the request with number `rid`. -/
structure RequestOk (w : World ι) (grants : List Grant) (rid : Nat) (r : Request) : Prop where
  raised : ∀ g ∈ grants, g.rid = rid → Raised w g r
  keeps : (∀ g ∈ grants, g.rid ≠ rid) → Keeps w r.pid r.cond r.data

/-! ## Processes -/

/-- The process `pid` holds a version that it wrote, with the epoch of its lease. -/
def Holding (pid : Nat) (m : Manager) : Prop :=
  ∃ v e rid r l, m.version = some v ∧ Wrote w v e rid r ∧ r.pid = pid ∧ e.data = .json l ∧
    l.epoch = m.lease.epoch

structure MgrFences (w : World ι) (pid : Nat) (m : Manager) : Prop where
  floors : m.cfg.epochFloor = true
  seen : m.seenEpoch < largest
  held : m.role = .active → Holding w pid m

/-- The request `rid` of process `pid` carries `next`. -/
def Carries (pid rid : Nat) (next : Lease) : Prop :=
  ∃ r mac, w.net[rid]? = some r ∧ r.pid = pid ∧ r.data = .json { next with mac := mac }

def PcFences (pid : Nat) : Pc → Prop
  | .reading (some (.found d v)) => ∃ e, w.log[v]? = some e ∧ e.data = d
  | .flooring a => ∀ d v, a.prev = some (d, v) → (∃ e, w.log[v]? = some e ∧ e.data = d) ∧
    ∀ l, d = .json l → l.epoch < a.epoch
  | .acquiring rid a => Carries w pid rid a.next ∧ a.next.epoch = a.epoch
  | .renewing rid r _ => Carries w pid rid r.next
  | .releasing rid next => Carries w pid rid next
  | _ => True

theorem MgrFences.mono {w w' : World ι} (hx : Ext w w') (h : MgrFences w pid m) :
    MgrFences w' pid m := by
  refine ⟨h.floors, h.seen, fun hr => ?_⟩
  obtain ⟨v, e, rid, r, l, hv, hw, hrest⟩ := h.held hr
  exact ⟨v, e, rid, r, l, hv, hw.mono hx, hrest⟩

theorem Carries.mono {w w' : World ι} (hx : Ext w w') {next : Lease} (h : Carries w pid rid next) :
    Carries w' pid rid next := by
  obtain ⟨r, mac, hr, hrest⟩ := h
  exact ⟨r, mac, getElem?_mono hx.net hr, hrest⟩

theorem PcFences.mono {w w' : World ι} (hx : Ext w w') {pc : Pc} (h : PcFences w pid pc) :
    PcFences w' pid pc := by
  cases pc with
  | reading ans =>
    rcases ans with _ | ans
    · trivial
    cases ans with
    | found d v =>
      obtain ⟨e, he, hd⟩ := h
      exact ⟨e, getElem?_mono hx.log he, hd⟩
    | notFound => trivial
    | failed => trivial
  | flooring a =>
    intro d v hp
    obtain ⟨⟨e, he, hd⟩, hl⟩ := h d v hp
    exact ⟨⟨e, getElem?_mono hx.log he, hd⟩, hl⟩
  | acquiring rid a => exact ⟨h.1.mono hx, h.2⟩
  | renewing rid r after => exact Carries.mono hx h
  | releasing rid next => exact Carries.mono hx h
  | idle => trivial
  | leaving => trivial

theorem MgrFences.sameOrStepped {w : World ι} {m' : Manager} (h : MgrFences w pid m)
    (hs : Same m m' ∨ Stepped m m') : MgrFences w pid m' := by
  rcases hs with hs | hs
  · refine ⟨hs.cfg ▸ h.floors, hs.seenEpoch ▸ h.seen, fun hr => ?_⟩
    unfold Holding
    rw [hs.version, hs.epoch]
    exact h.held (hs.role ▸ hr)
  · refine ⟨hs.cfg ▸ h.floors, hs.seenEpoch ▸ h.seen, fun hr => ?_⟩
    rw [hs.role] at hr
    cases hr

theorem MgrFences.same {w : World ι} {m' : Manager} (h : MgrFences w pid m) (hs : Same m m') :
    MgrFences w pid m' :=
  h.sameOrStepped (.inl hs)

/-! ## Pieces -/

/-- A piece of an operation of the process `pid` that acquires nothing. -/
structure PieceFences (w : World ι) (pid : Nat) (q : Piece) : Prop where
  mgr : MgrFences w pid q.mgr
  req : ∀ cond data, q.write = some (cond, data) → Keeps w pid cond data
  pc : ∀ w', Ext w w' →
    (∀ cond data, q.write = some (cond, data) →
      w'.net[w.net.length]? = some ⟨pid, w.time, cond, data⟩) →
    PcFences w' pid (q.pc w.net.length)

theorem pieceFences_idle {w : World ι} (h : MgrFences w pid m) : PieceFences w pid { mgr := m } :=
  ⟨h, fun _ _ hw => (by cases hw), fun _ _ _ => trivial⟩

/-- A write of the held lease under another content keeps its epoch. -/
theorem Holding.keeps {w : World ι} (h : Holding w pid m) {l : Lease} (hl : l.epoch = m.lease.epoch) :
    Keeps w pid (.matches m.version) (.json l) := by
  obtain ⟨v, e, rid, r, k, hv, hw, hpid, hk, hepoch⟩ := h
  exact ⟨v, e, rid, r, l, k, by rw [hv], hw, hpid, hk, rfl, hl.trans hepoch.symm⟩

section
variable {hmac : Bytes → String → Bytes} {pid : Nat} {m : Manager} {w : World ι}

theorem renewPiece_fences (h : MgrFences w pid m) (hr : m.role = .active) (after : After)
    (c : Clocks) : PieceFences w pid (renewPiece hmac m after c) := by
  unfold renewPiece
  rcases renewSend_spec hmac m c with ⟨m', he, hm'⟩ | ⟨r, mac, he, -, -, -, hepoch, -⟩
  · rw [he]
    exact pieceFences_idle ((h.sameOrStepped hm').same (afterRenew_same _ _ _))
  · rw [he]
    refine ⟨h, fun cond data hw => ?_, fun w' hx hnet => ⟨_, mac, hnet _ _ rfl, rfl, rfl⟩⟩
    cases hw
    exact (h.held hr).keeps hepoch

theorem releasePiece_fences (h : MgrFences w pid m) (c : Clocks) :
    PieceFences w pid (releasePiece hmac m c) := by
  unfold releasePiece
  rcases he : m.releaseSend hmac c with _ | ⟨next, data⟩
  · exact pieceFences_idle (h.sameOrStepped (stepDown_spec (.refl m) _ _))
  · obtain ⟨mac, rfl, hr, -, -, hepoch, -⟩ := releaseSend_spec he
    refine ⟨h, fun cond data hw => ?_, fun w' hx hnet => ⟨_, mac, hnet _ _ rfl, rfl, rfl⟩⟩
    cases hw
    exact (h.held hr).keeps hepoch

theorem callPiece_fences (h : MgrFences w pid m) (op : Op) (c : Clocks) :
    PieceFences w pid (callPiece hmac m op c) := by
  cases op with
  | step =>
    simp only [callPiece]
    split
    · rename_i hr
      exact renewPiece_fences h hr _ _
    · exact ⟨h, fun _ _ hw => (by cases hw), fun _ _ _ => trivial⟩
  | confirm mark =>
    simp only [callPiece]
    split
    · exact pieceFences_idle h
    · rename_i m' hm'
      obtain ⟨hr, hs⟩ := confirmBegin_spec hm'
      exact renewPiece_fences (h.same hs) hr _ _
  | recordSnapshot mark =>
    simp only [callPiece]
    split
    · exact pieceFences_idle h
    · rename_i m' hm'
      obtain ⟨hr, hs⟩ := recordBegin_spec hm'
      exact renewPiece_fences (h.same hs) hr _ _
  | stepDown release =>
    cases release with
    | false => exact pieceFences_idle (h.sameOrStepped (stepDown_spec (.refl m) _ _))
    | true => exact releasePiece_fences h c
  | release => exact releasePiece_fences h c

theorem readPiece_fences (ans : ReadAnswer) (h : MgrFences w pid m)
    (hans : PcFences w pid (.reading (some ans)))
    (hbelow : ∀ (v : Nat) (e : Commit) (l : Lease), w.log[v]? = some e → e.data = .json l →
      l.epoch < largest) (c : Clocks) : PieceFences w pid (readPiece hmac m ans c) := by
  cases ans with
  | notFound =>
    have hm : MgrFences w pid
        { m with healthy := true, lastErr := none, seen := {}, seenVersion := none } :=
      ⟨h.floors, h.seen, h.held⟩
    simp only [readPiece, Manager.observeAnswer]
    by_cases hcool : c.now < m.cooldownUntil
    · simp only [hcool, if_true]
      exact pieceFences_idle hm
    · simp only [hcool, if_false]
      exact ⟨hm, fun _ _ hw => (by cases hw), fun _ _ _ d v hp => (by cases hp)⟩
  | failed => exact pieceFences_idle (h.same (recordError_same _ _))
  | found d v =>
    obtain ⟨e, he, hd⟩ := hans
    obtain ⟨m', acq, hobs', hobs, hacq⟩ := observeFound_spec hmac m d v c.now
    have hm : MgrFences w pid m' := by
      refine ⟨hobs.cfg ▸ h.floors, ?_, ?_⟩
      · rcases hobs.seenEpoch with hs | ⟨l, hl, hs⟩
        · rw [hs]
          exact h.seen
        · rw [hs]
          refine hbelow v e l he ?_
          rw [hd]
          cases d <;> cases hl
          rfl
      · unfold Holding
        rw [hobs.role, hobs.version, hobs.lease]
        exact h.held
    simp only [readPiece, Manager.observeAnswer, hobs']
    cases acq with
    | none => exact pieceFences_idle hm
    | some a =>
      refine ⟨hm, fun _ _ hw => (by cases hw), fun w' hx _ d' v' hp => ?_⟩
      obtain ⟨hprev, -, hepoch, hle, -⟩ := hacq a rfl
      rw [hprev, Option.some.injEq, Prod.mk.injEq] at hp
      obtain ⟨rfl, rfl⟩ := hp
      refine ⟨⟨e, getElem?_mono hx.log he, hd⟩, fun l hl => ?_⟩
      rw [hepoch]
      exact UInt64.lt_of_le_of_lt (hle l (by rw [hl]; rfl)) (lt_succ hm.seen)

/-- What the write of an acquisition expects. -/
def expected : Option (Content × Version) → Cond
  | none => .absent
  | some (_, v) => .matches (some v)

/-- The piece of the process `pid` that read the floor: the lease it sends is raised above it. -/
structure FloorFences (w : World ι) (pid : Nat) (a : Acquire) (ans : FloorAnswer) (q : Piece) :
    Prop where
  mgr : MgrFences w pid q.mgr
  req : ∀ cond data, q.write = some (cond, data) →
    cond = expected a.prev ∧ ∃ l, data = .json l ∧ l.epoch = raised a.epoch ans
  pc : ∀ w', Ext w w' →
    (∀ cond data, q.write = some (cond, data) →
      w'.net[w.net.length]? = some ⟨pid, w.time, cond, data⟩) →
    PcFences w' pid (q.pc w.net.length)

theorem floorPiece_fences (a : Acquire) (h : MgrFences w pid m) (ans : FloorAnswer)
    (c : Clocks) : FloorFences w pid a ans (floorPiece hmac m a ans c) := by
  unfold floorPiece
  rcases acquireSend_spec hmac m a ans c with ⟨m', he, hm'⟩ | ⟨acq, mac, he, hq⟩
  · rw [he]
    exact ⟨h.same hm', fun _ _ hw => (by cases hw), fun _ _ _ => trivial⟩
  · rw [he]
    refine ⟨h, fun cond data hw => ?_, fun w' hx hnet => ⟨⟨_, mac, hnet _ _ rfl, rfl, rfl⟩, ?_⟩⟩
    · simp only [Option.some.injEq, Prod.mk.injEq] at hw
      obtain ⟨rfl, rfl⟩ := hw
      refine ⟨?_, _, rfl, hq.nextEpoch⟩
      rcases a.prev with _ | ⟨d, v⟩ <;> rfl
    · rw [hq.nextEpoch, hq.epoch]

/-- A request its process sees succeed is held with the epoch it carries. -/
theorem Carries.holding {rid v : Nat} {next : Lease}
    (hcommits : ∀ v e rid r, Wrote w v e rid r → w.net[rid]? = some r ∧ e.data = r.data)
    (h : Carries w pid rid next) (hv : w.written rid = some v) (hver : m.version = some v)
    (hlease : m.lease = next) : Holding w pid m := by
  obtain ⟨r, mac, hr, hpid, hd⟩ := h
  obtain ⟨e, r', hw⟩ := written_spec hv
  obtain ⟨hr', he⟩ := hcommits v e rid r' hw
  obtain rfl : r' = r := Option.some.inj (hr'.symm.trans hr)
  exact ⟨v, e, rid, r', _, hver, hw, hpid, he.trans hd, by rw [hlease]⟩

theorem writePiece_fences {pc : Pc} {rid : Nat} {out : Outcome} {ans : WriteAnswer}
    {c : Clocks} {q : Piece}
    (hcommits : ∀ (v : Nat) (e : Commit) (rid : Nat) (r : Request), Wrote w v e rid r →
      w.net[rid]? = some r ∧ e.data = r.data)
    (hbelow : ∀ (v : Nat) (e : Commit) (l : Lease), w.log[v]? = some e → e.data = .json l →
      l.epoch < largest) (h : MgrFences w pid m) (hpc : PcFences w pid pc) (hrid : pc.rid = some rid)
    (hans : w.answer rid out = some ans) (hq : writePiece hmac m pc ans c = some q) :
    PieceFences w pid q := by
  cases pc with
  | acquiring rid' a =>
    cases hrid
    cases hq
    refine pieceFences_idle ?_
    rcases acquireAnswer_spec hmac m a ans with ⟨v, rfl, hh, -, -, hepoch⟩ | hs
    · have hold := hpc.1.holding hcommits (answer_ok hans).2 hh.version hh.lease
      refine ⟨hh.cfg ▸ h.floors, ?_, fun _ => hold⟩
      obtain ⟨v, e, rid, r, l, -, hw, -, hl, hle⟩ := hold
      rw [hepoch, ← hpc.2, ← hh.lease, ← hle]
      exact hbelow v e l hw.log hl
    · exact h.same hs
  | renewing rid' r after =>
    cases hrid
    cases hq
    refine pieceFences_idle (MgrFences.same ?_ (afterRenew_same _ _ _))
    rcases renewAnswer_spec m r ans c with ⟨v, rfl, hh, -, -, -, -, hse⟩ | hs
    · exact ⟨hh.cfg ▸ h.floors, hse ▸ h.seen, fun _ =>
        Carries.holding hcommits hpc (answer_ok hans).2 hh.version hh.lease⟩
    · exact h.sameOrStepped hs
  | releasing rid' next =>
    cases hrid
    cases hq
    rcases releaseAnswer_spec m next ans c with ⟨v, rfl, he⟩ | hs
    · rw [he]
      exact ⟨⟨h.floors, h.seen, fun _ =>
        Carries.holding hcommits hpc (answer_ok hans).2 rfl rfl⟩, fun _ _ hw => (by cases hw),
        fun _ _ _ => trivial⟩
    · exact ⟨h.same hs, fun _ _ hw => (by cases hw), fun _ _ _ => trivial⟩
  | idle => cases hq
  | reading s => cases hq
  | flooring a => cases hq
  | leaving => cases hq

end

/-! ## The invariant -/

/-- The history of the lease: every version has the epoch of an acquisition of the process that wrote
it, which exceeds all epochs before. -/
structure EpochInv (s : Fencing ι) : Prop where
  reqs : ∀ rid r, s.world.net[rid]? = some r → RequestOk s.world s.grants rid r
  sent : ∀ g ∈ s.grants, g.rid < s.world.net.length
  commits : ∀ (v : Nat) (e : Commit), s.world.log[v]? = some e →
    (∃ rid r, e.source = some (rid, r) ∧ s.world.net[rid]? = some r ∧ e.data = r.data) ∨
      e.source = none ∧ decodeLease e.data = none
  below : ∀ (v : Nat) (e : Commit) (l : Lease), s.world.log[v]? = some e → e.data = .json l →
    l.epoch < largest
  mono : ∀ (u v : Nat) (e f : Commit) (l k : Lease), u ≤ v → s.world.log[u]? = some e →
    e.data = .json l → s.world.log[v]? = some f → f.data = .json k → l.epoch ≤ k.epoch
  strict : ∀ (v pid : Nat) (x : UInt64), AcquiredBy s v pid x → Above s.world v x
  owner : ∀ v e rid r l, Wrote s.world v e rid r → e.data = .json l →
    ∃ a, AcquiredBy s a r.pid l.epoch
  obj : ∀ d v, s.world.obj = some (d, v) → s.world.log.length = v + 1 ∧
    ∃ e, s.world.log[v]? = some e ∧ e.data = d
  procs : ∀ i p, s.world.procs i = some p →
    MgrFences s.world p.pid p.mgr ∧ PcFences s.world p.pid p.pc

variable {s : Fencing ι}

theorem EpochInv.wrote (h : EpochInv s) {e : Commit} (hw : Wrote s.world v e rid r) :
    s.world.net[rid]? = some r ∧ e.data = r.data := by
  rcases h.commits v e hw.log with ⟨rid', r', hs, hrest⟩ | ⟨hs, -⟩
  · rw [hw.source, Option.some.injEq, Prod.mk.injEq] at hs
    obtain ⟨rfl, rfl⟩ := hs
    exact hrest
  · rw [hw.source] at hs
    cases hs

/-- One acquisition a version, one version an epoch. -/
theorem EpochInv.unique (h : EpochInv s) {u pid' : Nat} (hu : AcquiredBy s u pid x)
    (hv : AcquiredBy s v pid' x) : u = v ∧ pid = pid' := by
  have hlt : ∀ {u v pid pid'}, AcquiredBy s u pid x → AcquiredBy s v pid' x → ¬ u < v := by
    rintro u v pid pid' ⟨e, rid, r, l, hw, -, -, hl, rfl⟩ hv huv
    exact UInt64.lt_irrefl _ (h.strict v pid' _ hv u huv e l hw.log hl)
  obtain rfl : u = v := by
    have h1 := hlt hu hv
    have h2 := hlt hv hu
    omega
  obtain ⟨e, rid, r, l, hw, -, rfl, -⟩ := hu
  obtain ⟨e', rid', r', l', hw', -, rfl, -⟩ := hv
  obtain rfl : e = e' := Option.some.inj (hw.log.symm.trans hw'.log)
  have hsrc := hw.source
  rw [hw'.source, Option.some.injEq, Prod.mk.injEq] at hsrc
  exact ⟨rfl, by rw [hsrc.2]⟩

theorem EpochInv.fenced (h : EpochInv s) : Fenced s where
  increasing := by
    rintro u v pid pid' x y huv ⟨e, rid, r, l, hw, -, -, hl, rfl⟩ hv
    exact h.strict v pid' y hv u huv e l hw.log hl
  held := fun i p hp hr => by
    obtain ⟨v, e, rid, r, l, -, hw, hpid, hl, hle⟩ := (h.procs i p hp).1.held hr
    obtain ⟨a, ha⟩ := h.owner v e rid r l hw hl
    rw [hpid, hle] at ha
    exact ⟨a, ha, fun u pid hu => h.unique hu ha⟩
  kept := fun v e rid r l hw hg hl => by
    obtain ⟨hn, hd⟩ := h.wrote hw
    obtain ⟨u, f, _, _, l', k, hc, hwu, -, hk, hl', hle⟩ := (h.reqs rid r hn).keeps hg
    rw [← hd, hl, Content.json.injEq] at hl'
    exact ⟨u, f, k, hc, hwu.log, hk, hl' ▸ hle⟩
  floor := fun g hg v e r l hw hl => by
    obtain ⟨hn, hd⟩ := h.wrote hw
    obtain ⟨l', hl', hf, -⟩ := (h.reqs g.rid r hn).raised g hg rfl
    rw [← hd, hl, Content.json.injEq] at hl'
    rw [hl']
    exact hf

/-! ## Steps -/

theorem AcquiredBy.mono {s s' : Fencing ι} (hx : Ext s.world s'.world)
    (hg : ∀ g ∈ s.grants, g ∈ s'.grants) (h : AcquiredBy s v pid x) : AcquiredBy s' v pid x := by
  obtain ⟨e, rid, r, l, hw, ⟨g, hgm, hgr⟩, hrest⟩ := h
  exact ⟨e, rid, r, l, hw.mono hx, ⟨g, hg g hgm, hgr⟩, hrest⟩

/-- A step that writes no version: at most one request is added, and with it the acquisitions. -/
theorem EpochInv.grow (h : EpochInv s) {w' : World ι} {gs : List Grant}
    (hx : Ext s.world w') (hl : w'.log = s.world.log) (ho : w'.obj = s.world.obj ∨ w'.obj = none)
    (hgs : ∀ g ∈ gs, g.rid = s.world.net.length ∧ g.rid < w'.net.length)
    (hn : ∀ rid r, w'.net[rid]? = some r → s.world.net[rid]? = some r ∨
      rid = s.world.net.length ∧ RequestOk w' (s.grants ++ gs) rid r)
    (hm : ∀ i p, w'.procs i = some p → MgrFences w' p.pid p.mgr ∧ PcFences w' p.pid p.pc) :
    EpochInv { s with world := w', grants := s.grants ++ gs } := by
  have hold : ∀ {g rid r}, g ∈ s.grants ++ gs → g.rid = rid → s.world.net[rid]? = some r →
      g ∈ s.grants := by
    intro g rid r hg hrid hr
    rcases List.mem_append.mp hg with hg | hg
    · exact hg
    · have h1 := (hgs g hg).1
      have h2 := (List.getElem?_eq_some_iff.mp hr).1
      omega
  have hwas : ∀ {v pid x}, AcquiredBy { s with world := w', grants := s.grants ++ gs } v pid x →
      AcquiredBy s v pid x := by
    rintro v pid x ⟨e, rid, r, l, hw, ⟨g, hg, hgr⟩, hrest⟩
    have hw' : Wrote s.world v e rid r := ⟨hl ▸ hw.log, hw.source⟩
    exact ⟨e, rid, r, l, hw', ⟨g, hold hg hgr (h.wrote hw').1, hgr⟩, hrest⟩
  refine ⟨?_, ?_, ?_, ?_, ?_, ?_, ?_, ?_, hm⟩
  · intro rid r hr
    rcases hn rid r hr with hr | ⟨-, hr⟩
    · have hro := h.reqs rid r hr
      exact ⟨fun g hg hrid => (hro.raised g (hold hg hrid hr) hrid).mono hx,
        fun hg => (hro.keeps fun g hgm => hg g (List.mem_append_left _ hgm)).mono hx⟩
    · exact hr
  · intro g hg
    rcases List.mem_append.mp hg with hg | hg
    · exact lt_of_lt_of_le (h.sent g hg) hx.net.length_le
    · exact (hgs g hg).2
  · intro v e he
    rcases h.commits v e (hl ▸ he) with ⟨rid, r, hs, hr, hd⟩ | hs
    · exact .inl ⟨rid, r, hs, getElem?_mono hx.net hr, hd⟩
    · exact .inr hs
  · exact hl ▸ h.below
  · exact hl ▸ h.mono
  · intro v pid x hv u hu e l he
    exact h.strict v pid x (hwas hv) u hu e l (hl ▸ he)
  · intro v e rid r l hw hd
    obtain ⟨a, ha⟩ := h.owner v e rid r l ⟨hl ▸ hw.log, hw.source⟩ hd
    exact ⟨a, ha.mono hx fun g hg => List.mem_append_left _ hg⟩
  · intro d v hobj
    rcases ho with ho | ho
    · exact hl ▸ h.obj d v (ho ▸ hobj)
    · rw [show w'.obj = some (d, v) from hobj] at ho
      cases ho

/-- A version is written: a lease exceeds no later one, and an acquired one exceeds all before. -/
theorem EpochInv.write (h : EpochInv s) {src : Option (Nat × Request)} {d : Content}
    (hsrc : (∃ rid r, src = some (rid, r) ∧ s.world.net[rid]? = some r ∧ d = r.data) ∨
      src = none ∧ decodeLease d = none)
    (hbelow : ∀ l, d = .json l → l.epoch < largest)
    (hmono : ∀ l, d = .json l → ∀ (v : Nat) (e : Commit) (k : Lease), s.world.log[v]? = some e →
      e.data = .json k → k.epoch ≤ l.epoch)
    (hstrict : ∀ rid r l, src = some (rid, r) → (∃ g ∈ s.grants, g.rid = rid) → d = .json l →
      Above s.world s.world.log.length l.epoch)
    (howner : ∀ rid r l, src = some (rid, r) → d = .json l →
      (∃ g ∈ s.grants, g.rid = rid) ∨ ∃ a, AcquiredBy s a r.pid l.epoch) :
    EpochInv { s with world := s.world.write src d } := by
  have hx := write_ext s.world src d
  have hnew : ∀ {u e}, (s.world.write src d).log[u]? = some e →
      s.world.log[u]? = some e ∨ u = s.world.log.length ∧ e = ⟨src, d, s.world.time⟩ :=
    fun he => getElem?_append_one he
  have hlt : ∀ {u : Nat} {e : Commit}, s.world.log[u]? = some e → u < s.world.log.length :=
    fun he => (List.getElem?_eq_some_iff.mp he).1
  have hkept : ∀ {v pid x}, AcquiredBy s v pid x →
      AcquiredBy { s with world := s.world.write src d } v pid x := by
    intro v pid x ha
    refine ha.mono ?_ ?_
    · exact hx
    · exact fun _ hg => hg
  have habove : ∀ {k x}, k ≤ s.world.log.length → Above s.world k x →
      Above (s.world.write src d) k x := fun hk ha => ha.mono hx hk
  refine ⟨?_, h.sent, ?_, ?_, ?_, ?_, ?_, ?_, ?_⟩
  · intro rid r hr
    have hro := h.reqs rid r hr
    exact ⟨fun g hg hrid => (hro.raised g hg hrid).mono hx, fun hg => (hro.keeps hg).mono hx⟩
  · intro v e he
    rcases hnew he with he | ⟨-, rfl⟩
    · exact h.commits v e he
    · exact hsrc
  · intro v e l he hl
    rcases hnew he with he | ⟨-, rfl⟩
    · exact h.below v e l he hl
    · exact hbelow l hl
  · intro u v e f l k huv he hl hf hk
    rcases hnew he with he | ⟨rfl, rfl⟩ <;> rcases hnew hf with hf | ⟨rfl, rfl⟩
    · exact h.mono u v e f l k huv he hl hf hk
    · exact hmono k hk u e l he hl
    · have := hlt hf
      omega
    · have hlk : Content.json l = .json k := hl.symm.trans hk
      cases hlk
      exact UInt64.le_refl _
  · rintro v pid x ⟨e, rid, r, l, hw, hg, hpid, hl, rfl⟩
    rcases hw.of_write with hw | ⟨rfl, hs, hd⟩
    · exact habove (hlt hw.log).le
        (h.strict v pid _ ⟨e, rid, r, l, hw, hg, hpid, hl, rfl⟩)
    · exact habove le_rfl (hstrict rid r l hs hg (hd ▸ hl))
  · intro v e rid r l hw hl
    rcases hw.of_write with hw' | ⟨rfl, hs, hd⟩
    · obtain ⟨a, ha⟩ := h.owner v e rid r l hw' hl
      exact ⟨a, hkept ha⟩
    · rcases howner rid r l hs (hd ▸ hl) with hg | ⟨a, ha⟩
      · exact ⟨_, e, rid, r, l, hw, hg, rfl, hl, rfl⟩
      · exact ⟨a, hkept ha⟩
  · intro d' v hobj
    cases hobj
    exact ⟨by simp [World.write], ⟨src, d, s.world.time⟩, by simp [World.write], rfl⟩
  · intro i p hp
    obtain ⟨h1, h2⟩ := h.procs i p hp
    exact ⟨h1.mono hx, h2.mono hx⟩

/-- What an acquisition raises its epoch above when it has read the floor `f`: every epoch up to the
version it expects. -/
theorem EpochInv.above (h : EpochInv s) {a : Acquire} {f : UInt64}
    (hpc : PcFences s.world pid (.flooring a)) (hsnap : ∀ e ∈ s.snapshots, e ≤ f) (hf : f < largest)
    (hc : (∀ d v, a.prev = some (d, v) → decodeLease d = none) → Recorded s a.epoch) :
    (a.prev = none → Above s.world s.world.log.length (raised a.epoch (.ok f))) ∧
      ∀ (d : Content) (v : Nat), a.prev = some (d, v) → v < s.world.log.length ∧
        Above s.world (v + 1) (raised a.epoch (.ok f)) := by
  have hle := le_raised a.epoch (.ok f)
  have hall : Recorded s a.epoch → ∀ k, Above s.world k (raised a.epoch (.ok f)) := by
    intro hrec k u _ e l he hl
    rcases hrec u e l he hl with hlt | ⟨y, hy, hly⟩
    · exact UInt64.lt_of_lt_of_le hlt hle
    · exact UInt64.lt_of_le_of_lt (UInt64.le_trans hly (hsnap y hy)) (floor_lt_raised _ hf)
  refine ⟨fun hp => hall (hc fun d v hp' => ?_) _, fun d v hp => ?_⟩
  · rw [hp] at hp'
    cases hp'
  · obtain ⟨⟨e, he, hd⟩, hread⟩ := hpc d v hp
    refine ⟨(List.getElem?_eq_some_iff.mp he).1, ?_⟩
    rcases hdec : decodeLease d with _ | l
    · refine hall (hc fun d' v' hp' => ?_) _
      rw [hp, Option.some.injEq, Prod.mk.injEq] at hp'
      rw [← hp'.1]
      exact hdec
    · have hl : d = .json l := by
        cases d <;> cases hdec
        rfl
      intro u hu e' k he' hk
      have hmono := h.mono u v e' e k l (by omega) he' hk he (hd.trans hl)
      exact UInt64.lt_of_lt_of_le (UInt64.lt_of_le_of_lt hmono (hread l hl)) hle

/-- A request takes effect. -/
theorem EpochInv.commit (h : EpochInv s) (hr : s.world.net[rid]? = some r)
    (hh : s.world.holds r.cond) (hbelow : ∀ l, r.data = .json l → l.epoch < largest)
    (hc : ∀ g ∈ s.grants, g.rid = rid → r.cond = .absent → s.world.log.length = g.written) :
    EpochInv { s with world := s.world.write (some (rid, r)) r.data } := by
  have hnewest : ∀ u : Nat, r.cond = .matches (some u) → s.world.log.length = u + 1 := by
    intro u hu
    rw [hu] at hh
    simp only [World.holds, Bool.and_eq_true, decide_eq_true_eq] at hh
    obtain ⟨⟨d, v⟩, hobj, hv⟩ := Option.map_eq_some_iff.mp hh.2
    obtain rfl : v = u := hv
    exact (h.obj d v hobj).1
  have hro := h.reqs rid r hr
  -- an acquisition exceeds every version there is
  have hgrant : (∃ g ∈ s.grants, g.rid = rid) → ∀ l, r.data = .json l →
      Above s.world s.world.log.length l.epoch := by
    rintro ⟨g, hg, hrid⟩ l hl
    obtain ⟨l', hl', -, hor⟩ := hro.raised g hg hrid
    obtain rfl : l' = l := by
      rw [hl'] at hl
      cases hl
      rfl
    rcases hor with ⟨hcond, -, habove⟩ | ⟨u, hcond, -, habove⟩
    · rw [hc g hg hrid hcond]
      exact habove
    · rw [hnewest u hcond]
      exact habove
  have hkeeps : (∀ g ∈ s.grants, g.rid ≠ rid) → ∀ l, r.data = .json l →
      ∃ u e rid' r' k, s.world.log.length = u + 1 ∧ Wrote s.world u e rid' r' ∧ r'.pid = r.pid ∧
        e.data = .json k ∧ l.epoch = k.epoch := by
    intro hno l hl
    obtain ⟨u, e, rid', r', l', k, hcond, hw, hpid, hk, hl', hle⟩ := hro.keeps hno
    rw [hl', Content.json.injEq] at hl
    exact ⟨u, e, rid', r', k, hnewest u hcond, hw, hpid, hk, hl ▸ hle⟩
  refine h.write (.inl ⟨rid, r, rfl, hr, rfl⟩) hbelow ?_ ?_ ?_
  · intro l hl v e k he hk
    have hv := (List.getElem?_eq_some_iff.mp he).1
    by_cases hg : ∃ g ∈ s.grants, g.rid = rid
    · exact UInt64.le_of_lt (hgrant hg l hl v hv e k he hk)
    · obtain ⟨u, f, _, _, k', hlen, hw, -, hk', hle⟩ :=
        hkeeps (fun g hgm hrid => hg ⟨g, hgm, hrid⟩) l hl
      rw [hle]
      exact h.mono v u e f k k' (by omega) he hk hw.log hk'
  · intro rid' r' l hs hg hl
    cases hs
    exact hgrant hg l hl
  · intro rid' r' l hs hl
    cases hs
    by_cases hg : ∃ g ∈ s.grants, g.rid = rid
    · exact .inl hg
    · obtain ⟨u, f, _, r', k, -, hw, hpid, hk, hle⟩ :=
        hkeeps (fun g hgm hrid => hg ⟨g, hgm, hrid⟩) l hl
      rw [hle, ← hpid]
      exact .inr (h.owner u f _ r' k hw hk)

theorem EpochInv.init (h : s.Initial) : EpochInv s := by
  obtain ⟨⟨hprocs, hobj, hnet, hlog, -⟩, -, hgrants⟩ := h
  have hno : ∀ {v : Nat} {e : Commit}, s.world.log[v]? ≠ some e := by
    intro v e he
    rw [hlog] at he
    cases he
  refine ⟨fun rid r hr => ?_, fun g hg => ?_, fun v e he => absurd he hno,
    fun v e l he => absurd he hno, fun u v e f l k _ he => absurd he hno, ?_,
    fun v e rid r l hw => absurd hw.log hno, fun d v hd => ?_, fun i p hp => ?_⟩
  · rw [hnet] at hr
    cases hr
  · rw [hgrants] at hg
    cases hg
  · rintro v pid x ⟨e, rid, r, l, hw, -⟩
    exact absurd hw.log hno
  · rw [hobj] at hd
    cases hd
  · rw [hprocs] at hp
    cases hp

section
variable [DecidableEq ι] {p : Proc} {q : Piece} {s : Fencing ι}

/-- One process changes and sends nothing. -/
theorem EpochInv.setProc (h : EpochInv s) {w' : World ι} {i : ι}
    {p' : Option Proc} (hx : Ext s.world w') (hl : w'.log = s.world.log)
    (ho : w'.obj = s.world.obj) (hn : w'.net = s.world.net)
    (hp : w'.procs = Function.update s.world.procs i p')
    (hm : ∀ p, p' = some p → MgrFences w' p.pid p.mgr ∧ PcFences w' p.pid p.pc) :
    EpochInv { s with world := w', grants := s.grants ++ [] } := by
  refine h.grow hx hl (.inl ho) (fun g hg => (by cases hg)) (fun rid r hr => .inl (hn ▸ hr)) ?_
  intro j p hj
  rw [hp] at hj
  rcases update_procs hj with ⟨-, hj⟩ | ⟨-, hj⟩
  · exact hm p hj
  · obtain ⟨h1, h2⟩ := h.procs j p hj
    exact ⟨h1.mono hx, h2.mono hx⟩

theorem proceed_net_some {w : World ι} {i : ι} {cond : Cond} {data : Content}
    (h : q.write = some (cond, data)) :
    (w.proceed i p q).net = w.net ++ [⟨p.pid, w.time, cond, data⟩] := by
  simp only [World.proceed, h]

theorem proceed_net_none {w : World ι} {i : ι} (h : q.write = none) :
    (w.proceed i p q).net = w.net := by
  simp only [World.proceed, h]

/-- A process goes on, and sends at most one request. -/
theorem EpochInv.proceed (h : EpochInv s) {i : ι} {gs : List Grant}
    (hmgr : MgrFences s.world p.pid q.mgr)
    (hpc : ∀ w', Ext s.world w' → (∀ cond data, q.write = some (cond, data) →
      w'.net[s.world.net.length]? = some ⟨p.pid, s.world.time, cond, data⟩) →
      PcFences w' p.pid (q.pc s.world.net.length))
    (hgs : ∀ g ∈ gs, g.rid = s.world.net.length ∧ q.write ≠ none)
    (hreq : ∀ cond data, q.write = some (cond, data) →
      RequestOk s.world (s.grants ++ gs) s.world.net.length ⟨p.pid, s.world.time, cond, data⟩) :
    EpochInv { s with world := s.world.proceed i p q, grants := s.grants ++ gs } := by
  have hx := proceed_ext s.world i p q
  refine h.grow hx rfl (.inl rfl) (fun g hg => ⟨(hgs g hg).1, ?_⟩) (fun rid r hr => ?_) ?_
  · obtain ⟨hrid, hne⟩ := hgs g hg
    obtain ⟨⟨cond, data⟩, hw⟩ := Option.ne_none_iff_exists'.mp hne
    rw [proceed_net_some hw]
    simp [hrid]
  · rcases hw : q.write with _ | ⟨cond, data⟩
    · rw [proceed_net_none hw] at hr
      exact .inl hr
    · rw [proceed_net_some hw] at hr
      refine (getElem?_append_one hr).imp_right ?_
      rintro ⟨rfl, rfl⟩
      have hro := hreq cond data hw
      exact ⟨rfl, fun g hg hrid => (hro.raised g hg hrid).mono hx,
        fun hg => (hro.keeps hg).mono hx⟩
  · intro j p' hj
    rcases update_procs hj with ⟨-, hj⟩ | ⟨-, hj⟩
    · cases hj
      refine ⟨hmgr.mono hx, hpc _ hx fun cond data hw => ?_⟩
      rw [proceed_net_some hw]
      simp
    · obtain ⟨h1, h2⟩ := h.procs j p' hj
      exact ⟨h1.mono hx, h2.mono hx⟩

/-- A process goes on without acquiring anything. -/
theorem EpochInv.piece (h : EpochInv s) {i : ι} (hq : PieceFences s.world p.pid q) :
    EpochInv { s with world := s.world.proceed i p q, grants := s.grants ++ [] } := by
  refine h.proceed hq.mgr hq.pc (fun g hg => (by cases hg)) fun cond data hw => ⟨?_, ?_⟩
  · intro g hg hrid
    rw [List.append_nil] at hg
    have := h.sent g hg
    omega
  · intro _
    exact hq.req cond data hw

theorem EpochInv.floorReturn {hmac : Bytes → String → Bytes} (h : EpochInv s) {i : ι}
    {a : Acquire} {f : UInt64} {env : Env} (hp : s.world.procs i = some p) (hpc : p.pc = .flooring a)
    (hsnap : ∀ e ∈ s.snapshots, e ≤ f) (hf : f < largest)
    (hc : (∀ d v, a.prev = some (d, v) → decodeLease d = none) → Recorded s a.epoch) (c : Clocks) :
    EpochInv { s with
      world := s.world.proceed i p (floorPiece hmac p.mgr a (.ok f) c)
      grants := s.grants ++ granted s.world
        (s.world.proceed i p (floorPiece hmac p.mgr a (.ok f) c)) (.floorReturn i (.ok f) env) } := by
  obtain ⟨hmgr, hpcs⟩ := h.procs i p hp
  have hq : FloorFences s.world p.pid a (.ok f) (floorPiece hmac p.mgr a (.ok f) c) :=
    floorPiece_fences a hmgr (.ok f) c
  obtain ⟨hnone, hsome⟩ := h.above (hpc ▸ hpcs) hsnap hf hc
  generalize floorPiece hmac p.mgr a (.ok f) c = q at hq ⊢
  rcases hw : q.write with _ | ⟨cond, data⟩
  · have hg : granted s.world (s.world.proceed i p q) (.floorReturn i (.ok f) env) = [] := by
      simp only [granted, proceed_net_none hw, lt_irrefl, if_false]
    rw [hg]
    exact h.piece ⟨hq.mgr, fun _ _ hw' => (by rw [hw] at hw'; cases hw'), hq.pc⟩
  · have hg : granted s.world (s.world.proceed i p q) (.floorReturn i (.ok f) env) =
        [⟨s.world.net.length, f, s.world.log.length⟩] := by
      simp [granted, proceed_net_some hw]
    rw [hg]
    refine h.proceed hq.mgr hq.pc (fun g hg => ?_) fun cond data hw => ⟨fun g hg hrid => ?_, ?_⟩
    · rw [List.mem_singleton] at hg
      exact ⟨by rw [hg], by rw [hw]; exact Option.some_ne_none _⟩
    · obtain ⟨hcond, l, hl, hepoch⟩ := hq.req cond data hw
      rcases List.mem_append.mp hg with hg | hg
      · have := h.sent g hg
        omega
      rw [List.mem_singleton] at hg
      subst hg
      refine ⟨l, hl, hepoch ▸ floor_lt_raised _ hf, ?_⟩
      rcases hprev : a.prev with _ | ⟨d, v⟩
      · rw [hprev] at hcond
        exact .inl ⟨hcond, le_rfl, hepoch ▸ hnone hprev⟩
      · rw [hprev] at hcond
        obtain ⟨hv, habove⟩ := hsome d v hprev
        exact .inr ⟨v, hcond, hv, hepoch ▸ habove⟩
    · intro hno
      exact absurd rfl (hno _ (List.mem_append_right _ (List.mem_singleton.mpr rfl)))

theorem EpochInv.step {hmac : Bytes → String → Bytes} {s s' : Fencing ι} {ev : FenceEvent ι}
    (h : EpochInv s) (hs : Surroundings s ev) (hc : Covered s ev)
    (hstep : s.step hmac ev = some s') : EpochInv s' := by
  cases ev with
  | snapshot epoch =>
    cases hstep
    exact ⟨h.reqs, h.sent, h.commits, h.below, h.mono, h.strict, h.owner, h.obj, h.procs⟩
  | ha ev =>
    obtain ⟨w', hw, rfl⟩ := Option.map_eq_some_iff.mp hstep
    cases step_cases hw with
    | tick d =>
      have hx : Ext s.world { s.world with time := s.world.time + d } :=
        ⟨by simp, List.prefix_rfl, List.prefix_rfl, List.prefix_rfl⟩
      refine h.grow hx rfl (.inl rfl) (fun g hg => (by cases hg)) (fun _ _ hr => .inl hr) ?_
      intro i p hp
      obtain ⟨h1, h2⟩ := h.procs i p hp
      exact ⟨h1.mono hx, h2.mono hx⟩
    | start i cfg off hv =>
      refine h.setProc ⟨le_rfl, List.prefix_rfl, List.prefix_rfl, List.prefix_append _ _⟩ rfl rfl
        rfl rfl fun p hp => ?_
      cases hp
      have h0 : (0 : UInt64) < largest := by decide
      exact ⟨⟨hs, h0, fun hr => (by cases hr)⟩, trivial⟩
    | crash i =>
      exact h.setProc ⟨le_rfl, List.prefix_rfl, List.prefix_rfl, List.prefix_rfl⟩ rfl rfl rfl rfl
        fun p hp => (by cases hp)
    | call i op env p hp hpc => exact h.piece (callPiece_fences (h.procs i p hp).1 op _)
    | serve i p hp hpc =>
      have hx : Ext s.world
          (s.world.setProc i (some { p with pc := .reading (some s.world.read) })) :=
        ⟨le_rfl, List.prefix_rfl, List.prefix_rfl, List.prefix_rfl⟩
      refine h.setProc hx rfl rfl rfl rfl fun p' hp' => ?_
      cases hp'
      refine ⟨(h.procs i p hp).1.mono hx, ?_⟩
      rcases hobj : s.world.obj with _ | ⟨d, v⟩
      · simp only [World.read, hobj]
        trivial
      · simp only [World.read, hobj]
        exact (h.obj d v hobj).2
    | readFailed i env p hp =>
      exact h.piece (readPiece_fences .failed (h.procs i p hp).1 trivial h.below _)
    | readReturn i env p ans hp hpc =>
      obtain ⟨h1, h2⟩ := h.procs i p hp
      exact h.piece (readPiece_fences ans h1 (hpc ▸ h2) h.below _)
    | floorReturn i ans env p a hp hpc hset =>
      have hmgr := (h.procs i p hp).1
      cases ans with
      | ok f => exact h.floorReturn hp hpc hs.1 hs.2 (hc p a hp hpc) _
      | unset => exact absurd hmgr.floors hset
      | failed =>
        have hq : PieceFences s.world p.pid (floorPiece hmac p.mgr a .failed (s.world.clocks p env)) :=
          pieceFences_idle (hmgr.same (recordError_same _ _))
        exact h.piece hq
    | commit rid r hn hh =>
      have := h.commit hn hh (fun l hl => hs r l hn hl) fun g hg hrid => hc g hg hrid r hn
      rwa [show s.grants = s.grants ++ granted s.world (s.world.write (some (rid, r)) r.data)
        (.commit rid) from (List.append_nil _).symm] at this
    | writeReturn i out env p rid ans q hp hrid hans hq =>
      obtain ⟨h1, h2⟩ := h.procs i p hp
      exact h.piece
        (writePiece_fences (fun _ _ _ _ hw => h.wrote hw) h.below h1 h2 hrid hans hq)
    | leave i env p hp hpc =>
      exact h.piece (pieceFences_idle
        ((h.procs i p hp).1.sameOrStepped (stepDown_spec (.refl p.mgr) _ _)))
    | deleteByHand =>
      have hx : Ext s.world { s.world with obj := none } :=
        ⟨le_rfl, List.prefix_rfl, List.prefix_rfl, List.prefix_rfl⟩
      refine h.grow hx rfl (.inr rfl) (fun g hg => (by cases hg)) (fun _ _ hr => .inl hr) ?_
      intro i p hp
      obtain ⟨h1, h2⟩ := h.procs i p hp
      exact ⟨h1.mono hx, h2.mono hx⟩
    | writeByHand d =>
      have hno : ∀ l, d ≠ .json l := by
        rintro l rfl
        cases hs
      have := h.write (.inr ⟨rfl, hs⟩) (fun l hl => absurd hl (hno l))
        (fun l hl => absurd hl (hno l)) (fun _ _ _ hsrc => (by cases hsrc))
        (fun _ _ _ hsrc => (by cases hsrc))
      rwa [show s.grants = s.grants ++ granted s.world (s.world.write none d) (.writeByHand d)
        from (List.append_nil _).symm] at this

/-- **In covered runs the epochs fence**: they increase with every acquisition, no epoch is held by
two processes, renewals and releases keep it, and it exceeds the floor. -/
theorem fenced_of_covered (hmac : Bytes → String → Bytes) {s : Fencing ι}
    (h : (fencing hmac ι).Reach (fun s ev => Surroundings s ev ∧ Covered s ev) s) : Fenced s :=
  (Trans.Sys.Reach.inv (I := EpochInv) (fun _ hi => .init hi)
    (fun _ _ _ hinv hok hst => hinv.step hok.1 hok.2 hst) h).fenced

end

/-! ## Two runs -/

variable (s : Fencing (Fin 2))

/-- `Surroundings`, evaluated. -/
def surrounds : FenceEvent (Fin 2) → Bool
  | .ha (.start _ cfg _) => cfg.epochFloor
  | .ha (.floorReturn _ (.ok f) _) => s.snapshots.all (decide <| · ≤ f) && decide (f < largest)
  | .ha (.writeByHand d) => (decodeLease d).isNone
  | .ha (.commit rid) => s.world.net[rid]?.all fun r =>
    (decodeLease r.data).all fun l => decide (l.epoch < largest)
  | _ => true

theorem surrounds_spec (ev : FenceEvent (Fin 2)) (h : surrounds s ev = true) :
    Surroundings s ev := by
  cases ev with
  | snapshot epoch => trivial
  | ha ev =>
    cases ev with
    | start i cfg off => exact h
    | floorReturn i ans env =>
      cases ans with
      | ok f =>
        simp only [surrounds, Bool.and_eq_true, List.all_eq_true, decide_eq_true_eq] at h
        exact h
      | unset => trivial
      | failed => trivial
    | writeByHand d => exact Option.isNone_iff_eq_none.mp h
    | commit rid =>
      intro r l hr hl
      simp only [surrounds, hr, hl, decodeLease, Option.all_some, decide_eq_true_eq] at h
      exact h
    | _ => trivial

/-- `Covered`, evaluated. -/
def covers : FenceEvent (Fin 2) → Bool
  | .ha (.floorReturn _ (.ok _) _) => s.world.log.all fun e =>
    (decodeLease e.data).all fun l => s.snapshots.any (decide <| l.epoch ≤ ·)
  | .ha (.commit rid) => s.grants.all fun g => g.rid ≠ rid ∨ s.world.log.length = g.written
  | _ => true

theorem covers_spec (ev : FenceEvent (Fin 2)) (h : covers s ev = true) : Covered s ev := by
  cases ev with
  | snapshot epoch => trivial
  | ha ev =>
    cases ev with
    | floorReturn i ans env =>
      cases ans with
      | ok f =>
        intro p a _ _ _ v e l he hl
        simp only [covers, List.all_eq_true] at h
        have := h e (List.mem_of_getElem? he)
        simp only [hl, decodeLease, Option.all_some, List.any_eq_true, decide_eq_true_eq] at this
        exact .inr this
      | unset => trivial
      | failed => trivial
    | commit rid =>
      intro g hg hrid r _ _
      simp only [covers, List.all_eq_true, decide_eq_true_eq] at h
      exact (h g hg).resolve_left fun hne => hne hrid
    | _ => trivial

/-- An instance that reads a floor. -/
def floored (id : String) : Config :=
  { cluster := "c", instanceID := id, macKey := none, ttl := 30 * Go.second
    renew := 10 * Go.second, epochFloor := true }

/-- Instance `i` finds no lease, reads the floor `f` and creates one. -/
def creates (i : Fin 2) (f : UInt64) (rid : Nat) : List (FenceEvent (Fin 2)) :=
  let env : Env := ⟨0, 0, 0⟩
  [.ha (.call i .step env), .ha (.serve i), .ha (.readReturn i false env),
    .ha (.floorReturn i (.ok f) env), .ha (.commit rid), .ha (.writeReturn i .ok env)]

/-- The lease of the first instance is deleted by hand and the second one creates another; the first
wrote a snapshot before, or wrote none yet. -/
def recreates (snapshots : List UInt64) (f : UInt64) : List (FenceEvent (Fin 2)) :=
  [.ha (.start instA (floored "a") 0), .ha (.start instB (floored "b") 0)] ++ creates instA 0 0 ++
    snapshots.map .snapshot ++ [.ha .deleteByHand] ++ creates instB f 1

def idleFencing : Fencing (Fin 2) := ⟨idleWorld, [], []⟩

theorem idleFencing_initial : (fencing (fun _ _ => []) (Fin 2)).init idleFencing :=
  ⟨idleWorld_initial, rfl, rfl⟩

/-- Both instances are active, under these epochs. -/
def holdEpochs (x y : UInt64) (s : Fencing (Fin 2)) : Bool :=
  (s.world.procs instA).any fun p => (s.world.procs instB).any fun q => decide (p.mgr.role = .active ∧
    q.mgr.role = .active ∧ p.pid ≠ q.pid ∧ p.mgr.lease.epoch = x ∧ q.mgr.lease.epoch = y)

theorem holdEpochs_spec {y : UInt64} {s : Fencing (Fin 2)} (h : holdEpochs x y s = true) :
    ∃ p q, s.world.procs 0 = some p ∧ s.world.procs 1 = some q ∧ p.mgr.role = .active ∧
      q.mgr.role = .active ∧ p.pid ≠ q.pid ∧ p.mgr.lease.epoch = x ∧ q.mgr.lease.epoch = y := by
  rw [holdEpochs, Option.any_eq_true] at h
  obtain ⟨p, hp, h⟩ := h
  rw [Option.any_eq_true] at h
  obtain ⟨q, hq, h⟩ := h
  exact ⟨p, q, hp, hq, of_decide_eq_true h⟩

theorem fenced_of_covered_snapshot :
    ∃ (s : Fencing (Fin 2)) (q : Proc), (fencing (fun _ _ => []) (Fin 2)).Reach
        (fun s ev => Surroundings s ev ∧ Covered s ev) s ∧
      s.world.procs 1 = some q ∧ q.mgr.role = .active ∧ q.mgr.lease.epoch = 2 ∧ Fenced s := by
  have hrun : (fencing (fun _ _ => []) (Fin 2)).Along
      (fun s ev => Surroundings s ev ∧ Covered s ev) idleFencing (recreates [1] 1) := by
    refine Trans.Sys.along_of_meets (fun s ev => surrounds s ev && covers s ev) ?_
      (by decide +kernel)
    intro s ev h
    rw [Bool.and_eq_true] at h
    exact ⟨surrounds_spec s ev h.1, covers_spec s ev h.2⟩
  obtain ⟨s, hs, ht⟩ := Trans.Sys.exists_exec (M := fencing (fun _ _ => []) (Fin 2)) idleFencing
    (recreates [1] 1) (holdEpochs 1 2) (by decide +kernel)
  obtain ⟨p, q, -, hq, -, hr, -, -, he⟩ := holdEpochs_spec ht
  have hreach := Trans.Sys.reach_of_exec (.init idleFencing_initial) hrun hs
  exact ⟨s, q, hreach, hq, hr, he, fenced_of_covered _ hreach⟩

/-- **The epoch is used again**: the lease is deleted before its holder wrote a snapshot, and the
next instance starts from the same floor. -/
theorem epoch_reused : ∃ (s : Fencing (Fin 2)) (p q : Proc),
      (fencing (fun _ _ => []) (Fin 2)).Reach Surroundings s ∧
      s.world.procs 0 = some p ∧ s.world.procs 1 = some q ∧ p.mgr.role = .active ∧
      q.mgr.role = .active ∧ p.pid ≠ q.pid ∧ p.mgr.lease.epoch = 1 ∧ q.mgr.lease.epoch = 1 ∧
      ¬ Fenced s := by
  have hrun : (fencing (fun _ _ => []) (Fin 2)).Along Surroundings idleFencing
      (recreates [] 0) :=
    Trans.Sys.along_of_meets surrounds surrounds_spec (by decide +kernel)
  obtain ⟨s, hs, ht⟩ := Trans.Sys.exists_exec (M := fencing (fun _ _ => []) (Fin 2)) idleFencing
    (recreates [] 0) (holdEpochs 1 1) (by decide +kernel)
  obtain ⟨p, q, hp, hq, hpr, hqr, hne, hpe, hqe⟩ := holdEpochs_spec ht
  have hreach := Trans.Sys.reach_of_exec (.init idleFencing_initial) hrun hs
  refine ⟨s, p, q, hreach, hp, hq, hpr, hqr, hne, hpe, hqe, fun hf => ?_⟩
  obtain ⟨v, -, huniq⟩ := hf.held 0 p hp hpr
  obtain ⟨u, hu, -⟩ := hf.held 1 q hq hqr
  rw [hqe] at hu
  rw [hpe] at huniq
  exact hne (huniq u q.pid hu).2.symm

end MongoRescue.HA.Proof
