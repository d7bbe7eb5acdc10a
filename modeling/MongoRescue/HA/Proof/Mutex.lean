import MongoRescue.HA.Proof.History

/-!
# Lease mutual exclusion

The holder of a version counts its claim from the moment its write was sent, for `TTL - renew`; a
standby waits from the moment it observed the version, for at least the TTL that the lease names in
whole seconds. Both are related through the history of the lease object (`HistOk`):

* `MgrOk`, `PcOk` — what a process holds, observed and waits for is in that history, with its clock
  readings on the right side of the commit times.
* `Retired` — a process that released a version claims none up to it. That is not what the code
  ensures but what `Yields` asks of the steps of a run: when a release takes effect its sender
  no longer passes the fencing check, and no release is answered with success.

`Inv` holds in every run whose steps yield. Without releases every step does, so no two instances
pass the fencing check at the same instant (`no_two_active`).
-/

namespace MongoRescue.HA.Proof

open Go (Bytes)
open Manager (Acquire Acquisition Renewal)

variable {ι : Type}

/-! ## Processes -/

/-- The lease has a holder and names the TTL of `cfg`. -/
def Names (cfg : Config) (l : Lease) : Prop :=
  l.holder ≠ "" ∧ l.ttlSeconds = cfg.ttl.tdiv Go.second

/-- What a manager holds and has observed is in the history. -/
structure MgrOk (w : World ι) (pid : Nat) (off : Int) (m : Manager) : Prop where
  cfg : w.started[pid]? = some m.cfg
  held : m.role = .active → Names m.cfg m.lease ∧ ∃ v e rid r, m.version = some v ∧
    Wrote w v e rid r ∧ r.pid = pid ∧ m.sentAt = r.sent + off
  seen : ∀ v, m.seenVersion = some v → ∃ e rid r, Wrote w v e rid r ∧
    (r.pid = pid ∨ e.time + off ≤ m.seenAt)

variable {pid rid : Nat} {off : Int} {m m' : Manager} {r : Request} {p : Proc}

theorem MgrOk.mono {w w' : World ι} (hx : Ext w w') (h : MgrOk w pid off m) : MgrOk w' pid off m where
  cfg := getElem?_mono hx.started h.cfg
  held := fun hr => by
    obtain ⟨hn, v, e, rid, r, hv, hw, hrest⟩ := h.held hr
    exact ⟨hn, v, e, rid, r, hv, hw.mono hx, hrest⟩
  seen := fun v hv => by
    obtain ⟨e, rid, r, hw, hor⟩ := h.seen v hv
    exact ⟨e, rid, r, hw.mono hx, hor⟩

variable {w : World ι}

theorem MgrOk.same (h : MgrOk w pid off m) (hs : Same m m') : MgrOk w pid off m' where
  cfg := by rw [hs.cfg]; exact h.cfg
  held := fun hr => by
    obtain ⟨hn, hv⟩ := h.held (hs.role ▸ hr)
    refine ⟨?_, ?_⟩
    · unfold Names at *
      rw [hs.cfg, hs.holder, hs.ttlSeconds]
      exact hn
    · rw [hs.version, hs.sentAt]
      exact hv
  seen := by rw [hs.seenVersion, hs.seenAt]; exact h.seen

theorem MgrOk.stepped (h : MgrOk w pid off m) (hs : Stepped m m') : MgrOk w pid off m' where
  cfg := by rw [hs.cfg]; exact h.cfg
  held := fun hr => by
    rw [hs.role] at hr
    cases hr
  seen := fun u hu => by
    obtain ⟨_, v, e, rid, r, hv, hw, hpid, _⟩ := h.held hs.was
    rw [hs.seenVersion, hv, Option.some.injEq] at hu
    subst hu
    exact ⟨e, rid, r, hw, .inl hpid⟩

theorem MgrOk.sameOrStepped (h : MgrOk w pid off m) (hs : Same m m' ∨ Stepped m m') :
    MgrOk w pid off m' :=
  hs.elim h.same h.stepped

/-- `m'` claims no more than `m` does. -/
def Continues (m m' : Manager) : Prop :=
  m'.role = .active → m.role = .active ∧ m'.version = m.version ∧ m'.deadline = m.deadline

theorem Same.continues (h : Same m m') : Continues m m' := fun hr =>
  ⟨h.role ▸ hr, h.version, by rw [Manager.deadline, Manager.deadline, h.sentAt, h.cfg]⟩

theorem Stepped.continues (h : Stepped m m') : Continues m m' := fun hr => by
  rw [h.role] at hr
  cases hr

theorem continues_of_sameOrStepped (h : Same m m' ∨ Stepped m m') : Continues m m' :=
  h.elim Same.continues Stepped.continues

theorem Continues.trans_same {m'' : Manager} (h : Continues m m') (hs : Same m' m'') :
    Continues m m'' := fun hr => by
  obtain ⟨hr', hv, hd⟩ := hs.continues hr
  obtain ⟨hr'', hv', hd'⟩ := h hr'
  exact ⟨hr'', hv.trans hv', hd.trans hd'⟩

/-- The request `rid` of process `pid` carries `next`, and was sent at `sent` on its clock. -/
def Sent (w : World ι) (pid : Nat) (off : Int) (rid : Nat) (next : Lease) (sent : Int) : Prop :=
  ∃ r cfg mac, w.net[rid]? = some r ∧ r.pid = pid ∧ r.data = .json { next with mac := mac } ∧
    sent = r.sent + off ∧ w.started[pid]? = some cfg ∧ Names cfg next

theorem Sent.mono {w w' : World ι} (hx : Ext w w') {next : Lease} {sent : Int}
    (h : Sent w pid off rid next sent) : Sent w' pid off rid next sent := by
  obtain ⟨r, cfg, mac, hr, hpid, hd, hs, hc, hn⟩ := h
  exact ⟨r, cfg, mac, getElem?_mono hx.net hr, hpid, hd, hs, getElem?_mono hx.started hc, hn⟩

/-- What a process in `role` waits for fits the history. -/
def PcOk (w : World ι) (pid : Nat) (off : Int) (role : Role) : Pc → Prop
  | .idle => True
  | .reading (some (.found d v)) => ∃ e, w.log[v]? = some e ∧ e.data = d
  | .reading _ => True
  | .flooring a => ∀ d v, a.prev = some (d, v) → Free w v pid w.time
  | .acquiring rid a => Sent w pid off rid a.next a.sent
  | .renewing rid r _ => Sent w pid off rid r.next r.now
  | .releasing rid _ => role = .active ∧ ∃ r l, w.net[rid]? = some r ∧ r.pid = pid ∧
    r.data = .json l ∧ l.holder = ""
  | .leaving => True

theorem PcOk.mono {w w' : World ι} (hx : Ext w w') {role : Role} {pc : Pc} (h : PcOk w pid off role pc) :
    PcOk w' pid off role pc := by
  cases pc with
  | idle => trivial
  | reading ans =>
    rcases ans with _ | ans
    · trivial
    cases ans with
    | found d v =>
      obtain ⟨e, he, hd⟩ := h
      exact ⟨e, getElem?_mono hx.log he, hd⟩
    | notFound => trivial
    | failed => trivial
  | flooring a => exact fun d v hp => (h d v hp).mono hx hx.time
  | acquiring rid a => exact Sent.mono hx h
  | renewing rid r after => exact Sent.mono hx h
  | releasing rid next =>
    obtain ⟨hr, r, l, hn, hrest⟩ := h
    exact ⟨hr, r, l, getElem?_mono hx.net hn, hrest⟩
  | leaving => trivial

/-- The request whose success gives the process a version to hold. -/
def claimed : Pc → Option Nat
  | .acquiring rid _ => some rid
  | .renewing rid _ _ => some rid
  | _ => none

theorem PcOk.named {role : Role} {pc : Pc} (h : PcOk w pid off role pc)
    (hc : claimed pc = some rid) {l : Lease} (hr : w.net[rid]? = some r) (hl : r.data = .json l) :
    l.holder ≠ "" := by
  have hsent : ∃ next sent, Sent w pid off rid next sent := by
    cases pc with
    | acquiring rid' a =>
      cases hc
      exact ⟨_, _, h⟩
    | renewing rid' r' after =>
      cases hc
      exact ⟨_, _, h⟩
    | _ => cases hc
  obtain ⟨next, _, r', _, mac, hr', _, hd, _, _, hn⟩ := hsent
  rw [hr, Option.some.injEq] at hr'
  rw [← hr', hl, Content.json.injEq] at hd
  rw [hd]
  exact hn.1

/-- The version that the request `rid` of process `pid` wrote, if any, is newer than every version
the process released or expects in a request. -/
def Pending (w : World ι) (pid rid : Nat) : Prop :=
  ∀ x e r, Wrote w x e rid r → (∀ v, ReleasedBy w v pid → v < x) ∧
    ∀ s ∈ w.net, s.pid = pid → ∀ u : Nat, s.cond = .matches (some u) → u < x

/-- The process claims no version up to `v` any more: it is a standby, holds a newer version, or its
deadline has passed. -/
def Retired (w : World ι) (p : Proc) (v : Nat) : Prop :=
  p.mgr.role = .active →
    (∃ u, p.mgr.version = some u ∧ v < u) ∨ p.mgr.deadline ≤ w.time + p.off

structure ProcOk (w : World ι) (p : Proc) : Prop where
  mgr : MgrOk w p.pid p.off p.mgr
  pc : PcOk w p.pid p.off p.mgr.role p.pc
  pending : ∀ rid, claimed p.pc = some rid → Pending w p.pid rid
  retired : ∀ v, ReleasedBy w v p.pid → Retired w p v

structure Inv (w : World ι) : Prop where
  hist : HistOk w
  procs : ∀ i p, w.procs i = some p → ProcOk w p
  pids : ∀ i j p q, w.procs i = some p → w.procs j = some q → p.pid = q.pid → i = j

/-! ## Pieces -/

/-- A piece of an operation of the process `pid` with manager `m` fits the history: its manager,
the request it sends, and what it waits for once the request has a number. -/
structure PieceOk (w : World ι) (pid : Nat) (off : Int) (m : Manager) (q : Piece) : Prop where
  mgr : MgrOk w pid off q.mgr
  /-- It claims what it claimed before, or a version newer than all it released. -/
  claim : Continues m q.mgr ∨ ∃ x, q.mgr.version = some x ∧ ∀ v, ReleasedBy w v pid → v < x
  req : ∀ cond data, q.write = some (cond, data) → ReqOk w ⟨pid, w.time, cond, data⟩
  /-- A request without a holder is a release. -/
  named : ∀ cond l, q.write = some (cond, .json l) → l.holder = "" →
    ∃ next, q.pc w.net.length = .releasing w.net.length next
  waits : ∀ rid, claimed (q.pc w.net.length) = some rid → rid = w.net.length
  pc : ∀ w', Ext w w' →
    (∀ cond data, q.write = some (cond, data) →
      w'.net[w.net.length]? = some ⟨pid, w.time, cond, data⟩) →
    PcOk w' pid off q.mgr.role (q.pc w.net.length)

theorem pieceOk_idle (h : MgrOk w pid off m')
    (hc : Continues m m' ∨ ∃ x, m'.version = some x ∧ ∀ v, ReleasedBy w v pid → v < x) :
    PieceOk w pid off m { mgr := m' } :=
  ⟨h, hc, fun _ _ hw => (by cases hw), fun _ _ hw => (by cases hw), fun _ hr => (by cases hr),
    fun _ _ _ => trivial⟩

section
variable {hmac : Bytes → String → Bytes}
  {pid : Nat} {off : Int} {m : Manager} {c : Clocks} {w : World ι}

theorem renewPiece_ok {m₀ : Manager} (h : MgrOk w pid off m) (hm : Same m₀ m)
    (hr : m.role = .active) (hc : c.now = w.time + off) (after : After) :
    PieceOk w pid off m₀ (renewPiece hmac m after c) := by
  unfold renewPiece
  rcases renewSend_spec hmac m c with ⟨m', he, hm'⟩ | ⟨r, mac, he, hnow, -, hh, -, ht⟩
  · rw [he]
    refine pieceOk_idle ((h.sameOrStepped hm').same (afterRenew_same _ _ _)) (.inl ?_)
    have hcont : Continues m₀ m' := fun hr' => by
      obtain ⟨h1, h2, h3⟩ := continues_of_sameOrStepped hm' hr'
      obtain ⟨h4, h5, h6⟩ := hm.continues h1
      exact ⟨h4, h2.trans h5, h3.trans h6⟩
    exact hcont.trans_same (afterRenew_same _ _ _)
  · rw [he]
    obtain ⟨hn, v, e, rid, q, hv, hw, hpid, _⟩ := h.held hr
    have hnext : Names m.cfg r.next := ⟨hh ▸ hn.1, ht.trans hn.2⟩
    refine ⟨h, .inl hm.continues, ?_, ?_, ?_, ?_⟩
    · rintro cond data heq
      cases heq
      refine ⟨le_rfl, ⟨m.cfg, _, h.cfg, m.valid, rfl, hnext.2⟩, ?_⟩
      intro u hu
      rw [hv] at hu
      cases hu
      exact ⟨e, rid, q, hw, .inl hpid⟩
    · rintro cond l heq hl
      cases heq
      exact absurd hl hnext.1
    · rintro rid' hrid
      exact (Option.some.inj hrid).symm
    · intro w' hx hnet
      refine ⟨_, m.cfg, mac, hnet _ _ rfl, rfl, rfl, ?_, getElem?_mono hx.started h.cfg, hnext⟩
      exact hnow.trans hc

theorem releasePiece_ok (h : MgrOk w pid off m) : PieceOk w pid off m (releasePiece hmac m c) := by
  unfold releasePiece
  rcases he : m.releaseSend hmac c with _ | ⟨next, data⟩
  · have hs := stepDown_spec (.refl m) true (c.now + c.late)
    exact pieceOk_idle (h.sameOrStepped hs) (.inl (continues_of_sameOrStepped hs))
  · obtain ⟨mac, rfl, hr, -, hh, -, ht⟩ := releaseSend_spec he
    obtain ⟨hn, v, e, rid, q, hv, hw, hpid, _⟩ := h.held hr
    refine ⟨h, .inl (Same.refl m).continues, ?_, ?_, ?_, ?_⟩
    · rintro cond data heq
      cases heq
      refine ⟨le_rfl, ⟨m.cfg, _, h.cfg, m.valid, rfl, ht.trans hn.2⟩, ?_⟩
      intro u hu
      rw [hv] at hu
      cases hu
      exact ⟨e, rid, q, hw, .inl hpid⟩
    · exact fun _ _ _ _ => ⟨next, rfl⟩
    · rintro rid' hrid
      cases hrid
    · intro w' hx hnet
      exact ⟨hr, _, _, hnet _ _ rfl, rfl, rfl, hh⟩

theorem callPiece_ok {op : Op} (h : MgrOk w pid off m) (hc : c.now = w.time + off) :
    PieceOk w pid off m (callPiece hmac m op c) := by
  cases op with
  | step =>
    simp only [callPiece]
    split
    · rename_i hr
      exact renewPiece_ok h (.refl m) hr hc _
    · exact ⟨h, .inl (Same.refl m).continues, fun _ _ hw => (by cases hw),
        fun _ _ hw => (by cases hw), fun _ hr => (by cases hr), fun _ _ _ => trivial⟩
  | confirm mark =>
    simp only [callPiece]
    split
    · exact pieceOk_idle h (.inl (Same.refl m).continues)
    · rename_i m' hm'
      obtain ⟨hr, hs⟩ := confirmBegin_spec hm'
      exact renewPiece_ok (h.same hs) hs hr hc _
  | recordSnapshot mark =>
    simp only [callPiece]
    split
    · exact pieceOk_idle h (.inl (Same.refl m).continues)
    · rename_i m' hm'
      obtain ⟨hr, hs⟩ := recordBegin_spec hm'
      exact renewPiece_ok (h.same hs) hs hr hc _
  | stepDown release =>
    cases release with
    | false =>
      have hs := stepDown_spec (.refl m) true (c.now + c.late)
      exact pieceOk_idle (h.sameOrStepped hs) (.inl (continues_of_sameOrStepped hs))
    | true => exact releasePiece_ok h
  | release => exact releasePiece_ok h

/-- What a read observed may be replaced once it was observed for its TTL, or names no holder. -/
theorem readPiece_ok {ans : ReadAnswer} (hw : HistOk w) (h : MgrOk w pid off m)
    (hc : c.now = w.time + off) (hans : PcOk w pid off m.role (.reading (some ans))) :
    PieceOk w pid off m (readPiece hmac m ans c) := by
  cases ans with
  | notFound =>
    have hm : MgrOk w pid off
        { m with healthy := true, lastErr := none, seen := {}, seenVersion := none } :=
      ⟨h.cfg, h.held, fun v hv => (by cases hv)⟩
    have hcont : Continues m
        { m with healthy := true, lastErr := none, seen := {}, seenVersion := none } :=
      fun hr => ⟨hr, rfl, rfl⟩
    simp only [readPiece, Manager.observeAnswer]
    by_cases hcool : c.now < m.cooldownUntil
    · simp only [hcool, if_true]
      exact pieceOk_idle hm (.inl hcont)
    · simp only [hcool, if_false]
      exact ⟨hm, .inl hcont, fun _ _ hq => (by cases hq), fun _ _ hq => (by cases hq),
        fun _ hr => (by cases hr), fun _ _ _ d v hp => (by cases hp)⟩
  | failed =>
    have hs := recordError_same m .storage
    exact pieceOk_idle (h.same hs) (.inl hs.continues)
  | found d v =>
    obtain ⟨e, hlog, hd⟩ := hans
    obtain ⟨rid, r, hsrc, _, hdata, _, htime⟩ := hw.commits v e hlog
    have hwr : Wrote w v e rid r := ⟨hlog, hsrc⟩
    obtain ⟨_, l, _, _, hl, _⟩ := (hw.wrote hwr).2.1.lease
    obtain ⟨m', acq, he, hobs, hacq⟩ := observeFound_spec hmac m d v c.now
    have hm : MgrOk w pid off m' := by
      refine ⟨hobs.cfg ▸ h.cfg, ?_, ?_⟩
      · rw [hobs.role, hobs.cfg, hobs.lease, hobs.version, hobs.sentAt]
        exact h.held
      · rcases hobs.seen with ⟨h1, h2⟩ | ⟨h1, h2⟩
        · rw [h1, h2]
          exact h.seen
        · intro u hu
          rw [h1, Option.some.injEq] at hu
          subst hu
          exact ⟨e, rid, r, hwr, .inr (by omega)⟩
    have hcont : Continues m m' := fun hr =>
      ⟨hobs.role ▸ hr, hobs.version, by
        rw [Manager.deadline, Manager.deadline, hobs.sentAt, hobs.cfg]⟩
    simp only [readPiece, Manager.observeAnswer, he]
    cases acq with
    | none => exact pieceOk_idle hm (.inl hcont)
    | some a =>
      refine ⟨hm, .inl hcont, fun _ _ hq => (by cases hq), fun _ _ hq => (by cases hq),
        fun _ hr => (by cases hr), fun w' hx _ d' v' hp => ?_⟩
      obtain ⟨hprev, hsv, -, -, hexp⟩ := hacq a rfl
      rw [hprev, Option.some.injEq, Prod.mk.injEq] at hp
      obtain ⟨rfl, rfl⟩ := hp
      refine Free.mono (t := w.time) hx hx.time ?_
      obtain ⟨e', rid', r', hwr', hor⟩ := hm.seen v hsv
      have hee : e' = e := Option.some.inj (hwr'.log.symm.trans hlog)
      subst hee
      have hdl : decodeLease d = some l := by
        rw [← hd, hdata, hl]
        rfl
      refine ⟨e', rid', r', hwr', hor.imp_right fun hle => ⟨l, by rw [hdata, hl], ?_⟩⟩
      rcases hexp with ⟨l', hl', hrel⟩ | hexp
      · rw [hdl, Option.some.injEq] at hl'
        exact .inl (hl' ▸ hrel)
      · rw [hdl] at hexp
        obtain ⟨_, httl, _⟩ := validate_timing m.valid
        have hlow : Go.minInt64 < max m.cfg.ttl l.ttl := by
          refine lt_of_lt_of_le ?_ (le_max_left _ _)
          unfold minTTL Go.second at httl
          unfold Go.minInt64
          omega
        have := le_trans (le_max_right _ _) (Go.le_sub_of_le_timeSub hlow hexp)
        exact .inr (by omega)

theorem floorPiece_ok {a : Acquire} {ans : FloorAnswer} (h : MgrOk w pid off m)
    (hc : c.now = w.time + off) (ha : PcOk w pid off m.role (.flooring a)) :
    PieceOk w pid off m (floorPiece hmac m a ans c) := by
  unfold floorPiece
  rcases acquireSend_spec hmac m a ans c with ⟨m', he, hm'⟩ | ⟨acq, mac, he, hq⟩
  · rw [he]
    exact pieceOk_idle (h.same hm') (.inl hm'.continues)
  · rw [he]
    have hnext : Names m.cfg acq.next :=
      ⟨hq.nextHolder ▸ (validate_timing m.valid).1, hq.nextTTL⟩
    refine ⟨h, .inl (Same.refl m).continues, ?_, ?_, ?_, ?_⟩
    · rintro cond data heq
      simp only [Option.some.injEq, Prod.mk.injEq] at heq
      obtain ⟨hcond, rfl⟩ := heq
      refine ⟨le_rfl, ⟨m.cfg, _, h.cfg, m.valid, rfl, hnext.2⟩, ?_⟩
      intro v hv
      rw [← hcond] at hv
      rcases hp : a.prev with _ | ⟨d, u⟩
      · simp [hp] at hv
      · simp only [hp, Cond.matches.injEq, Option.some.injEq] at hv
        subst hv
        exact ha d u hp
    · rintro cond l heq hl
      simp only [Option.some.injEq, Prod.mk.injEq, Content.json.injEq] at heq
      obtain ⟨-, rfl⟩ := heq
      exact absurd hl hnext.1
    · rintro rid hrid
      exact (Option.some.inj hrid).symm
    · intro w' hx hnet
      refine ⟨_, m.cfg, mac, hnet _ _ rfl, rfl, rfl, ?_, getElem?_mono hx.started h.cfg, hnext⟩
      exact hq.sent.trans hc

/-- A request its process sees succeed is in the history, as the process sent it. -/
theorem sent_written (hw : HistOk w) {rid : Nat} {next : Lease} {sent : Int}
    (h : MgrOk w pid off m) (hs : Sent w pid off rid next sent) {v : Nat} (hv : w.written rid = some v) :
    Names m.cfg next ∧ ∃ e r, Wrote w v e rid r ∧ r.pid = pid ∧ sent = r.sent + off := by
  obtain ⟨r, cfg, _, hnet, hpid, _, hsent, hc, hn⟩ := hs
  obtain ⟨e, r', hwr⟩ := written_spec hv
  have hr : r' = r := Option.some.inj ((hw.wrote hwr).1.symm.trans hnet)
  have hcfg : cfg = m.cfg := Option.some.inj (hc.symm.trans h.cfg)
  exact ⟨hcfg ▸ hn, e, r, hr ▸ hwr, hpid, hsent⟩

theorem writePiece_ok (hw : HistOk w) {pc : Pc} {rid : Nat} {out : Outcome}
    {ans : WriteAnswer} {q : Piece} (h : MgrOk w pid off m) (hpc : PcOk w pid off m.role pc)
    (hrid : pc.rid = some rid) (hpend : ∀ rid, claimed pc = some rid → Pending w pid rid)
    (hyield : ∀ rid next, out = .ok → pc ≠ .releasing rid next) (hans : w.answer rid out = some ans)
    (hq : writePiece hmac m pc ans c = some q) : PieceOk w pid off m q := by
  cases pc with
  | acquiring rid' a =>
    cases hrid
    cases hq
    rcases acquireAnswer_spec hmac m a ans with ⟨v, rfl, hh, -, hseen, -⟩ | hs
    · have hwr := (answer_ok hans).2
      obtain ⟨hn, e, r, hwr, hpid, hsent⟩ := sent_written hw h hpc hwr
      refine pieceOk_idle ⟨hh.cfg ▸ h.cfg, fun _ => ?_, fun u hu => ?_⟩
        (.inr ⟨v, hh.version, (hpend rid rfl v e r hwr).1⟩)
      · rw [hh.cfg, hh.lease, hh.sentAt]
        exact ⟨hn, v, e, rid, r, hh.version, hwr, hpid, hsent⟩
      · rw [hseen, Option.some.injEq] at hu
        subst hu
        exact ⟨e, rid, r, hwr, .inl hpid⟩
    · exact pieceOk_idle (h.same hs) (.inl hs.continues)
  | renewing rid' r after =>
    cases hrid
    cases hq
    have hafter : Same (m.renewAnswer r ans c) (afterRenew hmac (m.renewAnswer r ans c) after c) :=
      afterRenew_same _ _ _
    rcases renewAnswer_spec m r ans c with ⟨v, rfl, hh, hrole, -, hsv, hsa, -⟩ | hs
    · have hwr := (answer_ok hans).2
      obtain ⟨hn, e, q, hwr, hpid, hsent⟩ := sent_written hw h hpc hwr
      refine pieceOk_idle (MgrOk.same ⟨hh.cfg ▸ h.cfg, fun _ => ?_, ?_⟩ hafter)
        (.inr ⟨v, hafter.version.trans hh.version, (hpend rid rfl v e q hwr).1⟩)
      · rw [hh.cfg, hh.lease, hh.sentAt]
        exact ⟨hn, v, e, rid, q, hh.version, hwr, hpid, hsent⟩
      · rw [hsv, hsa]
        exact h.seen
    · exact pieceOk_idle ((h.sameOrStepped hs).same hafter)
        (.inl ((continues_of_sameOrStepped hs).trans_same hafter))
  | releasing rid' next =>
    cases hrid
    cases hq
    rcases releaseAnswer_spec m next ans c with ⟨v, rfl, -⟩ | hs
    · exact absurd rfl (hyield rid next (answer_ok hans).1)
    · exact ⟨h.same hs, .inl hs.continues, fun _ _ hw => (by cases hw),
        fun _ _ hw => (by cases hw), fun _ hr => (by cases hr), fun _ _ _ => trivial⟩
  | idle => cases hq
  | reading s => cases hq
  | flooring a => cases hq
  | leaving => cases hq

end

theorem Inv.init (h : w.Initial) : Inv w := by
  obtain ⟨hp, ho, hn, hl, _⟩ := h
  refine ⟨⟨?_, ?_, ?_, ?_, .inl ⟨ho, hl⟩⟩, ?_, ?_⟩
  · simp [hn]
  · simp [hl]
  · simp [hl]
  · intro u v e f rid r rid' r' cfg _ hu
    have := hu.log
    simp [hl] at this
  all_goals simp [hp]

/-! ## The fencing check -/

theorem check_ok {i : ι} {wall : Int} (h : w.check i wall = .ok ()) :
    ∃ p, w.procs i = some p ∧ p.mgr.role = .active ∧ w.time + p.off < p.mgr.deadline := by
  unfold World.check at h
  split at h
  · cases h
  · rename_i p hp
    unfold Manager.check at h
    split at h
    · cases h
    · rename_i hn
      simp only [not_or, not_not, Manager.expired, Bool.or_eq_true, Bool.not_eq_true',
        decide_eq_false_iff_not] at hn
      exact ⟨p, hp, hn.1, hn.2.1⟩

/-- A claim that has begun and is not over passes the check, on a wall clock that has not moved. -/
theorem check_of_claim {i : ι} (hp : w.procs i = some p) (hr : p.mgr.role = .active)
    (hs : p.mgr.sentAt ≤ w.time + p.off) (hd : w.time + p.off < p.mgr.deadline) :
    w.check i p.mgr.sentWall = .ok () := by
  have hlt : 0 < p.mgr.cfg.ttl - p.mgr.cfg.renew := by
    unfold Manager.deadline at hd
    omega
  have hwall : ¬ Go.timeSub p.mgr.sentWall p.mgr.sentWall ≥ p.mgr.cfg.ttl - p.mgr.cfg.renew := by
    unfold Go.timeSub Go.minInt64 Go.maxInt64
    omega
  simp [World.check, hp, Manager.check, Manager.expired, hr, hd, hwall]

/-- The newer of two held versions was written after the claim to the older one had ended. -/
theorem Inv.not_both (h : Inv w) {i j : ι} {q : Proc} {u v : Nat} {e f : Commit}
    {ru rv : Nat} {s : Request} (hi : w.procs i = some p) (hr : p.mgr.role = .active)
    (hpu : p.mgr.version = some u) (hu : Wrote w u e ru r) (hrp : r.pid = p.pid)
    (hsent : p.mgr.sentAt = r.sent + p.off) (hdl : w.time + p.off < p.mgr.deadline)
    (hj : w.procs j = some q) (hv : Wrote w v f rv s) (hsq : s.pid = q.pid) (huv : u < v) : i = j := by
  have hc : w.started[r.pid]? = some p.mgr.cfg := hrp ▸ (h.procs i p hi).mgr.cfg
  rcases h.hist.succ u v e f ru r rv s p.mgr.cfg huv hu hv hc with heq | hle | ⟨x, hux, hrel⟩
  · exact h.pids i j p q hi hj (by rw [← hrp, heq, hsq])
  · have := (h.hist.wrote hv).2.2.2.2
    unfold Manager.deadline at hdl
    omega
  · rcases (h.procs i p hi).retired x (hrp ▸ hrel) hr with ⟨u', hu', hlt⟩ | hover
    · rw [hpu, Option.some.injEq] at hu'
      omega
    · omega

/-! ## Steps -/

/-- **When a release takes effect, its sender no longer passes the fencing check**, and no release
is answered with success (which moves the deadline of an instance that is not yet a standby). -/
def Yields (w : World ι) : Event ι → Prop
  | .commit rid => ∀ r l, w.net[rid]? = some r → r.data = .json l → l.holder = "" →
    ∀ i p wall, w.procs i = some p → p.pid = r.pid → w.check i wall ≠ .ok ()
  | .writeReturn i .ok _ => ∀ p rid next, w.procs i = some p → p.pc ≠ .releasing rid next
  | _ => True

/-- A process that does not take part in a step keeps its place in the history. -/
theorem ProcOk.frame {w w' : World ι} (h : ProcOk w p) (hx : Ext w w') (hl : w'.log = w.log)
    (hn : ∀ r ∈ w'.net, r ∈ w.net ∨ r.pid ≠ p.pid) : ProcOk w' p where
  mgr := h.mgr.mono hx
  pc := h.pc.mono hx
  pending := fun rid hrid x e r hw => by
    obtain ⟨h1, h2⟩ := h.pending rid hrid x e r ⟨hl ▸ hw.log, hw.source⟩
    refine ⟨fun v hv => h1 v (hv.of_log hl), fun s hs hpid => ?_⟩
    rcases hn s hs with hs | hne
    · exact h2 s hs hpid
    · exact absurd hpid hne
  retired := fun v hv hr => by
    refine (h.retired v (hv.of_log hl) hr).imp_right fun hd => ?_
    have := hx.time
    omega

theorem Inv.commit (h : Inv w) (hn : w.net[rid]? = some r) (hh : w.holds r.cond)
    (hy : ∀ l, r.data = .json l → l.holder = "" → ∀ i p wall, w.procs i = some p →
      p.pid = r.pid → w.check i wall ≠ .ok ()) : Inv (w.write (some (rid, r)) r.data) := by
  have hx := write_ext w (some (rid, r)) r.data
  have hmem := List.mem_of_getElem? hn
  -- what is expected of the new version and of those before it
  have hbelow : ∀ s ∈ w.net, ∀ u : Nat, s.cond = .matches (some u) → u < w.log.length := by
    intro s hs u hu
    obtain ⟨e, _, _, hw, _⟩ := (h.hist.reqs s hs).free u hu
    exact (List.getElem?_eq_some_iff.mp hw.log).1
  have hrelOld : ∀ v pid, ReleasedBy (w.write (some (rid, r)) r.data) v pid →
      ReleasedBy w v pid ∨
        v = w.log.length ∧ pid = r.pid ∧ ∃ l, r.data = .json l ∧ l.holder = "" := by
    rintro v pid ⟨e, rid', r', l, hw, hpid, hl, hh⟩
    rcases hw.of_write with hw | ⟨hv, hsrc, hd⟩
    · exact .inl ⟨e, rid', r', l, hw, hpid, hl, hh⟩
    · cases hsrc
      exact .inr ⟨hv, hpid.symm, l, hd ▸ hl, hh⟩
  refine ⟨h.hist.commit hn hh, fun i p hp => ?_, h.pids⟩
  have hok := h.procs i p hp
  refine ⟨hok.mgr.mono hx, hok.pc.mono hx, fun rid' hrid' x e r' hw => ?_, fun v hv hr => ?_⟩
  · rcases hw.of_write with hw | ⟨rfl, hsrc, -⟩
    · obtain ⟨h1, h2⟩ := hok.pending rid' hrid' x e r' hw
      refine ⟨fun v hv => ?_, h2⟩
      rcases hrelOld v p.pid hv with hv | ⟨-, hpid, -⟩
      · exact h1 v hv
      · -- a release that takes effect expects the newest version, and so not one from before `x`
        have hxlt := (List.getElem?_eq_some_iff.mp hw.log).1
        obtain ⟨u, hu, hlen⟩ := h.hist.expects hh (by omega)
        have := h2 r hmem hpid.symm u hu
        omega
    · refine ⟨fun v hv => ?_, fun s hs _ u hu => hbelow s hs u hu⟩
      cases hsrc
      rcases hrelOld v p.pid hv with ⟨e', _, _, _, hw', _⟩ | ⟨-, -, l, hl, hnil⟩
      · exact (List.getElem?_eq_some_iff.mp hw'.log).1
      · exact absurd hnil (hok.pc.named hrid' hn hl)
  · rcases hrelOld v p.pid hv with hv | ⟨rfl, hpid, l, hl, hnil⟩
    · exact hok.retired v hv hr
    · refine .inr (not_lt.mp fun hd => ?_)
      obtain ⟨-, _, _, _, s, -, hw, -, hs⟩ := hok.mgr.held hr
      have := (h.hist.wrote hw).2.2.2
      exact hy l hl hnil i p _ hp hpid (check_of_claim hp hr (by omega) hd)

section
variable [DecidableEq ι]

/-- A step that replaces the process of `i`, whose requests alone it adds. -/
theorem Inv.update {w w' : World ι} (h : Inv w) (hx : Ext w w') (hh : HistOk w')
    (hl : w'.log = w.log) {i : ι} {p' : Option Proc} (hp : w'.procs = Function.update w.procs i p')
    (hn : ∀ r ∈ w'.net, r ∈ w.net ∨ ∃ q, w.procs i = some q ∧ q.pid = r.pid)
    (hok : ∀ p, p' = some p → ProcOk w' p ∧
      ((∃ q, w.procs i = some q ∧ q.pid = p.pid) ∨ w.started.length ≤ p.pid)) : Inv w' := by
  have hcases : ∀ j p, w'.procs j = some p →
      (j = i ∧ p' = some p) ∨ (j ≠ i ∧ w.procs j = some p) :=
    fun j p hj => update_procs (hp ▸ hj)
  -- the process number of `i` is its own: kept, or beyond all earlier ones
  have hfresh : ∀ j p q, j ≠ i → p' = some p → w.procs j = some q → p.pid ≠ q.pid := by
    intro j p q hji hp' hq heq
    rcases (hok p hp').2 with ⟨q', hq', hpid⟩ | hge
    · exact hji (h.pids j i q q' hq hq' (heq.symm.trans hpid.symm))
    · have := (List.getElem?_eq_some_iff.mp (h.procs j q hq).mgr.cfg).1
      omega
  refine ⟨hh, fun j p hj => ?_, fun j k p q hj hk heq => ?_⟩
  · rcases hcases j p hj with ⟨-, hp'⟩ | ⟨hji, hq⟩
    · exact (hok p hp').1
    · refine (h.procs j p hq).frame hx hl fun r hr => (hn r hr).imp_right ?_
      rintro ⟨q, hqi, hpid⟩ heq
      exact hji (h.pids j i p q hq hqi (heq.symm.trans hpid.symm))
  · rcases hcases j p hj with ⟨rfl, hp'⟩ | ⟨hji, hp'⟩ <;>
      rcases hcases k q hk with ⟨rfl, hq'⟩ | ⟨hki, hq'⟩
    · rfl
    · exact absurd heq (hfresh k p q hki hp' hq')
    · exact absurd heq.symm (hfresh j q p hji hq' hp')
    · exact h.pids j k p q hp' hq' heq

theorem Inv.proceed {w : World ι} (h : Inv w) {i : ι} {p : Proc} (hp : w.procs i = some p)
    {q : Piece} (hq : PieceOk w p.pid p.off p.mgr q) : Inv (w.proceed i p q) := by
  have hx := proceed_ext w i p q
  refine h.update hx (h.hist.grow hx rfl rfl ?_) rfl rfl ?_ ?_
  · intro r hr
    rcases mem_proceed_net hr with hr | ⟨cond, data, hw, rfl⟩
    · exact .inl hr
    · exact .inr ((hq.req cond data hw).mono hx)
  · intro r hr
    refine (mem_proceed_net hr).imp_right ?_
    rintro ⟨cond, data, -, rfl⟩
    exact ⟨p, hp, rfl⟩
  · rintro p' hp'
    cases hp'
    refine ⟨⟨hq.mgr.mono hx, hq.pc _ hx fun cond data hw => ?_, fun rid hrid x e r hw => ?_,
      fun v hv hr => ?_⟩, .inl ⟨p, hp, rfl⟩⟩
    · simp [World.proceed, hw]
    · -- the request has just been sent, and nothing is written by it
      obtain rfl := hq.waits rid hrid
      have hw' : Wrote w x e w.net.length r := ⟨hw.log, hw.source⟩
      have := (h.hist.wrote hw').1
      simp at this
    · have hlog : (w.proceed i p q).log = w.log := rfl
      have hv : ReleasedBy w v p.pid := hv.of_log hlog
      rcases hq.claim with hc | ⟨x, hx', hlt⟩
      · obtain ⟨hr', hver, hdl⟩ := hc hr
        have := (h.procs i p hp).retired v hv hr'
        rw [← hver, ← hdl] at this
        exact this
      · exact .inl ⟨x, hx', hlt v hv⟩

/-- What one event keeps, when only the instances write the lease. -/
theorem Inv.step {hmac : Bytes → String → Bytes} {w w' : World ι} {ev : Event ι} (h : Inv w)
    (hb : ev.byInstances) (hy : Yields w ev) (hs : w.step hmac ev = some w') : Inv w' := by
  cases step_cases hs with
  | tick d =>
    have hx : Ext w { w with time := w.time + d } :=
      ⟨by dsimp only; omega, List.prefix_rfl, List.prefix_rfl, List.prefix_rfl⟩
    exact ⟨h.hist.grow hx rfl rfl fun r hr => .inl hr,
      fun i p hp => (h.procs i p hp).frame hx rfl fun r hr => .inl hr, h.pids⟩
  | start i cfg off hv =>
    have hx : Ext w { w.setProc i (some ⟨w.started.length, off, { cfg, valid := hv }, .idle⟩)
        with started := w.started ++ [cfg] } :=
      ⟨le_rfl, List.prefix_rfl, List.prefix_rfl, List.prefix_append _ _⟩
    refine h.update hx (h.hist.grow hx rfl rfl fun r hr => .inl hr) rfl rfl
      (fun r hr => .inl hr) ?_
    rintro p hp
    cases hp
    exact ⟨⟨⟨by simp, fun hr => (by cases hr), fun v hv => (by cases hv)⟩, trivial,
      fun _ hr => (by cases hr), fun _ _ hr => (by cases hr)⟩, .inr le_rfl⟩
  | crash i =>
    have hx : Ext w (w.setProc i none) :=
      ⟨le_rfl, List.prefix_rfl, List.prefix_rfl, List.prefix_rfl⟩
    exact h.update hx (h.hist.grow hx rfl rfl fun r hr => .inl hr) rfl rfl (fun r hr => .inl hr)
      fun p hp => (by cases hp)
  | call i op env p hp hpc => exact h.proceed hp (callPiece_ok (h.procs i p hp).mgr rfl)
  | serve i p hp hpc =>
    have hx : Ext w (w.setProc i (some { p with pc := .reading (some w.read) })) :=
      ⟨le_rfl, List.prefix_rfl, List.prefix_rfl, List.prefix_rfl⟩
    refine h.update hx (h.hist.grow hx rfl rfl fun r hr => .inl hr) rfl rfl
      (fun r hr => .inl hr) ?_
    rintro p' hp'
    cases hp'
    have hok := h.procs i p hp
    have hlog : (w.setProc i (some { p with pc := .reading (some w.read) })).log = w.log := rfl
    refine ⟨⟨hok.mgr.mono hx, PcOk.mono hx ?_, fun _ hr => (by cases hr),
      fun v hv => hok.retired v (hv.of_log hlog)⟩, .inl ⟨p, hp, rfl⟩⟩
    unfold World.read
    rcases h.hist.obj with ⟨ho, -⟩ | ⟨v, e, -, he, ho⟩
    · rw [ho]
      trivial
    · rw [ho]
      exact ⟨e, he, rfl⟩
  | readFailed i env p hp =>
    exact h.proceed hp (readPiece_ok h.hist (h.procs i p hp).mgr rfl trivial)
  | readReturn i env p ans hp hpc =>
    exact h.proceed hp (readPiece_ok h.hist (h.procs i p hp).mgr rfl (hpc ▸ (h.procs i p hp).pc))
  | floorReturn i ans env p a hp hpc hset =>
    exact h.proceed hp (floorPiece_ok (h.procs i p hp).mgr rfl (hpc ▸ (h.procs i p hp).pc))
  | commit rid r hn hh => exact h.commit hn hh fun l hl hnil => hy r l hn hl hnil
  | writeReturn i out env p rid ans q hp hrid hans hq =>
    have hok := h.procs i p hp
    refine h.proceed hp (writePiece_ok h.hist hok.mgr hok.pc hrid hok.pending ?_ hans hq)
    rintro rid' next rfl
    exact hy p rid' next hp
  | leave i env p hp hpc =>
    have hsd := stepDown_spec (.refl p.mgr) true (w.clocks p env).now
    exact h.proceed hp (pieceOk_idle ((h.procs i p hp).mgr.sameOrStepped hsd)
      (.inl (continues_of_sameOrStepped hsd)))
  | deleteByHand => cases hb
  | writeByHand d => cases hb

end

/-! ## Mutual exclusion -/

theorem Inv.exclusive (h : Inv w) {i j : ι} (hij : i ≠ j) (wallI wallJ : Int) :
    ¬ (w.check i wallI = .ok () ∧ w.check j wallJ = .ok ()) := by
  rintro ⟨hi, hj⟩
  obtain ⟨p, hp, hpr, hpd⟩ := check_ok hi
  obtain ⟨q, hq, hqr, hqd⟩ := check_ok hj
  obtain ⟨_, u, e, ru, r, hpu, hu, hrp, hrs⟩ := (h.procs i p hp).mgr.held hpr
  obtain ⟨_, v, f, rv, s, hqv, hv, hsq, hss⟩ := (h.procs j q hq).mgr.held hqr
  rcases Nat.lt_trichotomy u v with huv | rfl | hvu
  · exact hij (h.not_both hp hpr hpu hu hrp hrs hpd hq hv hsq huv)
  · -- one version has one writer
    have hef : e = f := Option.some.inj (hu.log.symm.trans hv.log)
    have hsrc := hu.source
    rw [hef, hv.source, Option.some.injEq, Prod.mk.injEq] at hsrc
    exact hij (h.pids i j p q hp hq (by rw [← hrp, ← hsrc.2, hsq]))
  · exact hij (h.not_both hq hqr hqv hv hsq hss hqd hp hu hrp hvu).symm

/-- No instance has released the lease, nor is about to. -/
structure Quiet (w : World ι) : Prop where
  net : ∀ r ∈ w.net, ∀ l, r.data = .json l → l.holder ≠ ""
  pc : ∀ i p rid next, w.procs i = some p → p.pc ≠ .releasing rid next

theorem Quiet.yields (h : Quiet w) (ev : Event ι) : Yields w ev := by
  cases ev with
  | commit rid =>
    intro r l hn hl hnil
    exact absurd hnil (h.net r (List.mem_of_getElem? hn) l hl)
  | writeReturn i out env =>
    cases out with
    | ok => exact fun p rid next hp => h.pc i p rid next hp
    | preconditionFailed => trivial
    | failed => trivial
  | _ => trivial

section
variable [DecidableEq ι] {hmac : Bytes → String → Bytes}

theorem Quiet.update {w w' : World ι} (h : Quiet w) {i : ι} {p' : Option Proc}
    (hn : ∀ r ∈ w'.net, ∀ l, r.data = .json l → l.holder ≠ "")
    (hp : w'.procs = Function.update w.procs i p')
    (hpc : ∀ p rid next, p' = some p → p.pc ≠ .releasing rid next) : Quiet w' where
  net := hn
  pc := fun j p rid next hj => by
    rcases update_procs (hp ▸ hj) with ⟨-, hp'⟩ | ⟨-, hj⟩
    · exact hpc p rid next hp'
    · exact h.pc j p rid next hj

theorem Quiet.proceed {w : World ι} (h : Quiet w) {i : ι} {p : Proc} {m : Manager} {q : Piece}
    (hq : PieceOk w p.pid p.off m q) (hpc : ∀ rid next, q.pc w.net.length ≠ .releasing rid next) :
    Quiet (w.proceed i p q) := by
  refine h.update (fun r hr l hl hnil => ?_) rfl fun p' rid next hp' => ?_
  · rcases mem_proceed_net hr with hr | ⟨cond, data, hw, rfl⟩
    · exact h.net r hr l hl hnil
    · obtain ⟨next, hn⟩ := hq.named cond l (hl ▸ hw) hnil
      exact hpc _ _ hn
  · cases hp'
    exact hpc rid next

section
variable {hmac : Bytes → String → Bytes}

theorem renewPiece_pc (m : Manager) (after : After) (c : Clocks) (n rid : Nat) (next : Lease) :
    (renewPiece hmac m after c).pc n ≠ .releasing rid next := by
  unfold renewPiece
  split <;> simp

theorem callPiece_pc {op : Op} (hop : op ≠ .release) (hop' : op ≠ .stepDown true) (m : Manager)
    (c : Clocks) (n rid : Nat) (next : Lease) :
    (callPiece hmac m op c).pc n ≠ .releasing rid next := by
  cases op with
  | step =>
    simp only [callPiece]
    split
    · exact renewPiece_pc _ _ _ _ _ _
    · simp
  | confirm mark =>
    simp only [callPiece]
    split
    · simp
    · exact renewPiece_pc _ _ _ _ _ _
  | recordSnapshot mark =>
    simp only [callPiece]
    split
    · simp
    · exact renewPiece_pc _ _ _ _ _ _
  | stepDown release =>
    cases release with
    | false => simp [callPiece]
    | true => exact absurd rfl hop'
  | release => exact absurd rfl hop

end

theorem Quiet.step {w w' : World ι} {ev : Event ι} (h : Quiet w) (hi : Inv w) (hr : ¬ ev.releases)
    (hs : w.step hmac ev = some w') : Quiet w' := by
  cases step_cases hs with
  | tick d => exact ⟨h.net, h.pc⟩
  | start i cfg off hv =>
    refine h.update h.net rfl fun p rid next hp => ?_
    cases hp
    simp
  | crash i => exact h.update h.net rfl fun p rid next hp => (by cases hp)
  | call i op env p hp hpc =>
    refine h.proceed (callPiece_ok (hi.procs i p hp).mgr rfl) (callPiece_pc ?_ ?_ _ _ _) <;>
      rintro rfl <;> exact hr rfl
  | serve i p hp hpc =>
    refine h.update h.net rfl fun p' rid next hp' => ?_
    cases hp'
    simp
  | readFailed i env p hp =>
    refine h.proceed (readPiece_ok hi.hist (hi.procs i p hp).mgr rfl trivial) fun rid next => ?_
    simp [readPiece, Manager.observeAnswer]
  | readReturn i env p ans hp hpc =>
    refine h.proceed (readPiece_ok hi.hist (hi.procs i p hp).mgr rfl (hpc ▸ (hi.procs i p hp).pc))
      fun rid next => ?_
    unfold readPiece
    split <;> simp
  | floorReturn i ans env p a hp hpc hset =>
    refine h.proceed (floorPiece_ok (hi.procs i p hp).mgr rfl (hpc ▸ (hi.procs i p hp).pc))
      fun rid next => ?_
    unfold floorPiece
    split <;> simp
  | commit rid r hn hh => exact ⟨h.net, h.pc⟩
  | writeReturn i out env p rid ans q hp hrid hans hq =>
    have hok := hi.procs i p hp
    refine h.proceed (writePiece_ok hi.hist hok.mgr hok.pc hrid hok.pending
      (fun rid next _ => h.pc i p rid next hp) hans hq) fun rid' next => ?_
    unfold writePiece at hq
    split at hq <;> cases hq <;> simp
  | leave i env p hp hpc =>
    have hsd := stepDown_spec (.refl p.mgr) true (w.clocks p env).now
    exact h.proceed (pieceOk_idle ((hi.procs i p hp).mgr.sameOrStepped hsd)
      (.inl (continues_of_sameOrStepped hsd))) fun rid next => by simp
  | deleteByHand => exact ⟨h.net, h.pc⟩
  | writeByHand d => exact ⟨h.net, h.pc⟩

theorem inv_of_yields {w : World ι}
    (h : (cluster hmac ι).Reach (fun w ev => ev.byInstances ∧ Yields w ev) w) : Inv w :=
  h.inv (fun _ => Inv.init) fun _ _ _ hI hok hs => hI.step hok.1 hok.2 hs

/-- Without releases every step yields. -/
theorem reach_yields {w : World ι}
    (h : (cluster hmac ι).Reach (fun _ ev => ev.byInstances ∧ ¬ ev.releases) w) :
    (cluster hmac ι).Reach (fun w ev => ev.byInstances ∧ Yields w ev) w ∧ Quiet w := by
  induction h with
  | init h0 =>
    obtain ⟨hp, _, hn, _⟩ := id h0
    exact ⟨.init h0, by simp [hn], by simp [hp]⟩
  | step _ hok hs ih =>
    exact ⟨.step ih.1 ⟨hok.1, ih.2.yields _⟩ hs, ih.2.step (inv_of_yields ih.1) hok.2 hs⟩

/-- **Lease mutual exclusion**: while only the instances write the lease and none releases it, at no
instant do two instances pass the fencing check, whatever their wall clocks read. -/
theorem no_two_active (hmac : Bytes → String → Bytes) {w : World ι}
    (h : (cluster hmac ι).Reach (fun _ ev => ev.byInstances ∧ ¬ ev.releases) w) {i j : ι}
    (hij : i ≠ j) (wallI wallJ : Int) : ¬ (w.check i wallI = .ok () ∧ w.check j wallJ = .ok ()) :=
  (inv_of_yields (reach_yields h).1).exclusive hij wallI wallJ

/-- **Claims to the lease follow each other**: while only the instances write the lease and none releases
it, a version is committed only once the claim of every other process to an earlier one is over, also of
a process that crashed or never learned that its request took effect. -/
theorem claims_disjoint (hmac : Bytes → String → Bytes) {w : World ι}
    (h : (cluster hmac ι).Reach (fun _ ev => ev.byInstances ∧ ¬ ev.releases) w)
    {u v rid rid' : Nat} {e f : Commit} {r r' : Request} {cfg : Config} (huv : u < v)
    (hu : Wrote w u e rid r) (hv : Wrote w v f rid' r') (hne : r.pid ≠ r'.pid)
    (hcfg : w.started[r.pid]? = some cfg) : r.sent + (cfg.ttl - cfg.renew) ≤ f.time := by
  obtain ⟨hyields, hquiet⟩ := reach_yields h
  have hist := (inv_of_yields hyields).hist
  rcases (hist.succ u v e f rid r rid' r' cfg huv hu hv hcfg).resolve_left hne with hle | hrel
  · exact hle
  · -- a version without a holder was never requested
    obtain ⟨x, -, e', i, q, l, hw, -, hl, hnil⟩ := hrel
    obtain ⟨hnet, -, hdata, -⟩ := hist.wrote hw
    exact absurd hnil (hquiet.net q (List.mem_of_getElem? hnet) l (hdata ▸ hl))

end

/-- A run of two instances: the first creates the lease, the second observes it for its TTL and
takes it over. -/
def takeover : List (Event (Fin 2)) :=
  let env : Env := ⟨0, 0, 0⟩
  let cfg (id : String) : Config :=
    { cluster := "c", instanceID := id, ttl := 30 * Go.second, renew := 10 * Go.second }
  [.start instA (cfg "a") 7, .start instB (cfg "b") 0] ++ acquires instA 0 ++
    [.call instB .step env, .serve instB, .readReturn instB false env, .tick 30000000000] ++
    acquires instB 1

theorem no_two_active_takeover :
    ∃ w, (cluster (fun _ _ => []) (Fin 2)).Reach (fun _ ev => ev.byInstances ∧ ¬ ev.releases) w ∧
      w.check 1 0 = .ok () ∧ ¬ (w.check 0 0 = .ok () ∧ w.check 1 0 = .ok ()) := by
  have hrun : (cluster (fun _ _ => []) (Fin 2)).Along (fun _ ev => ev.byInstances ∧ ¬ ev.releases)
      idleWorld takeover := by
    refine Trans.Sys.along_of_forall ?_ _
    decide
  obtain ⟨w, hw, hc⟩ : ∃ w, (cluster (fun _ _ => []) (Fin 2)).exec idleWorld takeover = some w ∧
      w.check 1 0 = .ok () := ⟨_, rfl, rfl⟩
  have hr := Trans.Sys.reach_of_exec (.init idleWorld_initial) hrun hw
  exact ⟨w, hr, hc, no_two_active _ hr (by decide) 0 0⟩

theorem claims_disjoint_takeover : ∃ w e f r r' cfg,
    (cluster (fun _ _ => []) (Fin 2)).exec idleWorld takeover = some w ∧ Wrote w 0 e 0 r ∧
    Wrote w 1 f 1 r' ∧ r.pid ≠ r'.pid ∧ w.started[r.pid]? = some cfg ∧
    r.sent + (cfg.ttl - cfg.renew) ≤ f.time := by
  have hrun : (cluster (fun _ _ => []) (Fin 2)).Along (fun _ ev => ev.byInstances ∧ ¬ ev.releases)
      idleWorld takeover := by
    refine Trans.Sys.along_of_forall ?_ _
    decide
  have hw : ∃ w e f r r' cfg, (cluster (fun _ _ => []) (Fin 2)).exec idleWorld takeover = some w ∧
      Wrote w 0 e 0 r ∧ Wrote w 1 f 1 r' ∧ r.pid ≠ r'.pid ∧ w.started[r.pid]? = some cfg :=
    ⟨_, _, _, _, _, _, rfl, ⟨rfl, rfl⟩, ⟨rfl, rfl⟩, by decide, rfl⟩
  obtain ⟨w, e, f, r, r', cfg, hw, hu, hv, hne, hcfg⟩ := hw
  have hreach := Trans.Sys.reach_of_exec (.init idleWorld_initial) hrun hw
  exact ⟨w, e, f, r, r', cfg, hw, hu, hv, hne, hcfg,
    claims_disjoint _ hreach (by decide) hu hv hne hcfg⟩

end MongoRescue.HA.Proof
