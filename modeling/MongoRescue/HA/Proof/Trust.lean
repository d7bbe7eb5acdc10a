import MongoRescue.HA.Proof.History
import MongoRescue.Lib.Format

/-!
# Which leases a takeover trusts

Whoever writes the lease object without the key can only put leases there whose MACs it has seen:
on leases that the instances of this cluster signed, or those of other clusters with the same key.
`macInput_inj`: the authenticated text determines the cluster, epoch, holder and last snapshot of a
lease, whatever strings it holds, as long as the cluster's name is one. So a lease that is
authentic was signed as it is, but not necessarily by this cluster: the manager does not compare the
cluster that the MAC covers with its own. `predecessor_vouched_iff` is when it matters.
-/

namespace MongoRescue.HA.Proof

open Go (Bytes)
open Manager (Acquire Acquisition Renewal)

variable {ι : Type}

/-! ## The authenticated text -/

theorem nul_not_mem_cluster {name : String} (h : validateCluster name = .ok ()) :
    '\x00' ∉ name.toList := by
  unfold validateCluster at h
  split at h
  · cases h
  · rename_i c cs hname
    split at h
    · rename_i hok
      simp only [Bool.and_eq_true, List.all_eq_true] at hok
      obtain ⟨⟨hc, -⟩, hcs⟩ := hok
      rw [hname]
      intro hmem
      rcases List.mem_cons.mp hmem with rfl | hmem
      · exact absurd hc (by decide)
      · exact absurd (hcs _ hmem) (by decide)
    · cases h

theorem toList_toString_uint64 (n : UInt64) : (toString n).toList = Go.digits 0 n.toNat := by
  rw [show toString n = toString n.toNat from rfl, Nat.toString_eq_ofList_toDigits,
    String.toList_ofList]
  simp [Go.digits]

/-- How `macInput` writes the time of the last snapshot. -/
def macTime (t : Int) : String := if t = Go.zeroTime then "" else Go.rfc3339Nano t

theorem macTime_inj {t t' : Int} (h : macTime t = macTime t') : t = t' := by
  have hne : ∀ t, Go.rfc3339Nano t ≠ "" := by
    intro t ht
    have := congrArg String.toList ht
    rw [Go.toList_rfc3339Nano] at this
    simp at this
  unfold macTime at h
  split at h <;> split at h
  · omega
  · exact absurd h.symm (hne t')
  · exact absurd h (hne t)
  · exact Go.rfc3339Nano_inj h

theorem toList_macInput (l : Lease) : l.macInput.toList =
    "mongorescue-ha-lease/1\x00".toList ++ (l.cluster.toList ++ '\x00' ::
      (Go.digits 0 l.epoch.toNat ++ '\x00' :: (l.holder.toList ++ '\x00' ::
        (Go.digits 0 l.lastSnapshotEpoch.toNat ++ '\x00' :: (macTime l.lastSnapshotAt).toList)))) := by
  unfold Lease.macInput macTime
  simp only [String.toList_append, toList_toString_uint64, List.append_assoc]
  rfl

/-- **The MAC's text is unambiguous**: the holder may be any string, since what follows it is not. -/
theorem macInput_inj {l s : Lease} (hl : '\x00' ∉ l.cluster.toList) (hs : '\x00' ∉ s.cluster.toList)
    (h : l.macInput = s.macInput) : l.cluster = s.cluster ∧ l.epoch = s.epoch ∧
      l.holder = s.holder ∧ l.snapshotMark = s.snapshotMark := by
  have hchars := congrArg String.toList h
  rw [toList_macInput, toList_macInput] at hchars
  have hdigits : ∀ n, '\x00' ∉ Go.digits 0 n := fun n => Go.not_mem_digits (by decide)
  have htime : ∀ t, '\x00' ∉ (macTime t).toList := by
    intro t
    unfold macTime
    split
    · simp
    · exact Go.nul_not_mem_rfc3339Nano t
  obtain ⟨hcluster, hchars⟩ := Glob.append_separator_inj hl hs (List.append_cancel_left hchars)
  obtain ⟨hepoch, hchars⟩ := Glob.append_separator_inj (hdigits _) (hdigits _) hchars
  -- the last two fields are read from the end
  have hend : (l.holder.toList ++ '\x00' :: Go.digits 0 l.lastSnapshotEpoch.toNat) ++
      '\x00' :: (macTime l.lastSnapshotAt).toList =
      (s.holder.toList ++ '\x00' :: Go.digits 0 s.lastSnapshotEpoch.toNat) ++
        '\x00' :: (macTime s.lastSnapshotAt).toList := by
    simpa only [List.append_assoc, List.cons_append] using hchars
  obtain ⟨hend, hat⟩ := Go.append_last_inj (htime _) (htime _) hend
  obtain ⟨hholder, hlast⟩ := Go.append_last_inj (hdigits _) (hdigits _) hend
  refine ⟨String.toList_inj.mp hcluster, UInt64.toNat_inj.mp (Go.digits_inj hepoch),
    String.toList_inj.mp hholder, ?_⟩
  rw [Lease.snapshotMark, Lease.snapshotMark, macTime_inj (String.toList_inj.mp hat),
    UInt64.toNat_inj.mp (Go.digits_inj hlast)]

/-! ## What has been signed -/

section
variable (hmac : Bytes → String → Bytes) (key : Bytes)

/-- An instance signed the lease and sent it to the store. -/
def Signed (w : World ι) (s : Lease) : Prop :=
  ∃ r ∈ w.net, r.data = .json s ∧ s.authentic hmac key

/-- The cluster, epoch, holder and last snapshot of `l` are those of a lease an instance signed. -/
def Vouched (w : World ι) (l : Lease) : Prop :=
  ∃ s, Signed hmac key w s ∧ l.cluster = s.cluster ∧ l.epoch = s.epoch ∧ l.holder = s.holder ∧
    l.snapshotMark = s.snapshotMark

/-- The content carries no valid MAC but one of a lease that the instances signed, or of a `foreign`
lease. -/
def Seen (foreign : Lease → Prop) (w : World ι) (d : Content) : Prop :=
  ∀ l, d = .json l → l.authentic hmac key → ∃ s, (Signed hmac key w s ∨ foreign s) ∧
    Go.hexDecode l.mac = some (s.leaseMAC hmac key)

/-- The runs of a cluster whose lease object others write without the key: every instance is one of
`name` with the key, and what is written by hand carries only MACs that were seen. -/
def Unforged (name : String) (foreign : Lease → Prop) (w : World ι) : Event ι → Prop
  | .start _ cfg _ => cfg.cluster = name ∧ cfg.macKey = some key
  | .writeByHand d => Seen hmac key foreign w d
  | _ => True

end

section
variable {hmac : Bytes → String → Bytes} {key : Bytes} {name : String} {foreign : Lease → Prop}

theorem Signed.mono {w w' : World ι} (hx : Ext w w') {s : Lease} (h : Signed hmac key w s) :
    Signed hmac key w' s := by
  obtain ⟨r, hr, hrest⟩ := h
  exact ⟨r, hx.net.subset hr, hrest⟩

theorem Seen.mono {w w' : World ι} (hx : Ext w w') {d : Content}
    (h : Seen hmac key foreign w d) : Seen hmac key foreign w' d := by
  intro l hl ha
  obtain ⟨s, hs, hmac⟩ := h l hl ha
  exact ⟨s, hs.imp_left (.mono hx), hmac⟩

theorem authentic_mac {l : Lease} (h : l.authentic hmac key) :
    Go.hexDecode l.mac = some (l.leaseMAC hmac key) := by
  unfold Lease.authentic at h
  split at h
  · cases h
  · rename_i mac hmac
    simp only [Bool.and_eq_true, decide_eq_true_eq] at h
    rw [hmac, h.2]

variable {w : World ι}

/-- What an instance sends it has signed, if it is signed at all. -/
theorem seen_of_mem {r : Request} (hr : r ∈ w.net) :
    Seen hmac key foreign w r.data := fun l hl ha =>
  ⟨l, .inl ⟨r, hr, hl, ha⟩, authentic_mac ha⟩

/-- **An authentic lease was signed as it is**, under its own cluster's name. -/
theorem vouched_of_seen {l : Lease} (hinj : ∀ x y, hmac key x = hmac key y → x = y)
    (hforeign : ∀ s, foreign s → validateCluster s.cluster = .ok () ∧ s.cluster ≠ name)
    (hname : validateCluster name = .ok ()) (hnet : ∀ s, Signed hmac key w s → s.cluster = name)
    (hl : Seen hmac key foreign w (.json l)) (ha : l.authentic hmac key) (hc : l.cluster = name) :
    Vouched hmac key w l := by
  obtain ⟨s, hs, hmac⟩ := hl l rfl ha
  rw [authentic_mac ha, Option.some.injEq] at hmac
  have hvalid : validateCluster s.cluster = .ok () := by
    rcases hs with hs | hs
    · rw [hnet s hs]
      exact hname
    · exact (hforeign s hs).1
  obtain ⟨hcluster, hrest⟩ := macInput_inj (nul_not_mem_cluster (hc ▸ hname))
    (nul_not_mem_cluster hvalid) (hinj _ _ hmac)
  rcases hs with hs | hs
  · exact ⟨s, hs, hcluster, hrest⟩
  · exact absurd (hcluster.symm.trans hc) (hforeign s hs).2

/-! ## The invariant -/

section
variable (hmac key name foreign)

/-- A predecessor that is trusted is an authentic lease whose MAC was seen. -/
def PredOk (w : World ι) (pred : Predecessor) : Prop :=
  pred.trust = .authentic →
    pred.lease.authentic hmac key ∧ Seen hmac key foreign w (.json pred.lease)

structure MgrTrusts (w : World ι) (m : Manager) : Prop where
  cluster : m.cfg.cluster = name
  macKey : m.cfg.macKey = some key
  held : m.role = .active → m.lease.cluster = name ∧ PredOk hmac key foreign w m.pred

def PcTrusts (w : World ι) : Pc → Prop
  | .reading (some (.found d _)) => Seen hmac key foreign w d
  | .flooring a => ∀ d v, a.prev = some (d, v) → Seen hmac key foreign w d
  | .acquiring _ a => a.next.cluster = name ∧ PredOk hmac key foreign w a.pred
  | .renewing _ r _ => r.next.cluster = name
  | .releasing _ next => next.cluster = name
  | _ => True

structure Trusts (w : World ι) : Prop where
  net : ∀ r ∈ w.net, ∀ s, r.data = .json s → s.cluster = name
  obj : ∀ d v, w.obj = some (d, v) → Seen hmac key foreign w d
  mgr : ∀ i p, w.procs i = some p → MgrTrusts hmac key name foreign w p.mgr
  pc : ∀ i p, w.procs i = some p → PcTrusts hmac key name foreign w p.pc

/-- A piece of an operation keeps to the leases that were seen, and signs for its own cluster. -/
structure PieceTrusts (w : World ι) (q : Piece) : Prop where
  mgr : MgrTrusts hmac key name foreign w q.mgr
  req : ∀ cond l, q.write = some (cond, .json l) → l.cluster = name
  pc : ∀ n, PcTrusts hmac key name foreign w (q.pc n)

end

theorem PredOk.mono {w w' : World ι} (hx : Ext w w') {pred : Predecessor}
    (h : PredOk hmac key foreign w pred) : PredOk hmac key foreign w' pred := fun ht =>
  ⟨(h ht).1, (h ht).2.mono hx⟩

variable {m : Manager}

theorem MgrTrusts.mono {w w' : World ι} (hx : Ext w w')
    (h : MgrTrusts hmac key name foreign w m) : MgrTrusts hmac key name foreign w' m :=
  ⟨h.cluster, h.macKey, fun hr => ⟨(h.held hr).1, (h.held hr).2.mono hx⟩⟩

theorem PcTrusts.mono {w w' : World ι} (hx : Ext w w') {pc : Pc}
    (h : PcTrusts hmac key name foreign w pc) : PcTrusts hmac key name foreign w' pc := by
  cases pc with
  | reading ans =>
    rcases ans with _ | ans
    · trivial
    cases ans with
    | found d v => exact Seen.mono hx h
    | notFound => trivial
    | failed => trivial
  | flooring a => exact fun d v hp => (h d v hp).mono hx
  | acquiring rid a => exact ⟨h.1, h.2.mono hx⟩
  | renewing rid r after => exact h
  | releasing rid next => exact h
  | idle => trivial
  | leaving => trivial

theorem MgrTrusts.sameOrStepped {m m' : Manager}
    (h : MgrTrusts hmac key name foreign w m) (hs : Same m m' ∨ Stepped m m') :
    MgrTrusts hmac key name foreign w m' := by
  rcases hs with hs | hs
  · refine ⟨hs.cfg ▸ h.cluster, hs.cfg ▸ h.macKey, fun hr => ?_⟩
    rw [hs.cluster, hs.pred]
    exact h.held (hs.role ▸ hr)
  · refine ⟨hs.cfg ▸ h.cluster, hs.cfg ▸ h.macKey, fun hr => ?_⟩
    rw [hs.role] at hr
    cases hr

theorem MgrTrusts.same {m m' : Manager} (h : MgrTrusts hmac key name foreign w m)
    (hs : Same m m') : MgrTrusts hmac key name foreign w m' :=
  h.sameOrStepped (.inl hs)

theorem pieceTrusts_idle (h : MgrTrusts hmac key name foreign w m) :
    PieceTrusts hmac key name foreign w { mgr := m } :=
  ⟨h, fun _ _ hw => (by cases hw), fun _ => trivial⟩

/-! ## Pieces -/

theorem renewPiece_trusts (h : MgrTrusts hmac key name foreign w m)
    (hr : m.role = .active) (after : After) (c : Clocks) :
    PieceTrusts hmac key name foreign w (renewPiece hmac m after c) := by
  unfold renewPiece
  rcases renewSend_spec hmac m c with ⟨m', he, hm'⟩ | ⟨r, mac, he, -, hc, -⟩
  · rw [he]
    exact pieceTrusts_idle ((h.sameOrStepped hm').same (afterRenew_same _ _ _))
  · rw [he]
    refine ⟨h, fun cond l hw => ?_, fun _ => hc.trans (h.held hr).1⟩
    cases hw
    exact hc.trans (h.held hr).1

theorem releasePiece_trusts (h : MgrTrusts hmac key name foreign w m)
    (c : Clocks) : PieceTrusts hmac key name foreign w (releasePiece hmac m c) := by
  unfold releasePiece
  rcases he : m.releaseSend hmac c with _ | ⟨next, data⟩
  · exact pieceTrusts_idle (h.sameOrStepped (stepDown_spec (.refl m) _ _))
  · obtain ⟨mac, rfl, hr, hc, -⟩ := releaseSend_spec he
    refine ⟨h, fun cond l hw => ?_, fun _ => hc.trans (h.held hr).1⟩
    cases hw
    exact hc.trans (h.held hr).1

theorem callPiece_trusts (h : MgrTrusts hmac key name foreign w m)
    (op : Op) (c : Clocks) : PieceTrusts hmac key name foreign w (callPiece hmac m op c) := by
  cases op with
  | step =>
    simp only [callPiece]
    split
    · rename_i hr
      exact renewPiece_trusts h hr _ _
    · exact ⟨h, fun _ _ hw => (by cases hw), fun _ => trivial⟩
  | confirm mark =>
    simp only [callPiece]
    split
    · exact pieceTrusts_idle h
    · rename_i m' hm'
      obtain ⟨hr, hs⟩ := confirmBegin_spec hm'
      exact renewPiece_trusts (h.same hs) hr _ _
  | recordSnapshot mark =>
    simp only [callPiece]
    split
    · exact pieceTrusts_idle h
    · rename_i m' hm'
      obtain ⟨hr, hs⟩ := recordBegin_spec hm'
      exact renewPiece_trusts (h.same hs) hr _ _
  | stepDown release =>
    cases release with
    | false => exact pieceTrusts_idle (h.sameOrStepped (stepDown_spec (.refl m) _ _))
    | true => exact releasePiece_trusts h c
  | release => exact releasePiece_trusts h c

theorem readPiece_trusts (ans : ReadAnswer) (h : MgrTrusts hmac key name foreign w m)
    (hans : PcTrusts hmac key name foreign w (.reading (some ans))) (c : Clocks) :
    PieceTrusts hmac key name foreign w (readPiece hmac m ans c) := by
  cases ans with
  | notFound =>
    have hm : MgrTrusts hmac key name foreign w
        { m with healthy := true, lastErr := none, seen := {}, seenVersion := none } :=
      ⟨h.cluster, h.macKey, h.held⟩
    simp only [readPiece, Manager.observeAnswer]
    by_cases hcool : c.now < m.cooldownUntil
    · simp only [hcool, if_true]
      exact pieceTrusts_idle hm
    · simp only [hcool, if_false]
      exact ⟨hm, fun _ _ hw => (by cases hw), fun _ d v hp => (by cases hp)⟩
  | failed => exact pieceTrusts_idle (h.same (recordError_same _ _))
  | found d v =>
    obtain ⟨m', acq, he, hobs, hacq⟩ := observeFound_spec hmac m d v c.now
    have hm : MgrTrusts hmac key name foreign w m' := by
      refine ⟨hobs.cfg ▸ h.cluster, hobs.cfg ▸ h.macKey, ?_⟩
      rw [hobs.role, hobs.lease, hobs.pred]
      exact h.held
    simp only [readPiece, Manager.observeAnswer, he]
    cases acq with
    | none => exact pieceTrusts_idle hm
    | some a =>
      refine ⟨hm, fun _ _ hw => (by cases hw), fun _ d' v' hp => ?_⟩
      rw [(hacq a rfl).1, Option.some.injEq, Prod.mk.injEq] at hp
      exact hp.1 ▸ hans

theorem assess_authentic {prev : Option Content} (hk : m.cfg.macKey = some key)
    (h : (m.assess hmac prev).trust = .authentic) :
    ∃ l, prev = some (.json l) ∧ (m.assess hmac prev).lease = l ∧ l.authentic hmac key := by
  rcases prev with _ | d
  · cases h
  rcases d with l | b
  · simp only [Manager.assess, decodeLease, Manager.authentic, hk] at h ⊢
    refine ⟨l, rfl, ?_⟩
    split at h
    · cases h
    · split at h
      · cases h
      · rename_i h1 h2
        simp only [h2]
        simpa using h2
  · cases h

theorem floorPiece_trusts {a : Acquire} (h : MgrTrusts hmac key name foreign w m)
    (ha : PcTrusts hmac key name foreign w (.flooring a)) (ans : FloorAnswer) (c : Clocks) :
    PieceTrusts hmac key name foreign w (floorPiece hmac m a ans c) := by
  unfold floorPiece
  rcases acquireSend_spec hmac m a ans c with ⟨m', he, hm'⟩ | ⟨acq, mac, he, hq⟩
  · rw [he]
    exact pieceTrusts_idle (h.same hm')
  · rw [he]
    have hcluster : acq.next.cluster = name := hq.nextCluster.trans h.cluster
    refine ⟨h, fun cond l hw => ?_, fun _ => ⟨hcluster, fun ht => ?_⟩⟩
    · simp only [Option.some.injEq, Prod.mk.injEq, Content.json.injEq] at hw
      obtain ⟨-, rfl⟩ := hw
      exact hcluster
    · rw [hq.pred] at ht ⊢
      obtain ⟨l, hprev, hl, hauth⟩ := assess_authentic h.macKey ht
      rw [hl]
      rcases hp : a.prev with _ | ⟨d, v⟩
      · simp [hp] at hprev
      · rw [hp, Option.map_some, Option.some.injEq] at hprev
        exact ⟨hauth, hprev ▸ ha d v hp⟩

theorem writePiece_trusts {pc : Pc} {ans : WriteAnswer} {c : Clocks}
    {q : Piece} (h : MgrTrusts hmac key name foreign w m)
    (hpc : PcTrusts hmac key name foreign w pc) (hq : writePiece hmac m pc ans c = some q) :
    PieceTrusts hmac key name foreign w q := by
  cases pc with
  | acquiring rid a =>
    cases hq
    refine pieceTrusts_idle ?_
    rcases acquireAnswer_spec hmac m a ans with ⟨v, -, hh, hpred, -⟩ | hs
    · refine ⟨hh.cfg ▸ h.cluster, hh.cfg ▸ h.macKey, fun _ => ?_⟩
      rw [hh.lease, hpred]
      exact hpc
    · exact h.same hs
  | renewing rid r after =>
    cases hq
    refine pieceTrusts_idle (MgrTrusts.same ?_ (afterRenew_same _ _ _))
    rcases renewAnswer_spec m r ans c with ⟨v, -, hh, hrole, hpred, -⟩ | hs
    · refine ⟨hh.cfg ▸ h.cluster, hh.cfg ▸ h.macKey, fun hr => ?_⟩
      rw [hh.lease, hpred]
      exact ⟨hpc, (h.held (hrole ▸ hr)).2⟩
    · exact h.sameOrStepped hs
  | releasing rid next =>
    cases hq
    rcases releaseAnswer_spec m next ans c with ⟨v, -, he⟩ | hs
    · rw [he]
      exact ⟨⟨h.cluster, h.macKey, fun hr => ⟨hpc, (h.held hr).2⟩⟩, fun _ _ hw => (by cases hw),
        fun _ => trivial⟩
    · exact ⟨h.same hs, fun _ _ hw => (by cases hw), fun _ => trivial⟩
  | idle => cases hq
  | reading s => cases hq
  | flooring a => cases hq
  | leaving => cases hq

/-! ## Runs -/

section
variable [DecidableEq ι]

/-- A step that leaves the object alone and replaces the process of `i`. -/
theorem Trusts.update {w w' : World ι} (h : Trusts hmac key name foreign w) (hx : Ext w w')
    (ho : w'.obj = w.obj) {i : ι} {p' : Option Proc} (hp : w'.procs = Function.update w.procs i p')
    (hn : ∀ r ∈ w'.net, r ∈ w.net ∨ ∀ s, r.data = .json s → s.cluster = name)
    (hok : ∀ p, p' = some p →
      MgrTrusts hmac key name foreign w p.mgr ∧ PcTrusts hmac key name foreign w p.pc) :
    Trusts hmac key name foreign w' where
  net := fun r hr => (hn r hr).elim (h.net r) id
  obj := fun d v hd => (h.obj d v (ho ▸ hd)).mono hx
  mgr := fun j p hj => by
    rcases update_procs (hp ▸ hj) with ⟨-, hp'⟩ | ⟨-, hj⟩
    · exact (hok p hp').1.mono hx
    · exact (h.mgr j p hj).mono hx
  pc := fun j p hj => by
    rcases update_procs (hp ▸ hj) with ⟨-, hp'⟩ | ⟨-, hj⟩
    · exact (hok p hp').2.mono hx
    · exact (h.pc j p hj).mono hx

theorem Trusts.proceed {w : World ι} (h : Trusts hmac key name foreign w) {i : ι} {p : Proc}
    {q : Piece} (hq : PieceTrusts hmac key name foreign w q) :
    Trusts hmac key name foreign (w.proceed i p q) := by
  refine h.update (proceed_ext w i p q) rfl rfl (fun r hr => ?_) fun p' hp' => ?_
  · refine (mem_proceed_net hr).imp_right ?_
    rintro ⟨cond, data, hw, rfl⟩ l rfl
    exact hq.req cond l hw
  · cases hp'
    exact ⟨hq.mgr, hq.pc _⟩

theorem Trusts.step {w w' : World ι} {ev : Event ι} (h : Trusts hmac key name foreign w)
    (hev : Unforged hmac key name foreign w ev) (hs : w.step hmac ev = some w') :
    Trusts hmac key name foreign w' := by
  cases step_cases hs with
  | tick d =>
    have hx : Ext w { w with time := w.time + d } :=
      ⟨by dsimp only; omega, List.prefix_rfl, List.prefix_rfl, List.prefix_rfl⟩
    exact ⟨h.net, fun d v hd => (h.obj d v hd).mono hx, fun i p hp => (h.mgr i p hp).mono hx,
      fun i p hp => (h.pc i p hp).mono hx⟩
  | start i cfg off hv =>
    refine h.update (i := i) ⟨le_rfl, List.prefix_rfl, List.prefix_rfl, List.prefix_append _ _⟩ rfl
      rfl (fun r hr => .inl hr) fun p hp => ?_
    cases hp
    exact ⟨⟨hev.1, hev.2, fun hr => (by cases hr)⟩, trivial⟩
  | crash i =>
    exact h.update (i := i) ⟨le_rfl, List.prefix_rfl, List.prefix_rfl, List.prefix_rfl⟩ rfl rfl
      (fun r hr => .inl hr) fun p hp => (by cases hp)
  | call i op env p hp hpc => exact h.proceed (callPiece_trusts (h.mgr i p hp) _ _)
  | serve i p hp hpc =>
    refine h.update (i := i) ⟨le_rfl, List.prefix_rfl, List.prefix_rfl, List.prefix_rfl⟩ rfl rfl
      (fun r hr => .inl hr) fun p' hp' => ?_
    cases hp'
    refine ⟨h.mgr i p hp, ?_⟩
    unfold World.read
    rcases ho : w.obj with _ | ⟨d, v⟩
    · trivial
    · exact h.obj d v ho
  | readFailed i env p hp => exact h.proceed (readPiece_trusts .failed (h.mgr i p hp) trivial _)
  | readReturn i env p ans hp hpc =>
    exact h.proceed (readPiece_trusts ans (h.mgr i p hp) (hpc ▸ h.pc i p hp) _)
  | floorReturn i ans env p a hp hpc hset =>
    exact h.proceed (floorPiece_trusts (h.mgr i p hp) (hpc ▸ h.pc i p hp) _ _)
  | commit rid r hn hh =>
    have hx := write_ext w (some (rid, r)) r.data
    refine ⟨h.net, fun d v hd => ?_, fun i p hp => (h.mgr i p hp).mono hx,
      fun i p hp => (h.pc i p hp).mono hx⟩
    cases hd
    exact (seen_of_mem (List.mem_of_getElem? hn)).mono hx
  | writeReturn i out env p rid ans q hp hrid hans hq =>
    exact h.proceed (writePiece_trusts (h.mgr i p hp) (h.pc i p hp) hq)
  | leave i env p hp hpc =>
    exact h.proceed (pieceTrusts_idle
      ((h.mgr i p hp).sameOrStepped (stepDown_spec (.refl p.mgr) _ _)))
  | deleteByHand =>
    have hx : Ext w { w with obj := none } :=
      ⟨le_rfl, List.prefix_rfl, List.prefix_rfl, List.prefix_rfl⟩
    exact ⟨h.net, fun d v hd => (by cases hd), fun i p hp => (h.mgr i p hp).mono hx,
      fun i p hp => (h.pc i p hp).mono hx⟩
  | writeByHand d =>
    have hx := write_ext w none d
    refine ⟨h.net, fun d' v hd => ?_, fun i p hp => (h.mgr i p hp).mono hx,
      fun i p hp => (h.pc i p hp).mono hx⟩
    cases hd
    exact Seen.mono hx hev

theorem trusts_of_unforged {w : World ι}
    (h : (cluster hmac ι).Reach (Unforged hmac key name foreign) w) :
    Trusts hmac key name foreign w := by
  refine h.inv (fun w h0 => ?_) fun _ _ _ hI hok hs => hI.step hok hs
  obtain ⟨hp, ho, hn, -⟩ := h0
  exact ⟨by simp [hn], by simp [ho], by simp [hp], by simp [hp]⟩

/-- **A takeover trusts a lease of its own cluster only if it names the cluster**: nothing else does
the manager ask of an authentic lease. Whatever was put at the key without computing a MAC, the
replaced lease says what an instance of the cluster signed if and only if it names the cluster. -/
theorem predecessor_vouched_iff (hinj : ∀ x y, hmac key x = hmac key y → x = y)
    (hforeign : ∀ s, foreign s → validateCluster s.cluster = .ok () ∧ s.cluster ≠ name)
    {w : World ι} (h : (cluster hmac ι).Reach (Unforged hmac key name foreign) w) {i : ι} {p : Proc}
    (hp : w.procs i = some p) (hr : p.mgr.role = .active) (ht : p.mgr.pred.trust = .authentic) :
    Vouched hmac key w p.mgr.pred.lease ↔ p.mgr.pred.lease.cluster = name := by
  have hinv := trusts_of_unforged h
  have hnet : ∀ s, Signed hmac key w s → s.cluster = name := by
    rintro s ⟨r, hr, hs, -⟩
    exact hinv.net r hr s hs
  have hm := hinv.mgr i p hp
  obtain ⟨ha, hseen⟩ := (hm.held hr).2 ht
  refine ⟨?_, vouched_of_seen hinj hforeign ?_ hnet hseen ha⟩
  · rintro ⟨s, hs, hc, -⟩
    exact hc.trans (hnet s hs)
  · rw [← hm.cluster]
    exact (validate_ok p.mgr.valid).2.1

end

end

/-! ## A key shared by two clusters -/

/-- A MAC without collisions: the text itself, three bytes a character. -/
def spelled (_ : Bytes) (text : String) : Bytes :=
  text.toList.flatMap fun c =>
    [UInt8.ofNat (c.toNat / 65536), UInt8.ofNat (c.toNat / 256), UInt8.ofNat c.toNat]

theorem toNat_lt_max (c : Char) : c.toNat < 1114112 := by
  have h := c.valid
  simp only [UInt32.isValidChar, Nat.isValidChar] at h
  have : c.toNat = c.val.toNat := rfl
  omega

theorem spelled_inj (key : Bytes) {x y : String} (h : spelled key x = spelled key y) : x = y := by
  unfold spelled at h
  refine String.toList_inj.mp ?_
  generalize x.toList = l at h ⊢
  generalize y.toList = l' at h ⊢
  induction l generalizing l' with
  | nil =>
    cases l' with
    | nil => rfl
    | cons d l' => simp at h
  | cons c l ih =>
    cases l' with
    | nil => simp at h
    | cons d l' =>
      simp only [List.flatMap_cons, List.cons_append, List.nil_append, List.cons.injEq] at h
      obtain ⟨h1, h2, h3, h⟩ := h
      have hcd : c = d := by
        refine Char.toNat_inj.mp ?_
        have hc := toNat_lt_max c
        have hd := toNat_lt_max d
        simp only [← UInt8.toNat_inj, UInt8.toNat_ofNat'] at h1 h2 h3
        omega
      rw [hcd, ih l' h]

/-- An instance of the cluster `c`, under a key that other clusters have, too. -/
def sharing (id : String) : Config :=
  { cluster := "c", instanceID := id, macKey := some [], ttl := 30 * Go.second
    renew := 10 * Go.second }

/-- An instance signs its lease and releases it, and another acquires it. -/
def signing : List (Event (Fin 2)) :=
  let env : Env := ⟨0, 0, 0⟩
  [.start instA (sharing "a") 0, .start instB (sharing "b") 0] ++ acquires instA 0 ++
    [.call instA (.confirm {}) env, .commit 1, .writeReturn instA .ok env, .call instA .release env,
      .commit 2, .writeReturn instA .ok env, .leave instA env] ++ acquires instB 3

/-- Instance `i` is active and trusts the lease it replaced, which names the cluster `name`. -/
def tookFrom (i : Fin 2) (name : String) (w : World (Fin 2)) : Bool :=
  (w.procs i).any fun p => decide (p.mgr.role = .active ∧ p.mgr.pred.trust = .authentic ∧
    p.mgr.pred.lease.cluster = name)

theorem tookFrom_spec {i : Fin 2} {name : String} {w : World (Fin 2)} (h : tookFrom i name w) :
    ∃ p, w.procs i = some p ∧ p.mgr.role = .active ∧ p.mgr.pred.trust = .authentic ∧
      p.mgr.pred.lease.cluster = name := by
  rw [tookFrom, Option.any_eq_true] at h
  obtain ⟨p, hp, ht⟩ := h
  exact ⟨p, hp, of_decide_eq_true ht⟩

theorem predecessor_vouched_signed : ∃ (w : World (Fin 2)) (p : Proc),
      (cluster spelled (Fin 2)).Reach (Unforged spelled [] "c" fun _ => False) w ∧
      w.procs 1 = some p ∧ p.mgr.role = .active ∧ p.mgr.pred.trust = .authentic ∧
      Vouched spelled [] w p.mgr.pred.lease := by
  have hrun : (cluster spelled (Fin 2)).Along (Unforged spelled [] "c" fun _ => False) idleWorld
      signing := by
    refine Trans.Sys.along_of_all ?_ _
    simp [signing, acquires, Unforged, sharing]
  obtain ⟨w, hw, ht⟩ := Trans.Sys.exists_exec (M := cluster spelled (Fin 2)) idleWorld signing
    (tookFrom 1 "c") (by decide +kernel)
  obtain ⟨p, hp, hr, htrust, hc⟩ := tookFrom_spec ht
  have hreach := Trans.Sys.reach_of_exec (.init idleWorld_initial) hrun hw
  exact ⟨w, p, hreach, hp, hr, htrust, (predecessor_vouched_iff (fun _ _ => spelled_inj [])
    (fun _ hf => hf.elim) hreach hp hr htrust).mpr hc⟩

/-- The lease of an instance of the cluster `d`. -/
def ofOtherCluster : Lease :=
  ({ cluster := "d", epoch := 7, ttlSeconds := 30 } : Lease).sign spelled []

/-- It is put at the key of the cluster `c`, and an instance acquires it. -/
def copying : List (Event (Fin 2)) :=
  [.start instA (sharing "a") 0, .writeByHand (.json ofOtherCluster)] ++ acquires instA 0

theorem other_cluster_trusted :
    ∃ (w : World (Fin 2)) (p : Proc), validateCluster ofOtherCluster.cluster = .ok () ∧
      (cluster spelled (Fin 2)).Reach (Unforged spelled [] "c" (· = ofOtherCluster)) w ∧
      w.procs 0 = some p ∧ p.mgr.role = .active ∧ p.mgr.pred.trust = .authentic ∧
      p.mgr.pred.lease.cluster = "d" ∧ ¬ Vouched spelled [] w p.mgr.pred.lease := by
  have hseen : ∀ w : World (Fin 2), Unforged spelled [] "c" (· = ofOtherCluster) w
      (.writeByHand (.json ofOtherCluster)) := by
    intro w l hl ha
    cases hl
    exact ⟨_, .inr rfl, authentic_mac ha⟩
  have hrun : (cluster spelled (Fin 2)).Along (Unforged spelled [] "c" (· = ofOtherCluster))
      idleWorld copying := by
    refine ⟨⟨rfl, rfl⟩, fun w _ => ⟨hseen w, fun w' _ => Trans.Sys.along_of_all ?_ w'⟩⟩
    simp [acquires, Unforged]
  obtain ⟨w, hw, ht⟩ := Trans.Sys.exists_exec (M := cluster spelled (Fin 2)) idleWorld copying
    (tookFrom 0 "d") (by decide +kernel)
  obtain ⟨p, hp, hr, htrust, hc⟩ := tookFrom_spec ht
  have hreach := Trans.Sys.reach_of_exec (.init idleWorld_initial) hrun hw
  refine ⟨w, p, rfl, hreach, hp, hr, htrust, hc, ?_⟩
  rintro ⟨s, ⟨r, hr, hs, -⟩, hcs, -⟩
  have := (trusts_of_unforged hreach).net r hr s hs
  rw [← hcs, hc] at this
  exact absurd this (by decide)

end MongoRescue.HA.Proof
