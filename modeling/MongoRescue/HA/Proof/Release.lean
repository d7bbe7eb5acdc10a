import MongoRescue.HA.Proof.Mutex

/-!
# Giving the lease up

`Release` and `StepDown` with release write the lease without a holder while the instance is still
active, and change its role after the store has answered. Until then the instance passes the
fencing check although the lease is free for the taking. `HandedOver` says that this does not
happen; `handed_over_iff` is when: exactly while every step `Yields`. An instance whose renew interval
is not below its TTL never passes the check (`ValidateTiming` lets one through whose double overflows).
-/

namespace MongoRescue.HA.Proof

open Go (Bytes)

variable {ι : Type}

/-- The process has committed the lease without a holder, and holds no newer version. -/
def GaveUp (w : World ι) (p : Proc) : Prop :=
  ∃ v, ReleasedBy w v p.pid ∧ ∀ u : Nat, p.mgr.version = some u → u ≤ v

/-- **A released lease is given up before it can be taken**: an instance that gave the lease up
fails the fencing check until it acquires a new one, and no two instances pass it at once. -/
structure HandedOver (w : World ι) : Prop where
  givenUp : ∀ i p wall, w.procs i = some p → GaveUp w p → w.check i wall ≠ .ok ()
  exclusive : ∀ i j wallI wallJ, i ≠ j →
    ¬ (w.check i wallI = .ok () ∧ w.check j wallJ = .ok ())

theorem Inv.handedOver {w : World ι} (h : Inv w) : HandedOver w where
  givenUp := by
    rintro i p wall hp ⟨v, hrel, hle⟩ hc
    obtain ⟨q, hq, hr, hd⟩ := check_ok hc
    obtain rfl : p = q := Option.some.inj (hp.symm.trans hq)
    rcases (h.procs i p hp).retired v hrel hr with ⟨u, hu, hlt⟩ | hover
    · have := hle u hu
      omega
    · omega
  exclusive := fun _ _ wallI wallJ hij => h.exclusive hij wallI wallJ

/-! ## Where it fails -/

/-- A release that takes effect while its sender passes the check is seen at once. -/
theorem not_handedOver_commit {w : World ι} (h : Inv w) {rid : Nat} {r : Request} {l : Lease}
    (hl : r.data = .json l) (hnil : l.holder = "") {i : ι} {p : Proc} {wall : Int}
    (hp : w.procs i = some p) (hpid : p.pid = r.pid) (hc : w.check i wall = .ok ()) :
    ¬ HandedOver (w.write (some (rid, r)) r.data) := by
  intro hd
  obtain ⟨q, hq, hr, -⟩ := check_ok hc
  obtain rfl : p = q := Option.some.inj (hp.symm.trans hq)
  obtain ⟨_, v, e, _, _, hv, hw, _⟩ := (h.procs i p hp).mgr.held hr
  refine hd.givenUp i p wall hp ⟨w.log.length, ?_, fun u hu => ?_⟩ hc
  · exact ⟨⟨some (rid, r), r.data, w.time⟩, rid, r, l, ⟨by simp [World.write], rfl⟩, hpid.symm, hl,
      hnil⟩
  · obtain rfl : v = u := Option.some.inj (hv.symm.trans hu)
    exact (List.getElem?_eq_some_iff.mp hw.log).1.le

section
variable [DecidableEq ι]

/-- The step answers an instance whose renew interval is not below its TTL. -/
def Barred (w : World ι) : Event ι → Prop
  | .writeReturn i .ok _ => ∃ p, w.procs i = some p ∧ p.mgr.cfg.ttl ≤ p.mgr.cfg.renew
  | _ => False

/-- A release answered with success moves the deadline of an instance that is still active. -/
theorem not_handedOver_answer {w : World ι} (h : Inv w) {i : ι} {p : Proc} {rid v : Nat}
    {next : Lease} (env : Env) (hp : w.procs i = some p) (hpc : p.pc = .releasing rid next)
    (hv : w.written rid = some v) (hlt : p.mgr.cfg.renew < p.mgr.cfg.ttl) :
    ¬ HandedOver (w.proceed i p
      { mgr := p.mgr.releaseAnswer next (.ok v) (w.clocks p env), pc := fun _ => .leaving }) := by
  intro hd
  have hok := (h.procs i p hp).pc
  rw [hpc] at hok
  obtain ⟨hr, r, l, hn, hpid, hl, hnil⟩ := hok
  obtain ⟨e, r', hw⟩ := written_spec hv
  obtain ⟨hn', -, hdata, -⟩ := h.hist.wrote hw
  obtain rfl : r' = r := Option.some.inj (hn'.symm.trans hn)
  have hproc : (w.proceed i p
      { mgr := p.mgr.releaseAnswer next (.ok v) (w.clocks p env), pc := fun _ => .leaving }).procs i =
        some { p with mgr := p.mgr.releaseAnswer next (.ok v) (w.clocks p env), pc := .leaving } := by
    simp [World.proceed]
  refine hd.givenUp i _ _ hproc ⟨v, ?_, fun u hu => ?_⟩ (check_of_claim hproc hr le_rfl ?_)
  · exact ⟨e, rid, r', l, ⟨hw.log, hw.source⟩, hpid, hdata.trans hl, hnil⟩
  · exact le_of_eq (Option.some.inj hu).symm
  · simp only [World.proceed, Manager.deadline, Manager.releaseAnswer, World.clocks]
    omega

/-- An instance that never passes the check may be answered. -/
theorem handedOver_barred {w : World ι} (h : HandedOver w) {i : ι} {p : Proc} {v : Nat} {next : Lease}
    (env : Env) (hlt : p.mgr.cfg.ttl ≤ p.mgr.cfg.renew) : HandedOver (w.proceed i p
      { mgr := p.mgr.releaseAnswer next (.ok v) (w.clocks p env), pc := fun _ => .leaving }) := by
  generalize hw : w.proceed i p
    { mgr := p.mgr.releaseAnswer next (.ok v) (w.clocks p env), pc := fun _ => .leaving } = w'
  have hself : ∀ wall, w'.check i wall ≠ .ok () := by
    intro wall hc
    obtain ⟨q, hq, -, hd⟩ := check_ok hc
    subst hw
    simp only [World.proceed, Function.update_self, Option.some.injEq] at hq
    subst hq
    simp only [World.proceed, Manager.deadline, Manager.releaseAnswer, World.clocks] at hd
    omega
  have hother : ∀ {j}, j ≠ i → w'.procs j = w.procs j := by
    intro j hj
    subst hw
    exact Function.update_of_ne hj _ _
  have hcheck : ∀ {j}, j ≠ i → ∀ wall, w'.check j wall = w.check j wall := by
    intro j hj wall
    have htime : w'.time = w.time := by rw [← hw]; rfl
    rw [World.check, World.check, hother hj, htime]
  refine ⟨fun j q wall hq hgave => ?_, fun j k wallJ wallK hjk hc => ?_⟩
  · by_cases hj : j = i
    · exact hj ▸ hself wall
    · obtain ⟨u, hrel, hle⟩ := hgave
      rw [hcheck hj]
      exact h.givenUp j q wall (hother hj ▸ hq) ⟨u, hrel.of_log (by rw [← hw]; rfl), hle⟩
  · by_cases hj : j = i
    · exact hself wallJ (hj ▸ hc.1)
    · by_cases hk : k = i
      · exact hself wallK (hk ▸ hc.2)
      · rw [hcheck hj, hcheck hk] at hc
        exact h.exclusive j k wallJ wallK hjk hc

/-- **Exactly the steps that yield keep the lease handed over**: in every run of yielding steps the
property holds, and the next step keeps it if and only if it yields, too, or answers an instance that
never passes the check. -/
theorem handed_over_iff (hmac : Bytes → String → Bytes) {w : World ι}
    (h : (cluster hmac ι).Reach (fun w ev => ev.byInstances ∧ Yields w ev) w) :
    HandedOver w ∧ ∀ ev w', ev.byInstances → w.step hmac ev = some w' →
      (HandedOver w' ↔ Yields w ev ∨ Barred w ev) := by
  have hinv := inv_of_yields h
  refine ⟨hinv.handedOver, fun ev w' hb hs => ?_⟩
  by_cases hy : Yields w ev
  · exact ⟨fun _ => .inl hy, fun _ => (hinv.step hb hy hs).handedOver⟩
  -- what is left is a release that takes effect, or that is answered
  cases step_cases hs with
  | commit rid r hn hh =>
    refine ⟨fun hd => absurd ?_ hy, fun hor => hor.elim (absurd · hy) False.elim⟩
    intro r' l hn' hl hnil i p wall hp hpid hc
    obtain rfl : r = r' := Option.some.inj (hn.symm.trans hn')
    exact not_handedOver_commit hinv hl hnil hp hpid hc hd
  | writeReturn i out env p rid ans q hp hrid hans hq =>
    cases out with
    | ok =>
      obtain ⟨next, hpc⟩ : ∃ next, p.pc = .releasing rid next := by
        simp only [Yields, not_forall, not_not, hp, Option.some.injEq] at hy
        obtain ⟨p', rid', next, rfl, hpc⟩ := hy
        rw [hpc] at hrid
        cases hrid
        exact ⟨next, hpc⟩
      simp only [World.answer, Option.map_eq_some_iff] at hans
      obtain ⟨v, hv, rfl⟩ := hans
      rw [hpc] at hq
      cases hq
      by_cases hlt : p.mgr.cfg.ttl ≤ p.mgr.cfg.renew
      · exact ⟨fun _ => .inr ⟨p, hp, hlt⟩, fun _ => handedOver_barred hinv.handedOver env hlt⟩
      · refine ⟨fun hd => absurd hd (not_handedOver_answer hinv env hp hpc hv (not_le.mp hlt)),
          fun hor => hor.elim (absurd · hy) fun hbar => ?_⟩
        obtain ⟨p', hp', hle⟩ := hbar
        obtain rfl : p = p' := Option.some.inj (hp.symm.trans hp')
        exact absurd hle hlt
    | preconditionFailed => exact absurd trivial hy
    | failed => exact absurd trivial hy
  | _ => exact absurd trivial hy

end

/-- A run of two instances: the first creates the lease. -/
def holding : List (Event (Fin 2)) :=
  let cfg (id : String) : Config :=
    { cluster := "c", instanceID := id, ttl := 30 * Go.second, renew := 10 * Go.second }
  [.start instA (cfg "a") 0, .start instB (cfg "b") 0] ++ acquires instA 0

/-- The first instance crashes before the release it sent takes effect. -/
theorem handed_over_crash :
    ∃ w, (cluster (fun _ _ => []) (Fin 2)).Reach (fun w ev => ev.byInstances ∧ Yields w ev) w ∧
      ReleasedBy w 1 0 ∧ HandedOver w := by
  have hrun : (cluster (fun _ _ => []) (Fin 2)).Along (fun _ ev => ev.byInstances ∧ ¬ ev.releases)
      idleWorld holding := by
    refine Trans.Sys.along_of_forall ?_ _
    decide
  obtain ⟨w₁, w₂, w₃, w₄, h₁, h₂, h₃, h₄, hp₀, hp₁, hnet, hlog⟩ : ∃ w₁ w₂ w₃ w₄,
      (cluster (fun _ _ => []) (Fin 2)).exec idleWorld holding = some w₁ ∧
      (cluster (fun _ _ => []) (Fin 2)).step w₁ (.call 0 .release ⟨0, 0, 0⟩) = some w₂ ∧
      (cluster (fun _ _ => []) (Fin 2)).step w₂ (.crash 0) = some w₃ ∧
      (cluster (fun _ _ => []) (Fin 2)).step w₃ (.commit 1) = some w₄ ∧ w₃.procs 0 = none ∧
      (w₃.procs 1).map (·.pid) = some 1 ∧ (w₃.net[1]?).map (·.pid) = some 0 ∧ ReleasedBy w₄ 1 0 :=
    ⟨_, _, _, _, rfl, rfl, rfl, rfl, rfl, rfl, rfl, _, _, _, _, ⟨rfl, rfl⟩, rfl, rfl, rfl⟩
  have hheld := (reach_yields (Trans.Sys.reach_of_exec (.init idleWorld_initial) hrun h₁)).1
  have hgone := (hheld.step (by exact ⟨rfl, trivial⟩) h₂).step (by exact ⟨rfl, trivial⟩) h₃
  have hyield : Yields w₃ (.commit 1) := by
    intro r l hr _ _ i p wall hp hpid
    rw [hr, Option.map_some, Option.some.injEq] at hnet
    rcases i.eq_zero_or_eq_succ with rfl | ⟨k, rfl⟩
    · rw [hp₀] at hp
      cases hp
    · obtain rfl : k = 0 := Subsingleton.elim _ _
      rw [show (Fin.succ 0 : Fin 2) = 1 from rfl] at hp
      rw [hp, Option.map_some, Option.some.injEq] at hp₁
      omega
  have hy := hgone.step ⟨rfl, hyield⟩ h₄
  exact ⟨w₄, hy, hlog, (handed_over_iff _ hy).1⟩

/-- The first instance releases the lease, and the second takes it. -/
def taking : List (Event (Fin 2)) :=
  [.call instA .release ⟨0, 0, 0⟩, .commit 1] ++ acquires instB 2

/-- The answer to the release is late: the lease was taken, and both instances pass the check. -/
theorem released_lease_shared :
    ∃ w, (cluster (fun _ _ => []) (Fin 2)).Reach (fun _ ev => ev.byInstances) w ∧
      w.check 0 0 = .ok () ∧ w.check 1 0 = .ok () ∧ ¬ HandedOver w := by
  have hrun : (cluster (fun _ _ => []) (Fin 2)).Along (fun _ ev => ev.byInstances) idleWorld
      (holding ++ taking) := by
    refine Trans.Sys.along_of_forall ?_ _
    decide
  obtain ⟨w, hw, h0, h1⟩ : ∃ w, (cluster (fun _ _ => []) (Fin 2)).exec idleWorld
      (holding ++ taking) = some w ∧ w.check 0 0 = .ok () ∧ w.check 1 0 = .ok () :=
    ⟨_, rfl, rfl, rfl⟩
  exact ⟨w, Trans.Sys.reach_of_exec (.init idleWorld_initial) hrun hw, h0, h1,
    fun hd => hd.exclusive 0 1 0 0 (by decide) ⟨h0, h1⟩⟩

end MongoRescue.HA.Proof
