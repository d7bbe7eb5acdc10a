import MongoRescue.HA.Proof.Pieces

/-!
# The history of the lease object

What one event of the cluster does (`step_cases`), and what every event does to the history of the
lease object: requests and commits are only added (`Ext`). `HistOk` is what timing makes of that
history when only the instances write the lease: every request on the network may replace the
version it expects (`Free`), since its sender wrote that version itself, or the version names no
holder, or the TTL of its lease had passed when the request was sent. Hence another process's
version is committed only after the claim to every earlier one has ended, or after its holder gave
it up (`HistOk.succ`).
-/

namespace MongoRescue.HA.Proof

open Go (Bytes)
open Manager (Acquire Acquisition Renewal)

variable {ι : Type}

/-! ## One event -/

section
variable [DecidableEq ι] (hmac : Bytes → String → Bytes)

/-- The steps of the cluster, by event, with what enables them. -/
inductive StepCases (w : World ι) : Event ι → World ι → Prop
  | tick (d : Nat) : StepCases w (.tick d) { w with time := w.time + d }
  | start (i : ι) (cfg : Config) (off : Int) (hv : cfg.validate = .ok ()) :
    StepCases w (.start i cfg off)
      { w.setProc i (some ⟨w.started.length, off, { cfg, valid := hv }, .idle⟩) with
        started := w.started ++ [cfg] }
  | crash (i : ι) : StepCases w (.crash i) (w.setProc i none)
  | call (i : ι) (op : Op) (env : Env) (p : Proc) (hp : w.procs i = some p) (hpc : p.pc = .idle) :
    StepCases w (.call i op env) (w.proceed i p (callPiece hmac p.mgr op (w.clocks p env)))
  | serve (i : ι) (p : Proc) (hp : w.procs i = some p) (hpc : p.pc = .reading none) :
    StepCases w (.serve i) (w.setProc i (some { p with pc := .reading (some w.read) }))
  | readFailed (i : ι) (env : Env) (p : Proc) (hp : w.procs i = some p) :
    StepCases w (.readReturn i true env)
      (w.proceed i p (readPiece hmac p.mgr .failed (w.clocks p env)))
  | readReturn (i : ι) (env : Env) (p : Proc) (ans : ReadAnswer) (hp : w.procs i = some p)
    (hpc : p.pc = .reading (some ans)) :
    StepCases w (.readReturn i false env)
      (w.proceed i p (readPiece hmac p.mgr ans (w.clocks p env)))
  | floorReturn (i : ι) (ans : FloorAnswer) (env : Env) (p : Proc) (a : Acquire)
    (hp : w.procs i = some p) (hpc : p.pc = .flooring a)
    (hset : p.mgr.cfg.epochFloor ≠ decide (ans = .unset)) :
    StepCases w (.floorReturn i ans env)
      (w.proceed i p (floorPiece hmac p.mgr a ans (w.clocks p env)))
  | commit (rid : Nat) (r : Request) (hn : w.net[rid]? = some r) (hh : w.holds r.cond) :
    StepCases w (.commit rid) (w.write (some (rid, r)) r.data)
  | writeReturn (i : ι) (out : Outcome) (env : Env) (p : Proc) (rid : Nat) (ans : WriteAnswer)
    (q : Piece) (hp : w.procs i = some p) (hrid : p.pc.rid = some rid)
    (hans : w.answer rid out = some ans)
    (hq : writePiece hmac p.mgr p.pc ans (w.clocks p env) = some q) :
    StepCases w (.writeReturn i out env) (w.proceed i p q)
  | leave (i : ι) (env : Env) (p : Proc) (hp : w.procs i = some p) (hpc : p.pc = .leaving) :
    StepCases w (.leave i env)
      (w.proceed i p { mgr := p.mgr.stepDown true (w.clocks p env).now })
  | deleteByHand : StepCases w .deleteByHand { w with obj := none }
  | writeByHand (d : Content) : StepCases w (.writeByHand d) (w.write none d)

variable {hmac} in
theorem step_cases {w w' : World ι} {ev : Event ι} (h : w.step hmac ev = some w') :
    StepCases hmac w ev w' := by
  cases ev <;> simp only [World.step, Option.bind_eq_bind, Option.bind_eq_some_iff,
    Option.ite_none_left_eq_some, Option.ite_none_right_eq_some, Option.some.injEq, ne_eq,
    not_not] at h
  case start i cfg off =>
    split at h
    · cases h
    · rename_i m hm
      cases h
      unfold Manager.new at hm
      split at hm <;> cases hm
      exact .start i cfg off _
  case call i op env =>
    obtain ⟨p, hp, hpc, rfl⟩ := h
    exact .call i op env p hp hpc
  case serve i =>
    obtain ⟨p, hp, hpc, rfl⟩ := h
    exact .serve i p hp hpc
  case readReturn i failed env =>
    obtain ⟨p, hp, h⟩ := h
    split at h <;> cases h
    · exact .readFailed i env p hp
    · exact .readReturn i env p _ hp ‹_›
  case floorReturn i ans env =>
    obtain ⟨p, hp, h⟩ := h
    split at h
    · simp only [Option.ite_none_left_eq_some, Option.some.injEq] at h
      obtain ⟨hset, rfl⟩ := h
      exact .floorReturn i ans env p _ hp ‹_› hset
    · cases h
  case commit rid =>
    obtain ⟨r, hn, hh, rfl⟩ := h
    exact .commit rid r hn hh
  case writeReturn i out env =>
    obtain ⟨p, hp, rid, hrid, ans, hans, q, hq, rfl⟩ := h
    exact .writeReturn i out env p rid ans q hp hrid hans hq
  case leave i env =>
    obtain ⟨p, hp, hpc, rfl⟩ := h
    exact .leave i env p hp hpc
  all_goals
    subst h
    constructor

end

/-- A cluster of two instances before anything happened. -/
def idleWorld : World (Fin 2) := ⟨0, fun _ => none, none, [], [], []⟩

def instA : Fin 2 := ⟨0, Nat.zero_lt_two⟩

def instB : Fin 2 := ⟨1, Nat.one_lt_two⟩

/-- Instance `i` reads the lease and acquires it by the request `rid`. -/
def acquires (i : Fin 2) (rid : Nat) : List (Event (Fin 2)) :=
  let env : Env := ⟨0, 0, 0⟩
  [.call i .step env, .serve i, .readReturn i false env, .floorReturn i .unset env, .commit rid,
    .writeReturn i .ok env]

variable {v rid pid : Nat} {e : Commit} {r : Request} {cfg : Config}

theorem idleWorld_initial : World.Initial idleWorld := ⟨fun _ => rfl, rfl, rfl, rfl, rfl⟩

/-- The processes after a step of `i` alone. -/
theorem update_procs [DecidableEq ι] {f : ι → Option Proc} {i j : ι} {p : Proc} {p' : Option Proc}
    (h : Function.update f i p' j = some p) : (j = i ∧ p' = some p) ∨ (j ≠ i ∧ f j = some p) := by
  by_cases hji : j = i
  · subst hji
    rw [Function.update_self] at h
    exact .inl ⟨rfl, h⟩
  · rw [Function.update_of_ne hji] at h
    exact .inr ⟨hji, h⟩

/-! ## The history only grows -/

structure Ext (w w' : World ι) : Prop where
  time : w.time ≤ w'.time
  net : w.net <+: w'.net
  log : w.log <+: w'.log
  started : w.started <+: w'.started

theorem getElem?_mono {α : Type} {l l' : List α} (h : l <+: l') {i : Nat} {a : α}
    (hi : l[i]? = some a) : l'[i]? = some a := by
  obtain ⟨t, rfl⟩ := h
  rw [List.getElem?_append_left (List.getElem?_eq_some_iff.mp hi).1]
  exact hi

/-- Version `v` was written by the request `r`, with number `rid`. -/
structure Wrote (w : World ι) (v : Nat) (e : Commit) (rid : Nat) (r : Request) : Prop where
  log : w.log[v]? = some e
  source : e.source = some (rid, r)

theorem Wrote.mono {w w' : World ι} (hx : Ext w w') (h : Wrote w v e rid r) : Wrote w' v e rid r :=
  ⟨getElem?_mono hx.log h.log, h.source⟩

/-- The process `pid` gave the lease up in version `v`, which names no holder. -/
def ReleasedBy (w : World ι) (v pid : Nat) : Prop :=
  ∃ e rid r l, Wrote w v e rid r ∧ r.pid = pid ∧ e.data = .json l ∧ l.holder = ""

theorem ReleasedBy.mono {w w' : World ι} (hx : Ext w w') (h : ReleasedBy w v pid) :
    ReleasedBy w' v pid := by
  obtain ⟨e, rid, r, l, hw, hrest⟩ := h
  exact ⟨e, rid, r, l, hw.mono hx, hrest⟩

/-- What was released is read off the commits alone. -/
theorem ReleasedBy.of_log {w w' : World ι} (hl : w'.log = w.log) (h : ReleasedBy w' v pid) :
    ReleasedBy w v pid := by
  obtain ⟨e, rid, r, l, hw, hrest⟩ := h
  exact ⟨e, rid, r, l, ⟨hl ▸ hw.log, hw.source⟩, hrest⟩

theorem write_ext (w : World ι) (s : Option (Nat × Request)) (d : Content) : Ext w (w.write s d) :=
  ⟨le_rfl, List.prefix_rfl, List.prefix_append _ _, List.prefix_rfl⟩

theorem getElem?_append_one {α : Type} {l : List α} {a b : α} {i : Nat}
    (h : (l ++ [a])[i]? = some b) : l[i]? = some b ∨ i = l.length ∧ b = a := by
  rcases Nat.lt_or_ge i l.length with hi | hi
  · rw [List.getElem?_append_left hi] at h
    exact .inl h
  · rw [List.getElem?_append_right hi] at h
    obtain ⟨hlt, hb⟩ := List.getElem?_eq_some_iff.mp h
    simp only [List.length_cons, List.length_nil] at hlt
    refine .inr ⟨by omega, ?_⟩
    simpa using hb.symm

variable {w : World ι}

/-- The versions after a commit are those before it and the new one. -/
theorem Wrote.of_write {src : Option (Nat × Request)} {d : Content}
    (h : Wrote (w.write src d) v e rid r) :
    Wrote w v e rid r ∨ v = w.log.length ∧ src = some (rid, r) ∧ e.data = d := by
  have hlog : (w.log ++ [⟨src, d, w.time⟩])[v]? = some e := h.log
  rcases getElem?_append_one hlog with he | ⟨hv, rfl⟩
  · exact .inl ⟨he, h.source⟩
  · exact .inr ⟨hv, h.source, rfl⟩

theorem proceed_ext [DecidableEq ι] (w : World ι) (i : ι) (p : Proc) (q : Piece) :
    Ext w (w.proceed i p q) := by
  refine ⟨le_rfl, ?_, List.prefix_rfl, List.prefix_rfl⟩
  unfold World.proceed
  dsimp only
  split
  · exact List.prefix_rfl
  · exact List.prefix_append _ _

theorem mem_proceed_net [DecidableEq ι] {i : ι} {p : Proc} {q : Piece}
    (h : r ∈ (w.proceed i p q).net) :
    r ∈ w.net ∨ ∃ cond data, q.write = some (cond, data) ∧ r = ⟨p.pid, w.time, cond, data⟩ := by
  unfold World.proceed at h
  dsimp only at h
  split at h
  · exact .inl h
  · rename_i cond data hw
    rcases List.mem_append.mp h with h | h
    · exact .inl h
    · rw [List.mem_singleton] at h
      exact .inr ⟨cond, data, hw, h⟩

theorem written_spec (h : w.written rid = some v) : ∃ e r, Wrote w v e rid r := by
  unfold World.written at h
  rw [List.findIdx?_eq_some_iff_getElem] at h
  obtain ⟨hlt, hany, _⟩ := h
  simp only [Option.any_eq_true_iff_get, decide_eq_true_eq] at hany
  obtain ⟨hsome, hrid⟩ := hany
  refine ⟨w.log[v], (w.log[v].source.get hsome).2, List.getElem?_eq_getElem hlt, ?_⟩
  rw [← hrid]
  simp

/-- The version an answer names is the one the request wrote. -/
theorem answer_ok {out : Outcome} (h : w.answer rid out = some (.ok v)) :
    out = .ok ∧ w.written rid = some v := by
  cases out <;> simp_all [World.answer]

/-! ## Succession -/

/-- The process `pid` may replace version `v` at `t`: it wrote the version itself, or the version
names no holder, or the TTL of its lease has passed since it was written. -/
def Free (w : World ι) (v : Nat) (pid : Nat) (t : Int) : Prop :=
  ∃ e rid r, Wrote w v e rid r ∧
    (r.pid = pid ∨ ∃ l, e.data = .json l ∧ (l.holder = "" ∨ e.time + l.ttl ≤ t))

theorem Free.mono {w w' : World ι} (hx : Ext w w') {t t' : Int} (ht : t ≤ t') (h : Free w v pid t) :
    Free w' v pid t' := by
  obtain ⟨e, rid, r, hw, hor⟩ := h
  refine ⟨e, rid, r, hw.mono hx, hor.imp_right ?_⟩
  rintro ⟨l, hl, hor⟩
  exact ⟨l, hl, hor.imp_right fun hle => le_trans hle ht⟩

structure ReqOk (w : World ι) (r : Request) : Prop where
  sent : r.sent ≤ w.time
  lease : ∃ (cfg : Config) (l : Lease), w.started[r.pid]? = some cfg ∧ cfg.validate = .ok () ∧
    r.data = .json l ∧ l.ttlSeconds = cfg.ttl.tdiv Go.second
  free : ∀ v, r.cond = .matches (some v) → Free w v r.pid r.sent

theorem ReqOk.mono {w w' : World ι} (hx : Ext w w') (h : ReqOk w r) : ReqOk w' r where
  sent := le_trans h.sent hx.time
  lease := by
    obtain ⟨cfg, l, hc, hrest⟩ := h.lease
    exact ⟨cfg, l, getElem?_mono hx.started hc, hrest⟩
  free := fun v hv => (h.free v hv).mono hx le_rfl

/-- The claim to version `u`, written by the request `r` of a process with `cfg`, has ended at `t`:
its time is over, or the process has released a version since. -/
def Ended (w : World ι) (u : Nat) (r : Request) (cfg : Config) (t : Int) : Prop :=
  r.sent + (cfg.ttl - cfg.renew) ≤ t ∨ ∃ x, u ≤ x ∧ ReleasedBy w x r.pid

theorem Ended.mono {w w' : World ι} (hx : Ext w w') {u : Nat} {t t' : Int} (ht : t ≤ t')
    (h : Ended w u r cfg t) : Ended w' u r cfg t' := by
  refine h.imp (fun hle => le_trans hle ht) ?_
  rintro ⟨x, hux, hrel⟩
  exact ⟨x, hux, hrel.mono hx⟩

structure HistOk (w : World ι) : Prop where
  reqs : ∀ r ∈ w.net, ReqOk w r
  commits : ∀ (v : Nat) (e : Commit), w.log[v]? = some e → ∃ rid r, e.source = some (rid, r) ∧
    w.net[rid]? = some r ∧ e.data = r.data ∧ r.sent ≤ e.time ∧ e.time ≤ w.time
  order : ∀ (u v : Nat) (e f : Commit), u ≤ v → w.log[u]? = some e → w.log[v]? = some f →
    e.time ≤ f.time
  /-- **Succession**: a process writes the lease only after the claim of every other process to an
  earlier version has ended, or that process has released a version since. -/
  succ : ∀ u v e f rid r rid' r' (cfg : Config), u < v → Wrote w u e rid r → Wrote w v f rid' r' →
    w.started[r.pid]? = some cfg → r.pid = r'.pid ∨ Ended w u r cfg f.time
  obj : w.obj = none ∧ w.log = [] ∨
    ∃ (v : Nat) (e : Commit), w.log.length = v + 1 ∧ w.log[v]? = some e ∧ w.obj = some (e.data, v)

/-- The request of a written version is on the network, and so is well formed. -/
theorem HistOk.wrote (h : HistOk w) (hw : Wrote w v e rid r) :
    w.net[rid]? = some r ∧ ReqOk w r ∧ e.data = r.data ∧ r.sent ≤ e.time ∧ e.time ≤ w.time := by
  obtain ⟨rid', r', hs, hn, hrest⟩ := h.commits v e hw.log
  rw [hw.source, Option.some.injEq, Prod.mk.injEq] at hs
  obtain ⟨rfl, rfl⟩ := hs
  exact ⟨hn, h.reqs r (List.mem_of_getElem? hn), hrest⟩

/-- The history stays well formed when only well-formed requests and processes are added. -/
theorem HistOk.grow {w w' : World ι} (h : HistOk w) (hx : Ext w w') (hl : w'.log = w.log)
    (ho : w'.obj = w.obj) (hn : ∀ r ∈ w'.net, r ∈ w.net ∨ ReqOk w' r) : HistOk w' where
  reqs := fun r hr => (hn r hr).elim (fun hr => (h.reqs r hr).mono hx) id
  commits := fun v e he => by
    rw [hl] at he
    obtain ⟨rid, r, hs, hnet, hd, h1, h2⟩ := h.commits v e he
    exact ⟨rid, r, hs, getElem?_mono hx.net hnet, hd, h1, le_trans h2 hx.time⟩
  order := by rw [hl]; exact h.order
  succ := fun u v e f rid r rid' r' cfg huv hu hv hc => by
    have hu' : Wrote w u e rid r := ⟨hl ▸ hu.log, hu.source⟩
    have hv' : Wrote w v f rid' r' := ⟨hl ▸ hv.log, hv.source⟩
    obtain ⟨cfg', _, hc', _⟩ := (h.wrote hu').2.1.lease
    have : cfg = cfg' := by
      have := getElem?_mono hx.started hc'
      rw [hc] at this
      exact Option.some.inj this
    exact (h.succ u v e f rid r rid' r' cfg huv hu' hv' (this ▸ hc')).imp_right
      (.mono hx le_rfl)
  obj := by rw [hl, ho]; exact h.obj

/-- The claim to a version ends before the TTL of the lease in it. -/
theorem claim_le_due (h : HistOk w) {l : Lease} (hw : Wrote w v e rid r)
    (hc : w.started[r.pid]? = some cfg) (hl : e.data = .json l) : cfg.ttl - cfg.renew ≤ l.ttl := by
  obtain ⟨_, hr, hd, _⟩ := h.wrote hw
  obtain ⟨cfg', l', hc', hv, hd', httl⟩ := hr.lease
  rw [hc, Option.some.injEq] at hc'
  subst hc'
  rw [hl, hd'] at hd
  cases hd
  exact hold_le_ttl hv httl

/-- A request that takes effect expects the newest version. -/
theorem HistOk.expects (h : HistOk w) {c : Cond} (hh : w.holds c)
    (hne : 0 < w.log.length) : ∃ u, c = .matches (some u) ∧ w.log.length = u + 1 := by
  rcases h.obj with ⟨_, hnil⟩ | ⟨v, e, hlen, -, ho⟩
  · simp [hnil] at hne
  refine ⟨v, ?_, hlen⟩
  rcases c with _ | u
  · simp [World.holds, ho] at hh
  · simp only [World.holds, ho, Option.map_some, Bool.and_eq_true, decide_eq_true_eq] at hh
    rw [hh.2]

/-- When a request takes effect, the claims of the other processes to all versions have ended. -/
theorem claims_ended (h : HistOk w) (hr : r ∈ w.net) (hh : w.holds r.cond) {u : Nat}
    {q : Request} (hu : Wrote w u e rid q) (hc : w.started[q.pid]? = some cfg) :
    q.pid = r.pid ∨ Ended w u q cfg w.time := by
  have hult : u < w.log.length := (List.getElem?_eq_some_iff.mp hu.log).1
  -- the request replaces the newest version `v`
  obtain ⟨v, hv, hlen⟩ := h.expects hh (by omega)
  have hro := h.reqs r hr
  obtain ⟨f, rid', p, hp, hfree⟩ := hro.free v hv
  have hft : f.time ≤ w.time := (h.wrote hp).2.2.2.2
  -- `u` is the newest version, or an earlier one that `v` already succeeded
  have hearlier : q.pid = p.pid ∨ Ended w u q cfg f.time := by
    rcases Nat.lt_or_ge u v with huv | huv
    · exact h.succ u v e f rid q rid' p cfg huv hu hp hc
    · obtain rfl : u = v := by omega
      have := hu.log
      rw [hp.log, Option.some.injEq] at this
      subst this
      have := hu.source
      rw [hp.source, Option.some.injEq, Prod.mk.injEq] at this
      exact .inl (by rw [this.2])
  rcases hearlier with hqp | hend
  · rcases hfree with hpr | ⟨l, hl, hrel | hdue⟩
    · exact .inl (hqp.trans hpr)
    · exact .inr (.inr ⟨v, by omega, f, rid', p, l, hp, hqp.symm, hl, hrel⟩)
    · refine .inr (.inl ?_)
      have h1 := claim_le_due h hp (hqp ▸ hc) hl
      have h2 : q.sent ≤ e.time := (h.wrote hu).2.2.2.1
      have h3 : e.time ≤ f.time := h.order u v e f (by omega) hu.log hp.log
      have h4 := hro.sent
      omega
  · exact .inr (hend.mono ⟨le_rfl, List.prefix_rfl, List.prefix_rfl, List.prefix_rfl⟩ hft)

theorem HistOk.commit (h : HistOk w) (hr : w.net[rid]? = some r) (hh : w.holds r.cond) :
    HistOk (w.write (some (rid, r)) r.data) := by
  have hmem : r ∈ w.net := List.mem_of_getElem? hr
  have hx := write_ext w (some (rid, r)) r.data
  have hnew : ∀ {u e}, (w.write (some (rid, r)) r.data).log[u]? = some e →
      w.log[u]? = some e ∨ u = w.log.length ∧ e = ⟨some (rid, r), r.data, w.time⟩ :=
    fun he => getElem?_append_one he
  refine ⟨fun q hq => (h.reqs q hq).mono hx, ?_, ?_, ?_, ?_⟩
  · intro v e he
    rcases hnew he with he | ⟨-, rfl⟩
    · exact h.commits v e he
    · exact ⟨rid, r, rfl, hr, rfl, (h.reqs r hmem).sent, le_rfl⟩
  · intro u v e f huv he hf
    rcases hnew he with he | ⟨rfl, rfl⟩ <;> rcases hnew hf with hf | ⟨rfl, rfl⟩
    · exact h.order u v e f huv he hf
    · obtain ⟨_, _, _, _, _, _, ht⟩ := h.commits u e he
      exact ht
    · have := (List.getElem?_eq_some_iff.mp hf).1
      omega
    · exact le_rfl
  · intro u v e f ru q rv q' cfg huv hu hv hc
    have hulog : w.log[u]? = some e := by
      rcases hnew hu.log with he | ⟨rfl, -⟩
      · exact he
      · have := (List.getElem?_eq_some_iff.mp hv.log).1
        simp only [World.write, List.length_append, List.length_cons, List.length_nil] at this
        omega
    have hu' : Wrote w u e ru q := ⟨hulog, hu.source⟩
    rcases hnew hv.log with hf | ⟨rfl, rfl⟩
    · exact (h.succ u v e f ru q rv q' cfg huv hu' ⟨hf, hv.source⟩ hc).imp_right (.mono hx le_rfl)
    · have hs := hv.source
      simp only [Option.some.injEq, Prod.mk.injEq] at hs
      obtain ⟨-, rfl⟩ := hs
      exact (claims_ended h hmem hh hu' hc).imp_right (.mono hx le_rfl)
  · exact .inr ⟨w.log.length, ⟨some (rid, r), r.data, w.time⟩, by simp [World.write],
      by simp [World.write], rfl⟩

end MongoRescue.HA.Proof
