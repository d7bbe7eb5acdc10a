import MongoRescue.PITR.Proof.Tables

/-!
# The collector keeps its invariant

One lemma for each part of a step: from a state in the invariant it ends in one, however it ends. `At st`
adds that the state `st` the step loaded is still the stored one.
-/

namespace MongoRescue.PITR.Proof

open Prog Range

variable {cfg : Config} {env : Env} {P : World → Prop}

/-! ## Calls -/

instance grow_moves (es : List OpTime) : Moves Quiet (Prog.modify (·.grow es) : M Unit) :=
  Moves.modify fun w => Quiet.grow w es

theorem remember_moves {f : Worker → Worker} (h1 : ∀ x, (f x).checked = x.checked)
    (h2 : ∀ x, (f x).inclusive = x.inclusive) : Moves Quiet (remember f) :=
  Moves.modify fun w => Quiet.setWorker w h1 h2

instance reach_moves (s : Site) : Moves Quiet (reach env s) := by
  unfold reach
  infer_instance

instance ask_moves (s : Site) : Moves Quiet (ask env s) := by
  unfold ask
  infer_instance

instance seen_moves (a : Answer) : Moves Quiet (seen a) := by
  unfold seen
  infer_instance

instance listChunks_moves (s : Site) (q : ChunkQuery) : Moves Quiet (listChunks env s q) := by
  unfold listChunks
  infer_instance

instance listChains_moves (s : Site) : Moves Quiet (listChains env s) := by
  unfold listChains
  infer_instance

instance window_moves (s : Site) : Moves Quiet (window env s) := by
  unfold window
  infer_instance

instance lookupEntry_moves (s : Site) (ts : Timestamp) : Moves Quiet (lookupEntry env s ts) := by
  unfold lookupEntry
  infer_instance

instance adoptReplicaSetID_moves (k : Nat) (id : String) :
    Moves Quiet (adoptReplicaSetID env k id) := by
  have h1 : Moves Quiet (remember ({ · with rsID := id })) := remember_moves (fun _ => rfl) fun _ => rfl
  have h2 : Moves Quiet
      (Prog.modify fun w : World => { w with db := w.db.setReplicaSetID id } : M Unit) :=
    Moves.modify fun w =>
      ⟨⟨[], by simp, fun h => h⟩, rfl, rfl, position_setReplicaSetID w.db id, rfl, rfl, rfl⟩
  unfold adoptReplicaSetID
  infer_instance

instance afterBreak_moves : Moves Quiet afterBreak := by
  have h := remember_moves (f := fun w =>
    { w with gapBackoff := max (min (2 * w.gapBackoff) maxGapBackoff) w.interval })
    (fun _ => rfl) fun _ => rfl
  unfold afterBreak
  infer_instance

/-- A call that did not end the step. -/
theorem reach_spec (hP : Closed Quiet P) (s : Site) :
    Triple P (reach env s) (fun a w => P w ∧ a = env s ∧ a.outcome ≠ .crash) P := by
  unfold reach
  refine Triple.bind (Moves.triple hP fun _ h => h) fun _ => Triple.ite (fun _ => Triple.fail fun w hw => hw) ?_
  exact fun hc => Triple.pure fun w hw => ⟨hw, rfl, hc⟩

theorem ask_spec (hP : Closed Quiet P) (s : Site) :
    Triple P (ask env s) (fun a w => P w ∧ a = env s) P := by
  unfold ask
  refine Triple.bind (reach_spec hP s) fun a => Triple.ite (fun _ => Triple.fail fun w hw => hw.1) ?_
  exact fun _ => Triple.pure fun w hw => ⟨hw.1, hw.2.1⟩

/-- A call that succeeds does not end the step. -/
theorem ask_spec_of_ok {s : Site} {E : World → Prop} (henv : (env s).outcome = .ok)
    (hP : Closed Quiet P) : Triple P (ask env s) (fun _ => P) E := by
  have hgrow : ∀ w, P w → P (w.grow (env s).grow) := fun w => hP w _ (Quiet.grow w _)
  unfold ask reach
  refine Triple.bind (Q := fun a w => P w ∧ a = env s)
    (Triple.bind (Triple.modify (Q := fun _ => P) hgrow) fun _ => ?_) fun a => ?_
  · rw [if_neg (by rw [henv]; exact fun h => by cases h)]
    exact Triple.pure fun w hw => ⟨hw, rfl⟩
  · refine Triple.assume fun ha => ?_
    rw [ha, if_neg (by rw [henv]; exact fun h => by cases h)]
    exact Triple.pure fun w hw => hw

/-- A member sees a contiguous part of the oplog. -/
theorem seen_spec (P : World → Prop) (a : Answer) :
    Triple P (seen a) (fun es w => P w ∧ es <:+: w.log) P := by
  unfold seen
  refine Triple.get_bind fun w0 _ => ?_
  refine Triple.pure fun w hw => ⟨hw.1, ?_⟩
  rw [hw.2]
  exact view_infix w0.log a.lo a.hi

theorem listChunks_spec (hP : Closed Quiet P) (s : Site) (q : ChunkQuery) :
    Triple P (listChunks env s q) (fun cs w => P w ∧ cs = w.db.listChunks q) P := by
  unfold listChunks
  refine Triple.bind (Moves.triple hP fun _ h => h) fun _ => ?_
  refine Triple.get_bind fun w0 _ => ?_
  refine Triple.pure fun w hw => ⟨hw.1, ?_⟩
  rw [hw.2]

/-- The majority-committed entry a member reports is in the oplog. -/
theorem window_spec (hP : Closed Quiet P) (s : Site) : Triple P (window env s) (fun win w => P w ∧
      (win.majorityOpTime.ts.isZero = false → Ended w.log win.majorityOpTime.ts)) P := by
  unfold window
  refine Triple.bind (ask_spec hP s) fun a => ?_
  refine Triple.bind ((seen_spec (fun w => P w ∧ a = env s) a).conseq (fun _ h => h)
    (fun _ w (h : (P w ∧ a = env s) ∧ _) => h.1.1) fun w h => h.1) fun es => ?_
  refine Triple.get_bind fun w0 _ => ?_
  refine Triple.bind (Q := fun _ w => P w ∧ w = w0)
    (Triple.orFail (fun w hw => hw.1) fun _ _ w hw => hw) fun _ => ?_
  refine Triple.bind (Q := fun _ w => P w ∧ w = w0)
    (Triple.orFail (fun w hw => hw.1) fun _ _ w hw => hw) fun _ => ?_
  refine Triple.pure fun w hw => ⟨hw.1, fun hz => ?_⟩
  rw [hw.2]
  dsimp only at hz ⊢
  cases hm : a.majority.bind (w0.log[·]?) with
  | none =>
    rw [hm] at hz
    cases hz
  | some op =>
    obtain ⟨n, -, hn⟩ := Option.bind_eq_some_iff.mp hm
    exact ⟨op, List.mem_of_getElem? hn, rfl⟩

theorem lookupEntry_spec (hP : Closed Quiet P) (s : Site) (ts : Timestamp) :
    Triple P (lookupEntry env s ts)
      (fun term w => P w ∧ ∀ t, term = some t → Ended w.log ts) P := by
  unfold lookupEntry
  refine Triple.bind (Moves.triple hP fun _ h => h) fun a => ?_
  refine Triple.bind (seen_spec P a) fun es => ?_
  refine Triple.pure fun w hw => ⟨hw.1, fun t ht => ?_⟩
  rw [entryAt, Option.map_eq_some_iff] at ht
  obtain ⟨op, hop, -⟩ := ht
  exact ⟨op, hw.2.subset (List.mem_of_find?_eq_some hop), by simpa using List.find?_some hop⟩

/-- A transaction of the store. -/
theorem transact_spec {f : DB → Except StoreErr DB} {Q : Except StoreErr Unit → World → Prop}
    {E : World → Prop} (hok : ∀ w db, P w → f w.db = .ok db → Q (.ok ()) { w with db })
    (herr : ∀ w e, P w → f w.db = .error e → Q (.error e) w) : Triple P (transact f) Q E := by
  unfold transact
  refine Triple.get_bind fun w0 _ => ?_
  intro w hw
  obtain ⟨hp, rfl⟩ := hw
  cases hf : f w.db with
  | ok db => exact hok w db hp hf
  | error e => exact herr w e hp hf

/-! ## Starting and ending chains -/

/-- The state the step loaded is the stored one, up to the replica set ID. -/
structure At (cfg : Config) (st : CollectorState) (w : World) : Prop where
  inv : Inv cfg w
  position : position w.db = some (st.chainID, st.last.ts)

theorem closed_inv : Closed Quiet (Inv cfg) := fun _ _ q h => h.quiet q

theorem closed_at {st : CollectorState} : Closed Quiet (At cfg st) :=
  fun _ _ q h => ⟨h.inv.quiet q, q.position.trans h.position⟩

theorem closed_ended (ts : Timestamp) : Closed Quiet fun w => Ended w.log ts :=
  fun _ _ q h => q.ended h

/-- A new chain starts at an entry of the oplog. -/
theorem startChain_spec (start : OpTime) :
    Triple (fun w => Inv cfg w ∧ Ended w.log start.ts) (startChain cfg env start) (fun _ => Inv cfg)
      (Inv cfg) := by
  unfold startChain
  refine Triple.bind ((ask_spec (closed_inv.and (closed_ended start.ts)) _).err fun _ h => h.1) fun a => ?_
  refine Triple.bind (Q := Triple.after (fun _ w => Tables cfg w ∧
    (∃ p, Proof.position w.db = some (a.id, p)) ∧ rows w.db a.id = [] ∧
      ∀ i, OpenChain w.db i → i = a.id) (Inv cfg)) (transact_spec ?_ fun w e hw _ => hw.1.1) fun r => ?_
  · intro w db hw hok
    obtain ⟨h1, h2, h3, h4⟩ := hw.1.1.tables.startChain hok hw.1.2
    exact ⟨h1, ⟨_, h3⟩, h2, h4⟩
  cases r with
  | error e => exact Triple.fail fun w hw => hw
  | ok _ =>
    refine Triple.modify fun w hw => ?_
    obtain ⟨htab, ⟨p, hpos⟩, hrows, hopen⟩ := hw
    refine ⟨htab.setWorker _, ?_, ?_⟩
    · intro i hi r hr
      rw [hopen i hi] at hr
      exact absurd hr (by show r ∉ rows w.db a.id; rw [hrows]; exact List.not_mem_nil)
    · intro _ i q hq
      have hid : i = a.id := by
        have : Proof.position w.db = some (i, q) := hq
        rw [hpos, Option.some.injEq, Prod.mk.injEq] at this
        exact this.1.symm
      exact ⟨fun _ => hid ▸ hrows, fun _ _ => rfl⟩

theorem startAtOldest_spec (win : OplogWindow) :
    Triple (Inv cfg) (startAtOldest cfg env win) (fun _ => Inv cfg) (Inv cfg) := by
  unfold startAtOldest
  refine Triple.bind (lookupEntry_spec closed_inv _ _) fun term => ?_
  cases term with
  | none => exact Triple.fail fun w hw => hw.1
  | some t => exact (startChain_spec _).pre (fun w hw => ⟨hw.1, hw.2 t rfl⟩)

/-- Whatever `EndChain` answers changes nothing more. -/
theorem ended_spec (r : Except StoreErr Unit) :
    Triple P (match r with
      | .ok _ => return ()
      | .error .chainEnded => return ()
      | .error e => Prog.fail (.store e) : M Unit) (fun _ => P) P := by
  rcases r with e | u
  · by_cases he : e = .chainEnded
    · subst he
      exact Triple.pure fun w hw => hw
    · cases e <;> first | exact absurd rfl he | exact Triple.fail fun w hw => hw
  · exact Triple.pure fun w hw => hw

theorem endChain_spec (s : Site) (id : String) (stop : Timestamp) (reason : EndReason) :
    Triple (Inv cfg) (endChain env s id stop reason) (fun _ => Inv cfg) (Inv cfg) := by
  unfold endChain
  refine Triple.bind (Moves.triple closed_inv fun _ h => h) fun a => ?_
  refine Triple.bind (Q := fun _ => Inv cfg)
    (transact_spec (fun w db hw hok => hw.endChain hok) fun w e hw _ => hw) fun r => ?_
  exact ended_spec r

instance updateStream_moves (win : OplogWindow) (reason : EndReason) :
    Moves Quiet (updateStream env win reason) := by
  have h : Moves Quiet (Prog.modify fun w : World => { w with
      replicaSet := win.replicaSet
      worker := { w.worker with replicaSet := win.replicaSet } } : M Unit) :=
    Moves.modify fun w => ⟨⟨[], by simp, fun h => h⟩, rfl, rfl, rfl, rfl, rfl, rfl⟩
  unfold updateStream
  infer_instance

theorem breakChain_spec (st : CollectorState) (win : OplogWindow) (reason : EndReason) :
    Triple (Inv cfg) (breakChain cfg env st win reason) (fun _ => Inv cfg) (Inv cfg) := by
  unfold breakChain
  refine Triple.bind (endChain_spec _ _ _ _) fun _ => ?_
  refine Triple.bind (Moves.triple closed_inv fun _ h => h) fun _ => ?_
  exact Triple.bind (startAtOldest_spec win) fun _ => Moves.triple closed_inv fun _ h => h

instance divergenceLoop_moves (oldest : Timestamp) (n : Nat) (cs : List Chunk) :
    Moves Quiet (divergenceLoop env oldest n cs) := by
  induction cs generalizing n with
  | nil =>
    unfold divergenceLoop
    infer_instance
  | cons c cs ih =>
    have := ih (n + 1)
    unfold divergenceLoop
    infer_instance

instance divergencePoint_moves (st : CollectorState) (win : OplogWindow) :
    Moves Quiet (divergencePoint cfg env st win) := by
  unfold divergencePoint
  refine Moves.seq inferInstance fun cs => Moves.seq inferInstance fun o => ?_
  cases o <;> infer_instance

/-- Between superseding chunks and ending their chain, only `Live` fails. -/
structure Superseded (cfg : Config) (st : CollectorState) (w : World) : Prop where
  tables : Tables cfg w
  remembers : Remembers w
  position : position w.db = some (st.chainID, st.last.ts)

theorem Superseded.inv {st : CollectorState} {w : World} (h : Superseded cfg st w)
    (hclosed : ¬ OpenChain w.db st.chainID) : Inv cfg w := by
  refine ⟨h.tables, ?_, h.remembers⟩
  intro i hi
  obtain ⟨p, hp⟩ := h.tables.opened i hi
  rw [h.position, Option.some.injEq, Prod.mk.injEq] at hp
  exact absurd (hp.1 ▸ hi) hclosed

/-- **Ending the chain of the superseded chunks**, at a call that does not fail. -/
theorem endChain_superseded (henv : (env .endDiverged).outcome = .ok) (st : CollectorState)
    (stop : Timestamp) (reason : EndReason) :
    Triple (Superseded cfg st) (endChain env .endDiverged st.chainID stop reason) (fun _ => Inv cfg)
      (Inv cfg) := by
  have hclosed : Closed Quiet (Superseded cfg st) := by
    intro w w' q h
    refine ⟨h.tables.quiet q, fun hc i p hp => ?_, q.position.trans h.position⟩
    rw [q.checked] at hc
    rw [q.position] at hp
    rw [q.rows, q.inclusive, q.openChain]
    exact h.remembers hc i p hp
  unfold endChain
  refine Triple.bind (ask_spec_of_ok henv hclosed) fun a => ?_
  refine Triple.bind (Q := fun _ => Inv cfg) (transact_spec ?_ ?_) fun r => ?_
  · intro w db hw hok
    have hdb := endChain_ok hok
    refine (⟨hw.tables.endChain hok, ?_, ?_⟩ : Superseded cfg st _).inv ?_
    · intro hc i p hp
      have hr := hw.remembers hc i p (by subst hdb; exact hp)
      have hrows : rows db i = rows w.db i := by
        subst hdb
        rfl
      rw [hrows]
      exact ⟨hr.1, fun ho => hr.2 (openChain_of_endChain hok ho).1⟩
    · subst hdb
      exact hw.position
    · intro ho
      exact (openChain_of_endChain hok ho).2 rfl
  · intro w e hw he
    unfold DB.endChain at he
    cases ho : w.db.openChain st.chainID with
    | error e' => exact hw.inv (openChain_error hw.tables ho)
    | ok _ =>
      rw [ho] at he
      cases he
  exact ended_spec r

theorem diverge_spec (henv : (env .endDiverged).outcome = .ok) (st : CollectorState)
    (win : OplogWindow) :
    Triple (At cfg st) (diverge cfg env st win) (fun _ => Inv cfg) (Inv cfg) := by
  have hE : ∀ w, At cfg st w → Inv cfg w := fun _ h => h.inv
  unfold diverge
  refine Triple.bind (Moves.triple closed_at hE) fun point => ?_
  refine Triple.bind (Moves.triple closed_at hE) fun _ => ?_
  refine Triple.bind (Q := fun _ => Superseded cfg st) (Triple.modify fun w hw => ?_) fun _ => ?_
  · exact ⟨hw.inv.tables.supersede _ _, hw.inv.remembers.supersede _ _, hw.position⟩
  refine Triple.bind (endChain_superseded henv st point .diverged) fun _ => ?_
  refine Triple.bind (Moves.triple closed_inv fun _ h => h) fun _ => ?_
  refine Triple.bind (lookupEntry_spec closed_inv _ _) fun term => ?_
  cases term with
  | some t => exact (startChain_spec _).pre (fun w hw => ⟨hw.1, hw.2 t rfl⟩)
  | none => exact (startAtOldest_spec win).pre (fun w hw => hw.1)

/-! ## The stored position -/

theorem mem_listChunks {db : DB} {q : ChunkQuery} {r : Chunk} :
    r ∈ db.listChunks q ↔ r ∈ db.chunks ∧ q.selects r := by
  rw [DB.listChunks, List.mem_insertionSort, List.mem_filter]

theorem prev_lt (ts : Timestamp) : (prev ts).isZero ∨ prev ts < ts := by
  obtain ⟨t, i⟩ := ts
  unfold prev
  by_cases hi : 0 < i
  · right
    rw [if_pos hi]
    refine Prod.Lex.toLex_lt_toLex.mpr (.inr ⟨rfl, ?_⟩)
    show (i - 1).toNat < i.toNat
    have : 0 < i.toNat := hi
    rw [UInt32.toNat_sub_of_le _ _ (by exact this)]
    exact Nat.sub_lt this Nat.one_pos
  rw [if_neg hi]
  by_cases ht : 0 < t
  · right
    rw [if_pos ht]
    refine Prod.Lex.toLex_lt_toLex.mpr (.inl ?_)
    show (t - 1).toNat < t.toNat
    have : 0 < t.toNat := ht
    rw [UInt32.toNat_sub_of_le _ _ (by exact this)]
    exact Nat.sub_lt this Nat.one_pos
  · left
    rw [if_neg ht]
    have ht0 : t = 0 := UInt32.toNat_inj.mp (Nat.le_zero.mp (not_lt.mp ht))
    have hi0 : i = 0 := UInt32.toNat_inj.mp (Nat.le_zero.mp (not_lt.mp hi))
    rw [ht0, hi0]
    rfl

section Position

variable {st : CollectorState} {w : World}

/-- A row of the stored chain that ends at the position is among the chunks the worker looks at. -/
theorem At.mem_lastChunks (h : At cfg st w) {r : Chunk} (hr : r ∈ rows w.db st.chainID)
    (hto : r.toTS = st.last.ts) : r ∈ w.db.listChunks (lastChunks cfg st) := by
  obtain ⟨hmem, hid⟩ := mem_rows.mp hr
  refine mem_listChunks.mpr ⟨hmem, ?_⟩
  have hs := (h.inv.tables.row r hmem).stream
  have hprev := prev_lt st.last.ts
  simp [ChunkQuery.selects, lastChunks, hs, hid, hto, hprev, show Timestamp.isZero {} from rfl]

/-- The worker finds a chunk exactly when the stored chain has rows. -/
theorem At.lastChunks_eq_nil (h : At cfg st w) :
    w.db.listChunks (lastChunks cfg st) = [] ↔ rows w.db st.chainID = [] := by
  obtain ⟨c, -, -, hheld⟩ := h.inv.tables.heldAt h.position
  constructor
  · intro hnil
    by_contra hne
    have hlast := List.getLast?_eq_some_getLast hne
    have := h.mem_lastChunks (List.getLast_mem hne) (hheld.getLast hlast)
    rw [hnil] at this
    cases this
  · intro hnil
    refine List.eq_nil_iff_forall_not_mem.mpr fun r hr => ?_
    obtain ⟨hmem, hsel⟩ := mem_listChunks.mp hr
    have hid : r.chainID = st.chainID := by
      simp only [ChunkQuery.selects, lastChunks, Bool.and_eq_true] at hsel
      exact of_decide_eq_true hsel.1.1.1.1.2
    have : r ∈ rows w.db st.chainID := mem_rows.mpr ⟨hmem, hid⟩
    rw [hnil] at this
    cases this

/-- A chain without rows starts at the stored position. -/
theorem At.starts (h : At cfg st w) (hnil : rows w.db st.chainID = []) :
    ∃ c, w.db.listChains.find? (·.chainID = st.chainID) = some c ∧ c.start = st.last.ts := by
  obtain ⟨c, hc, hid, hheld⟩ := h.inv.tables.heldAt h.position
  have hstart : c.start = st.last.ts := by
    rw [hnil] at hheld
    exact hheld.eq_of_nil
  have hmem : c ∈ w.db.listChains := List.mem_insertionSort _ |>.mpr hc
  cases hf : w.db.listChains.find? (·.chainID = st.chainID) with
  | none => exact absurd hid (by simpa using List.find?_eq_none.mp hf c hmem)
  | some d =>
    have hd : d.chainID = st.chainID := by simpa using List.find?_some hf
    have hdm : d ∈ w.db.chains := List.mem_insertionSort _ |>.mp (List.mem_of_find?_eq_some hf)
    have : c = d := h.inv.tables.unique hc hdm (hid.trans hd.symm)
    exact ⟨d, rfl, this ▸ hstart⟩

/-- The next chunk's range is new, unless it is the empty chunk at the position. -/
theorem At.fresh (h : At cfg st w) {stop : Timestamp}
    (hempty : stop = st.last.ts → ∀ r ∈ rows w.db st.chainID,
      ¬ (r.fromTS = st.last.ts ∧ r.toTS = st.last.ts)) :
    Fresh w st.chainID st.last.ts stop := by
  intro r hr hsame
  obtain ⟨hid, hfrom, hto⟩ := hsame
  obtain ⟨c, -, -, hheld⟩ := h.inv.tables.heldAt h.position
  have hmem := mem_rows.mpr ⟨hr, hid⟩
  obtain ⟨-, hle, hlast, -⟩ := hheld.mem hmem
  have heq : stop = st.last.ts := by
    rw [hfrom, hto] at hle
    rw [hto] at hlast
    exact le_antisymm hlast hle
  exact hempty heq r hmem ⟨hfrom, hto.trans heq⟩

end Position

/-- The position is checked. -/
def Ready (cfg : Config) (st : CollectorState) (w : World) : Prop := At cfg st w ∧ w.worker.checked

theorem closed_ready {st : CollectorState} : Closed Quiet (Ready cfg st) :=
  fun w w' q h => ⟨closed_at w w' q h.1, by rw [q.checked]; exact h.2⟩

/-- `chainStartsAt` on a chain without rows, when it can read the chains. -/
theorem chainStartsAt_spec (henv : (env .chainStart).outcome ≠ .fail) (st : CollectorState) :
    Triple (fun w => At cfg st w ∧ rows w.db st.chainID = []) (chainStartsAt env st)
      (fun b w => (At cfg st w ∧ rows w.db st.chainID = []) ∧ b = true) (Inv cfg) := by
  have hclosed : Closed Quiet fun w => At cfg st w ∧ rows w.db st.chainID = [] :=
    closed_at.and fun w w' q h => by rw [q.rows]; exact h
  unfold chainStartsAt
  refine Triple.bind ((reach_spec hclosed _).err fun _ h => h.1.inv) fun a => ?_
  refine Triple.ite (fun ha w hw => absurd (hw.2.1 ▸ ha) henv) fun _ => ?_
  refine Triple.get_bind fun w0 hw0 => ?_
  obtain ⟨c, hfind, hstart⟩ := hw0.1.1.starts hw0.1.2
  rw [hfind]
  exact Triple.pure fun w hw => ⟨hw.1.1, by simpa using hstart⟩

/-- **The worker finds out whether its next chunk is the chain's first.** -/
theorem startChecked_spec (henv : (env .chainStart).outcome ≠ .fail) (st : CollectorState) :
    Triple (At cfg st) (startChecked cfg env st) (fun _ => Ready cfg st) (Inv cfg) := by
  have hset : ∀ (b : Bool) w, At cfg st w → (b = true ↔ rows w.db st.chainID = []) →
      Ready cfg st (w.setWorker ({ · with inclusive := b, checked := true })) := by
    intro b w hw hb
    refine ⟨⟨⟨hw.inv.tables.setWorker _, hw.inv.live, ?_⟩, hw.position⟩, rfl⟩
    intro _ i p hp
    have hp : position w.db = some (i, p) := hp
    rw [hw.position, Option.some.injEq, Prod.mk.injEq] at hp
    rw [← hp.1]
    exact ⟨hb.mp, fun _ => hb.mpr⟩
  unfold startChecked
  refine Triple.bind ((listChunks_spec closed_at _ _).err fun _ h => h.inv) fun cs =>
    Triple.ite (fun hcs => ?_) fun hcs => ?_
  · refine Triple.bind (Q := fun b w => (At cfg st w ∧ rows w.db st.chainID = []) ∧ b = true)
      ((chainStartsAt_spec henv st).pre (fun w hw => ⟨hw.1, ?_⟩))
      fun b => ?_
    · rw [← hw.1.lastChunks_eq_nil, ← hw.2]
      exact List.isEmpty_iff.mp hcs
    · exact Triple.modify fun w hw => hset b w hw.1.1 ⟨fun _ => hw.1.2, fun _ => hw.2⟩
  · refine Triple.modify fun w hw => hset false w hw.1 ⟨fun h => absurd h Bool.false_ne_true, fun hnil => ?_⟩
    rw [← hw.1.lastChunks_eq_nil, ← hw.2] at hnil
    rw [hnil] at hcs
    exact absurd rfl hcs

/-- `confirm`: the chain was ended, or the position is still stored. -/
theorem confirm_spec (henv : (env .endDiverged).outcome = .ok) (k : Nat) (st : CollectorState) :
    Triple (At cfg st) (confirm cfg env k st) (fun r w => Inv cfg w ∧ ∀ win, r = .goOn win → At cfg st w)
      (Inv cfg) := by
  have hdone : ∀ (delay : Int), Triple (Inv cfg) (pure (.handled delay) : M Confirmed)
      (fun r w => Inv cfg w ∧ ∀ win, r = .goOn win → At cfg st w) (Inv cfg) :=
    fun delay => Triple.pure fun w hw => ⟨hw, fun win h => by cases h⟩
  have hE : ∀ w, At cfg st w → Inv cfg w := fun _ h => h.inv
  have hafter : Triple (At cfg st) afterBreak (fun _ => At cfg st) (Inv cfg) :=
    Moves.triple closed_at hE
  have hbreak : ∀ win reason, Triple (At cfg st) (breakChain cfg env st win reason) (fun _ => Inv cfg)
      (Inv cfg) := fun win reason =>
    (breakChain_spec st win reason).pre hE
  unfold confirm
  refine Triple.bind (Moves.triple closed_at hE) fun win => ?_
  refine Triple.get_bind fun w0 _ => ?_
  refine Triple.pre (P := At cfg st) ?_ fun _ h => h.1
  refine Triple.ite (fun _ => ?_) fun _ => ?_
  · exact Triple.bind hafter fun delay => Triple.bind (hbreak win _) fun _ => hdone delay
  refine Triple.bind (Moves.triple closed_at hE) fun term => ?_
  refine Triple.ite (fun _ => ?_) fun _ => Triple.ite (fun _ => ?_) fun _ => ?_
  · exact Triple.bind hafter fun delay => Triple.bind (hbreak win _) fun _ => hdone delay
  · exact Triple.bind hafter fun delay => Triple.bind (diverge_spec henv st win) fun _ => hdone delay
  · exact Triple.pure fun w hw => ⟨hw.inv, fun _ _ => hw⟩

/-! ## Writing chunks -/

/-- Before the chunk from the position to `stop` is written. -/
structure Writing (cfg : Config) (st : CollectorState) (incl : Bool) (stop : Timestamp) (w : World) :
    Prop where
  ready : Ready cfg st w
  inclusive : w.worker.inclusive = incl
  fresh : Fresh w st.chainID st.last.ts stop

/-- The object of the chunk holds its range. -/
structure Uploaded (cfg : Config) (st : CollectorState) (incl : Bool) (key : ChunkKey) (w : World) :
    Prop extends Writing cfg st incl key.toTS w where
  ended : Ended w.log key.toTS
  object : w.objects key = some (entries w.log incl st.last.ts key.toTS)

section Write

variable {st : CollectorState} {incl : Bool} {stop : Timestamp} {key : ChunkKey}

theorem closed_writing : Closed Quiet (Writing cfg st incl stop) := by
  intro w w' q h
  refine ⟨closed_ready w w' q h.ready, q.inclusive.trans h.inclusive, ?_⟩
  unfold Fresh
  rw [q.chunks]
  exact h.fresh

theorem closed_uploaded : Closed Quiet (Uploaded cfg st incl key) := by
  intro w w' q h
  refine ⟨closed_writing w w' q h.toWriting, q.ended h.ended, ?_⟩
  rw [q.objects, h.object, q.entries h.ready.1.inv.tables.sorted h.ended]

theorem Writing.setObject {w : World} (key : ChunkKey) (h : Writing cfg st incl key.toTS w)
    (hid : key.chainID = st.chainID) (hfrom : key.fromTS = st.last.ts) (o : Option (List OpTime)) :
    Writing cfg st incl key.toTS (w.setObject key o) := by
  refine ⟨⟨⟨h.ready.1.inv.setObject ?_ o, h.ready.1.position⟩, h.ready.2⟩, h.inclusive, h.fresh⟩
  rw [hid, hfrom]
  exact h.fresh

/-- A failed chunk's object is removed; the position stays. -/
theorem removeObject_spec (hid : key.chainID = st.chainID) (hfrom : key.fromTS = st.last.ts) :
    Triple (Writing cfg st incl key.toTS) (removeObject env key) (fun _ => At cfg st) (At cfg st) := by
  have hE : ∀ w, Writing cfg st incl key.toTS w → At cfg st w := fun _ h => h.ready.1
  unfold removeObject
  refine Triple.bind (Moves.triple closed_writing hE)
    fun fence => Triple.ite (fun _ => ?_) fun _ => Triple.pure hE
  refine Triple.bind (Moves.triple closed_writing hE)
    fun a => Triple.ite (fun _ => ?_) fun _ => Triple.pure hE
  exact Triple.modify fun w hw => hE _ (hw.setObject key hid hfrom none)

theorem Uploaded.commit {w : World} (h : Uploaded cfg st incl key w) (hid : key.chainID = st.chainID)
    (hfrom : key.fromTS = st.last.ts) {c : Chunk} {db : DB} (hok : w.db.commitChunk c = .ok db)
    (hs : c.streamID = cfg.streamID) (hkey : c.storageKey = key) (hc : c.chainID = st.chainID)
    (hcf : c.fromTS = st.last.ts) (hct : c.toTS = key.toTS) (hle : c.fromTS ≤ c.toTS) :
    Tables cfg { w with db } ∧ Live { w with db } ∧ position db = some (st.chainID, key.toTS) ∧
      rows db st.chainID ≠ [] := by
  have hinv := h.ready.1.inv
  have hempty : (rows w.db c.chainID).isEmpty = incl := by
    obtain ⟨h1, h2⟩ := hinv.remembers h.ready.2 _ _ h.ready.1.position
    rw [h.inclusive] at h1 h2
    rw [hc, Bool.eq_iff_iff, List.isEmpty_iff]
    exact ⟨h2 (hc ▸ (commitChunk_ok hok).1), h1⟩
  have := hinv.tables.commit hinv.live hok
    ⟨hs, by rw [hkey, hc]; exact hid, by rw [hkey, hcf]; exact hfrom, by rw [hkey]; exact hct.symm⟩
    (by rw [hc, hcf, hct]; exact h.fresh) hle (by rw [hct]; exact h.ended)
    (by rw [hempty, hkey, hcf, hct]; exact h.object)
  rw [hc, hct] at this
  exact this

theorem discard_spec {α : Type} {Q : α → World → Prop} (key : ChunkKey) (hid : key.chainID = st.chainID)
    (hfrom : key.fromTS = st.last.ts) (e : Stop) :
    Triple (Writing cfg st incl key.toTS) (discard env key e : M α) Q (At cfg st) := by
  unfold discard
  exact Triple.bind (removeObject_spec hid hfrom) fun _ => Triple.fail fun w hw => hw

end Write

/-- A chunk was committed, and the worker does not know yet. -/
structure Committed (cfg : Config) (st : CollectorState) (stop : Timestamp) (w : World) : Prop where
  tables : Tables cfg w
  live : Live w
  position : position w.db = some (st.chainID, stop)
  rows : rows w.db st.chainID ≠ []

section Chunk

variable {st : CollectorState} {rng : OplogRange} {key : ChunkKey}

theorem commitRow_spec (key : ChunkKey) (hid : key.chainID = st.chainID) (hfrom : key.fromTS = st.last.ts)
    (hrng : rng.fromTS = st.last.ts) (hto : rng.toTS = key.toTS) (hle : rng.fromTS ≤ rng.toTS)
    (fromTerm : Int) (c : Copy) :
    Triple (Uploaded cfg st rng.startInclusive key) (commitRow cfg env st.chainID key rng fromTerm c)
      (fun _ => Committed cfg st key.toTS) (At cfg st) := by
  have hE : ∀ w, Uploaded cfg st rng.startInclusive key w → At cfg st w := fun _ h => h.ready.1
  have hdiscard : ∀ e, Triple (Uploaded cfg st rng.startInclusive key) (discard env key e : M Unit)
      (fun _ => Committed cfg st key.toTS) (At cfg st) := fun e =>
    (discard_spec key hid hfrom e).pre (fun _ h => h.toWriting)
  have hcall : ∀ s, Triple (Uploaded cfg st rng.startInclusive key) (reach env s)
      (fun _ => Uploaded cfg st rng.startInclusive key) (At cfg st) := fun s =>
    Moves.triple closed_uploaded hE
  unfold commitRow
  refine Triple.bind (hcall _) fun fence => Triple.ite (fun _ => hdiscard _) fun _ => ?_
  refine Triple.bind (hcall _) fun done => Triple.ite (fun _ => hdiscard _) fun _ => ?_
  refine Triple.bind (Q := Triple.after (fun _ => Committed cfg st key.toTS)
    (Uploaded cfg st rng.startInclusive key)) (transact_spec ?_ fun w e hw _ => hw) fun r => ?_
  · intro w db hw hok
    obtain ⟨h1, h2, h3, h4⟩ := hw.commit hid hfrom hok rfl rfl rfl hrng hto hle
    exact ⟨h1, h2, h3, h4⟩
  cases r with
  | error e => exact hdiscard _
  | ok u => exact Triple.pure fun w hw => hw

/-- **Writing a chunk**: it is committed with its range of the oplog, or the position stays. -/
theorem writeChunk_spec (hrng : rng.fromTS = st.last.ts) (fromTerm : Int) :
    Triple (Writing cfg st rng.startInclusive rng.toTS) (writeChunk cfg env st.chainID rng fromTerm)
      (fun _ => Committed cfg st rng.toTS) (At cfg st) := by
  have hE : ∀ w, Writing cfg st rng.startInclusive rng.toTS w → At cfg st w := fun _ h => h.ready.1
  have hcall : ∀ {α : Type} (x : M α) [Moves Quiet x],
      Triple (Writing cfg st rng.startInclusive rng.toTS) x
        (fun _ => Writing cfg st rng.startInclusive rng.toTS) (At cfg st) := fun x _ =>
    Moves.triple closed_writing hE
  unfold writeChunk
  refine Triple.bind (hcall _) fun _ => Triple.bind (hcall _) fun _ => ?_
  refine Triple.get_bind fun w0 _ => ?_
  refine Triple.pre (P := Writing cfg st rng.startInclusive rng.toTS) ?_ fun _ h => h.1
  extract_lets key
  have hfail : ∀ (e : Stop) (o : Option (List OpTime)),
      Triple (Writing cfg st rng.startInclusive rng.toTS)
        (do Prog.modify (·.setObject key o); discard env key e : M (Copy × Int))
        (fun _ => Committed cfg st rng.toTS) (At cfg st) := by
    intro e o
    refine Triple.bind (Q := fun _ => Writing cfg st rng.startInclusive rng.toTS)
      (Triple.modify fun w hw => hw.setObject key rfl hrng o) fun _ => ?_
    exact discard_spec key rfl hrng e
  refine Triple.bind (hcall _) fun fence => Triple.bind (hcall _) fun a => ?_
  refine Triple.bind ((seen_spec _ a).err hE) fun es => ?_
  -- what the member saw is still a part of the oplog when the upload ends
  have hseen : Closed Quiet fun w => Writing cfg st rng.startInclusive rng.toTS w ∧ es <:+: w.log := by
    refine closed_writing.and fun w w' q h => ?_
    obtain ⟨more, hlog, -⟩ := q.log
    rw [hlog]
    exact h.trans (List.prefix_append _ _).isInfix
  refine Triple.bind (Moves.triple hseen fun _ h => hE _ h.1)
    fun up => ?_
  rcases hread : readRange a rng es with e | c
  · exact Triple.pre (P := Writing cfg st rng.startInclusive rng.toTS) (hfail _ _) fun _ h => h.1
  have hok : readOplog rng es = .ok c := by
    unfold readRange at hread
    by_cases ha : a.outcome = .fail
    · rw [if_pos ha] at hread
      cases hread
    · rwa [if_neg ha] at hread
  refine Triple.ite (fun _ => ?_) fun _ => ?_
  · exact Triple.pre (P := Writing cfg st rng.startInclusive rng.toTS) (hfail _ _) fun _ h => h.1
  have hle : rng.fromTS ≤ rng.toTS := by
    unfold readOplog at hok
    by_cases hlt : rng.toTS < rng.fromTS
    · rw [if_pos hlt] at hok
      cases hok
    · exact not_lt.mp hlt
  refine Triple.bind (Q := fun _ => Uploaded cfg st rng.startInclusive key)
    (Triple.modify fun w hw => ?_) fun _ => ?_
  · obtain ⟨-, hend, hwritten⟩ := readOplog_ok hw.1.ready.1.inv.tables.sorted hw.2 hok
    refine ⟨hw.1.setObject key rfl hrng _, hend, ?_⟩
    show Function.update w.objects key (some c.written) key = _
    rw [Function.update_self, hwritten, hrng]
    rfl
  · exact Triple.bind (commitRow_spec key rfl hrng hrng rfl hle _ _) fun _ =>
      Triple.pure fun w hw => hw

end Chunk

/-! ## The step -/

/-- The two calls of a step that must not fail for its chain to stay whole: the read of the chains
after a restart, and ending the chain whose chunks were superseded. -/
structure Safe (env : Env) : Prop where
  chainStart : (env .chainStart).outcome ≠ .fail
  endDiverged : (env .endDiverged).outcome = .ok

instance (env : Env) : Decidable (Safe env) :=
  decidable_of_iff ((env .chainStart).outcome ≠ .fail ∧ (env .endDiverged).outcome = .ok)
    ⟨fun h => ⟨h.1, h.2⟩, fun h => ⟨h.1, h.2⟩⟩

instance retryBehind_moves : Moves Quiet retryBehind := by
  have h1 : Moves Quiet (remember fun w => { w with behind := w.behind + 1 }) :=
    remember_moves (fun _ => rfl) fun _ => rfl
  have h2 : Moves Quiet (remember ({ · with behind := 0 })) :=
    remember_moves (fun _ => rfl) fun _ => rfl
  unfold retryBehind
  infer_instance

theorem adjustInterval_checked (n : Int) (w : Worker) :
    (adjustInterval cfg n w).checked = w.checked ∧ (adjustInterval cfg n w).inclusive = w.inclusive := by
  unfold adjustInterval
  split
  · exact ⟨rfl, rfl⟩
  · split <;> exact ⟨rfl, rfl⟩

theorem committed_spec (st : CollectorState) (stop : Timestamp) (catchUp : Bool) (c : Copy)
    (rawBytes : Int) :
    Triple (Committed cfg st stop) (committed cfg stop catchUp c rawBytes) (fun _ => Inv cfg)
      (Inv cfg) := by
  have h : Moves Quiet (remember ({ · with gapBackoff := 0 })) :=
    remember_moves (fun _ => rfl) fun _ => rfl
  unfold committed
  refine Triple.bind (Q := fun _ => Inv cfg) (Triple.modify fun w hw => ?_)
    fun _ => Moves.triple closed_inv fun _ h => h
  refine ⟨hw.tables.setWorker _, hw.live, fun _ i p hp => ?_⟩
  have hp : position w.db = some (i, p) := hp
  rw [hw.position, Option.some.injEq, Prod.mk.injEq] at hp
  rw [← hp.1]
  refine ⟨fun hi => ?_, fun _ hnil => absurd hnil hw.rows⟩
  rw [show ∀ f, (w.setWorker f).worker = f w.worker from fun _ => rfl,
    (adjustInterval_checked rawBytes _).2] at hi
  cases hi

instance chunkEnd_moves (st : CollectorState) (b : Timestamp) : Moves Quiet (chunkEnd env st b) := by
  unfold chunkEnd
  infer_instance

/-- `emptyChunkExists` finds the empty chunk at the position. -/
theorem emptyChunkExists_spec (st : CollectorState) {P : World → Prop} (hP : Closed Quiet P)
    (hat : ∀ w, P w → At cfg st w) :
    Triple P (emptyChunkExists cfg env st) (fun b w => P w ∧ (b = false →
      ∀ r ∈ rows w.db st.chainID, ¬ (r.fromTS = st.last.ts ∧ r.toTS = st.last.ts))) (Inv cfg) := by
  unfold emptyChunkExists
  refine Triple.bind ((listChunks_spec hP _ _).err fun w h => (hat w h).inv) fun cs => ?_
  refine Triple.pure fun w hw => ⟨hw.1, fun hb r hr hsame => ?_⟩
  have hmem := (hat w hw.1).mem_lastChunks hr hsame.2
  rw [← hw.2] at hmem
  have := List.any_eq_false.mp hb r hmem
  simp [hsame.1, hsame.2] at this

section Step

variable (henv : Safe env)
include henv

theorem writeRange_spec {st : CollectorState} {stop : Timestamp} (incl catchUp : Bool) :
    Triple (Writing cfg st incl stop) (writeRange cfg env st stop catchUp) (fun _ => Inv cfg)
      (Inv cfg) := by
  unfold writeRange
  refine Triple.get_bind fun w0 hw0 => ?_
  extract_lets rng
  have hwrite : Triple (Writing cfg st rng.startInclusive rng.toTS)
      (writeChunk cfg env st.chainID rng st.last.term) (fun _ => Committed cfg st stop) (At cfg st) :=
    writeChunk_spec rfl st.last.term
  have hincl : rng.startInclusive = incl := hw0.inclusive
  rw [hincl] at hwrite
  refine Triple.bind (Triple.attempt (hwrite.pre fun w hw => hw.1)) fun r => ?_
  have hfail : ∀ (e e' : Stop), Triple (Triple.after (fun _ => Committed cfg st stop) (At cfg st)
      (.error e : Except Stop (Copy × Int))) (Prog.fail e' : M Int) (fun _ => Inv cfg) (Inv cfg) :=
    fun e e' => Triple.fail fun w (hw : At cfg st w) => hw.inv
  rcases r with e | r
  · rcases e with _ | s | e | e | _
    · exact hfail _ _
    · exact hfail _ _
    · exact hfail _ _
    · cases e with
      | behind =>
        exact (Moves.triple closed_inv fun _ h => h).pre fun w (hw : At cfg st w) => hw.inv
      | gap =>
        refine Triple.bind (confirm_spec henv.endDiverged 2 st) fun r => ?_
        cases r <;> exact Triple.pure fun w hw => hw.1
      | invalidRange => exact hfail _ _
      | order => exact hfail _ _
      | failed => exact hfail _ _
    · exact hfail _ _
  · exact committed_spec st stop catchUp r.1 r.2

/-- **The next chunk of a checked position.** -/
theorem collect_spec (st : CollectorState) (win : OplogWindow) :
    Triple (Ready cfg st) (collect cfg env st win) (fun _ => Inv cfg) (Inv cfg) := by
  unfold collect
  refine Triple.get_bind fun w0 hw0 => ?_
  -- what the worker remembers stays as it was when the step looked at it
  let P := fun w => Ready cfg st w ∧ w.worker.inclusive = w0.worker.inclusive
  have hP : Closed Quiet P := closed_ready.and fun w w' q h => q.inclusive.trans h
  have hE : ∀ w, P w → Inv cfg w := fun w h => h.1.1.inv
  refine Triple.pre (P := P) ?_ fun w hw => ⟨hw.1, by rw [hw.2]⟩
  refine Triple.ite (fun _ => Triple.pure hE) fun _ => ?_
  refine Triple.bind (Moves.triple hP hE) fun x => ?_
  obtain ⟨stop, catchUp⟩ := x
  refine Triple.ite (fun hstop => Triple.ite (fun _ => Triple.pure hE) fun _ => ?_) fun hstop => ?_
  · refine Triple.bind (emptyChunkExists_spec st hP fun w h => h.1.1) fun found => ?_
    refine Triple.ite (fun _ => ?_) fun hfound => ?_
    · have h := remember_moves (f := ({ · with emptyAt := st.last.ts })) (fun _ => rfl) fun _ => rfl
      refine Triple.bind ((Moves.triple closed_inv fun _ h => h).pre fun w hw => hE w hw.1) fun _ => ?_
      exact Triple.pure fun w hw => hw
    · refine (writeRange_spec henv w0.worker.inclusive catchUp).pre fun w hw => ?_
      exact ⟨hw.1.1, hw.1.2, hw.1.1.1.fresh fun _ => hw.2 (by simpa using hfound)⟩
  · refine (writeRange_spec henv w0.worker.inclusive catchUp).pre fun w hw => ?_
    refine ⟨hw.1, hw.2, hw.1.1.fresh fun heq r hr => ?_⟩
    have hincl : w0.worker.inclusive = true := by
      by_contra hne
      exact hstop ⟨heq, by simpa using hne⟩
    have hnil := (hw.1.1.inv.remembers hw.1.2 _ _ hw.1.1.position).1 (hw.2.trans hincl)
    rw [hnil] at hr
    cases hr

theorem checkPosition_spec (st : CollectorState) (win : OplogWindow) :
    Triple (At cfg st) (checkPosition cfg env st win) (fun _ => Inv cfg) (Inv cfg) := by
  have hchecked : ∀ win, Triple (At cfg st)
      (do startChecked cfg env st; collect cfg env st win : M Int) (fun _ => Inv cfg) (Inv cfg) :=
    fun win => Triple.bind (startChecked_spec henv.chainStart st) fun _ => collect_spec henv st win
  unfold checkPosition
  refine Triple.get_bind fun w0 _ => Triple.ite (fun hc => ?_) fun _ => ?_
  · refine (collect_spec henv st win).pre fun w hw => ⟨hw.1, ?_⟩
    rw [hw.2]
    exact hc
  refine Triple.pre (P := At cfg st) ?_ fun _ h => h.1
  refine Triple.bind (Moves.triple closed_at fun _ h => h.inv) fun term => ?_
  refine Triple.ite (fun _ => hchecked win) fun _ => ?_
  refine Triple.bind (confirm_spec henv.endDiverged 1 st) fun r => ?_
  cases r with
  | handled delay => exact Triple.pure fun w hw => hw.1
  | goOn win' => exact (hchecked win').pre fun w hw => hw.2 win' rfl

instance firstContact_moves (win : OplogWindow) : Moves Quiet (firstContact env win) := by
  unfold firstContact
  infer_instance

theorem goOn_spec (st : CollectorState) (win : OplogWindow) :
    Triple (At cfg st) (goOn cfg env st win) (fun _ => Inv cfg) (Inv cfg) := by
  have hgo : ∀ win, Triple (At cfg st)
      (do firstContact env win; checkPosition cfg env st win : M Int) (fun _ => Inv cfg) (Inv cfg) :=
    fun win => Triple.bind (Moves.triple closed_at fun _ h => h.inv)
      fun _ => checkPosition_spec henv st win
  unfold goOn
  refine Triple.get_bind fun w0 _ => Triple.ite (fun _ => ?_) fun _ => (hgo win).pre fun _ h => h.1
  refine Triple.bind ((confirm_spec henv.endDiverged 0 st).pre fun _ h => h.1) fun r => ?_
  cases r with
  | handled delay => exact Triple.pure fun w hw => hw.1
  | goOn win' => exact (hgo win').pre fun w hw => hw.2 win' rfl

end Step

/-- What `window` says about the majority-committed entry. -/
def Reported (win : OplogWindow) (w : World) : Prop :=
  win.majorityOpTime.ts.isZero = false → Ended w.log win.majorityOpTime.ts

theorem closed_reported (win : OplogWindow) : Closed Quiet (Reported win) :=
  fun _ _ q h hz => q.ended (h hz)

theorem nextChain_spec (c : Chain) (win : OplogWindow)
    (hz : ¬ (c.endReason = some .stopped ∧ win.majorityOpTime.ts.isZero)) :
    Triple (fun w => Inv cfg w ∧ Reported win w) (nextChain cfg env c win) (fun _ => Inv cfg)
      (Inv cfg) := by
  have hold : Triple (fun w => Inv cfg w ∧ Reported win w) (startAtOldest cfg env win)
      (fun _ => Inv cfg) (Inv cfg) := (startAtOldest_spec win).pre fun _ h => h.1
  unfold nextChain
  rcases hr : c.endReason with _ | r
  · exact hold
  cases r with
  | gap => exact hold
  | replicaSetChanged => exact hold
  | stopped =>
    refine (startChain_spec _).pre fun w hw => ⟨hw.1, hw.2 ?_⟩
    simpa [hr] using hz
  | diverged =>
    refine Triple.bind ((lookupEntry_spec closed_inv _ _).pre fun _ h => h.1) fun term => ?_
    cases term with
    | some t => exact (startChain_spec _).pre fun w hw => ⟨hw.1, hw.2 t rfl⟩
    | none => exact (startAtOldest_spec win).pre fun w hw => hw.1

theorem resumeEnded_spec (c : Chain) (win : OplogWindow) :
    Triple (fun w => Inv cfg w ∧ Reported win w) (resumeEnded cfg env c win) (fun _ => Inv cfg)
      (Inv cfg) := by
  unfold resumeEnded
  refine Triple.get_bind fun w0 _ => Triple.ite (fun _ => Triple.pure fun w hw => hw.1.1) fun hz => ?_
  refine Triple.bind ((nextChain_spec c win hz).pre fun _ h => h.1) fun _ => ?_
  exact Moves.triple closed_inv fun _ h => h

instance openSession_moves : Moves Quiet (openSession env) := by
  have h := remember_moves (f := ({ · with session := true })) (fun _ => rfl) fun _ => rfl
  unfold openSession
  infer_instance

instance endedChain_moves (id : String) : Moves Quiet (endedChain env id) := by
  unfold endedChain
  infer_instance

/-- **A step keeps the invariant**, however it ends. -/
theorem step_spec (henv : Safe env) :
    Triple (Inv cfg) (step cfg env) (fun _ => Inv cfg) (Inv cfg) := by
  unfold step
  refine Triple.bind (Moves.triple closed_inv fun _ h => h) fun _ => ?_
  refine Triple.bind (Moves.triple closed_inv fun _ h => h) fun _ => ?_
  refine Triple.get_bind fun w0 _ => ?_
  -- the step goes by the state it loaded
  let P := fun w => Inv cfg w ∧ position w.db = position w0.db
  have hP : Closed Quiet P := closed_inv.and fun w w' q h => q.position.trans h
  have hE : ∀ w, P w → Inv cfg w := fun w h => h.1
  refine Triple.pre (P := P) ?_ fun w hw => ⟨hw.1, by rw [hw.2]⟩
  refine Triple.bind (Moves.triple hP hE) fun _ => ?_
  refine Triple.bind ((window_spec hP _).err hE) fun win => ?_
  rcases hst : w0.db.state with _ | st
  · refine Triple.ite (fun _ => Triple.pure fun w hw => hw.1.1) fun hz => ?_
    refine Triple.bind ((startChain_spec _).pre fun w hw => ⟨hw.1.1, hw.2 (by simpa using hz)⟩) ?_
    exact fun _ => Moves.triple closed_inv fun _ h => h
  have hat : ∀ w, P w → At cfg st w := fun w hw => ⟨hw.1, by rw [hw.2, position, hst]; rfl⟩
  refine Triple.ite (fun _ => (goOn_spec henv st win).pre fun w hw => hat w hw.1) fun _ => ?_
  have hW : Closed Quiet fun w => P w ∧ Reported win w := hP.and (closed_reported win)
  have h := remember_moves (f := ({ · with rsID := st.replicaSetID })) (fun _ => rfl) fun _ => rfl
  refine Triple.bind (Moves.triple hW fun w hw => hE w hw.1) fun ended => ?_
  refine Triple.bind (Moves.triple hW fun w hw => hE w hw.1) fun _ => ?_
  cases ended with
  | some c => exact (resumeEnded_spec c win).pre fun w hw => ⟨hw.1.1, hw.2⟩
  | none => exact (goOn_spec henv st win).pre fun w hw => hat w hw.1

end MongoRescue.PITR.Proof
