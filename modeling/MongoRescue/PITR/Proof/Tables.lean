import MongoRescue.PITR.Proof.Held

/-!
# What the collector keeps

`Tables`: the chains, the rows and the objects fit together; `Live`: an open chain has only committed
rows; `Remembers`: a worker that checked its position knows whether its chain has a row. `Inv` is all
three. There is one lemma for each way the collector changes the world: `Inv.quiet` for the changes that
touch none of this, `Tables.startChain`, `Tables.endChain`, `Tables.supersede`, `Tables.setObject` and
`Tables.commit`.
-/

namespace MongoRescue.PITR.Proof

open Range

/-- The chain and the timestamp of the stored position. -/
def position (db : DB) : Option (String × Timestamp) :=
  db.state.map fun st => (st.chainID, st.last.ts)

/-- The rows of a chain in the order they were committed. -/
def rows (db : DB) (id : String) : List Chunk := db.chunks.filter (·.chainID = id)

theorem mem_rows {db : DB} {id : String} {r : Chunk} :
    r ∈ rows db id ↔ r ∈ db.chunks ∧ r.chainID = id := by
  simp [rows]

def OpenChain (db : DB) (id : String) : Prop := ∃ c ∈ db.chains, c.chainID = id ∧ c.isOpen

/-- A row is the stream's, and its key is made of its chain and its range. -/
structure Row (streamID : String) (r : Chunk) : Prop where
  stream : r.streamID = streamID
  chain : r.storageKey.chainID = r.chainID
  fromTS : r.storageKey.fromTS = r.fromTS
  toTS : r.storageKey.toTS = r.toTS

structure Tables (cfg : Config) (w : World) : Prop where
  sorted : Sorted w.log
  ids : (w.db.chains.map (·.chainID)).Nodup
  starts : ∀ c ∈ w.db.chains, Ended w.log c.start
  row : ∀ r ∈ w.db.chunks, Row cfg.streamID r
  known : ∀ r ∈ w.db.chunks, ∃ c ∈ w.db.chains, c.chainID = r.chainID
  distinct : w.db.chunks.Pairwise fun r s =>
    ¬ (r.chainID = s.chainID ∧ r.fromTS = s.fromTS ∧ r.toTS = s.toTS)
  /-- In a chain, a superseded row is followed by superseded rows only. -/
  kept : w.db.chunks.Pairwise fun r s =>
    r.chainID = s.chainID → s.status = .committed → r.status = .committed
  held : ∀ c ∈ w.db.chains, ∃ last, Held w.log w.objects true c.start (rows w.db c.chainID) last ∧
    ∀ p, position w.db = some (c.chainID, p) → p = last
  stored : ∀ id p, position w.db = some (id, p) → ∃ c ∈ w.db.chains, c.chainID = id
  /-- Only the chain of the stored position may be open. -/
  opened : ∀ id, OpenChain w.db id → ∃ p, position w.db = some (id, p)

/-- An open chain has no superseded row. -/
def Live (w : World) : Prop :=
  ∀ id, OpenChain w.db id → ∀ r ∈ rows w.db id, r.status = .committed

/-- A checked position: the next chunk keeps its start entry when it is the chain's first. -/
def Remembers (w : World) : Prop :=
  w.worker.checked → ∀ id p, position w.db = some (id, p) →
    (w.worker.inclusive → rows w.db id = []) ∧
    (OpenChain w.db id → rows w.db id = [] → w.worker.inclusive)

structure Inv (cfg : Config) (w : World) : Prop where
  tables : Tables cfg w
  live : Live w
  remembers : Remembers w

variable {cfg : Config} {w w' : World}

theorem Tables.unique (h : Tables cfg w) {c d : Chain} (hc : c ∈ w.db.chains) (hd : d ∈ w.db.chains)
    (hid : c.chainID = d.chainID) : c = d :=
  List.inj_on_of_nodup_map h.ids hc hd hid

/-- The rows of the stored chain lead from its start to the stored position. -/
theorem Tables.heldAt (h : Tables cfg w) {id : String} {p : Timestamp}
    (hp : position w.db = some (id, p)) :
    ∃ c ∈ w.db.chains, c.chainID = id ∧ Held w.log w.objects true c.start (rows w.db id) p := by
  obtain ⟨c, hc, hid⟩ := h.stored id p hp
  obtain ⟨last, hheld, hlast⟩ := h.held c hc
  rw [hid] at hheld hlast
  exact ⟨c, hc, hid, hlast p hp ▸ hheld⟩

theorem Tables.setWorker (h : Tables cfg w) (f : Worker → Worker) : Tables cfg (w.setWorker f) :=
  ⟨h.sorted, h.ids, h.starts, h.row, h.known, h.distinct, h.kept, h.held, h.stored, h.opened⟩

/-! ## Quiet changes -/

/-- The oplog may have grown; the tables, the objects, and what the worker knows about its position
are as they were. -/
structure Quiet (w w' : World) : Prop where
  log : ∃ es, w'.log = w.log ++ es ∧ (Sorted w.log → Sorted w'.log)
  chains : w'.db.chains = w.db.chains
  chunks : w'.db.chunks = w.db.chunks
  position : position w'.db = position w.db
  objects : w'.objects = w.objects
  checked : w'.worker.checked = w.worker.checked
  inclusive : w'.worker.inclusive = w.worker.inclusive

instance : Std.Refl Quiet := ⟨fun w => ⟨⟨[], by simp, id⟩, rfl, rfl, rfl, rfl, rfl, rfl⟩⟩

instance : IsTrans World Quiet where
  trans a b c hab hbc := by
    obtain ⟨⟨es, h1, h1'⟩, h2, h3, h4, h5, h6, h7⟩ := hab
    obtain ⟨⟨fs, k1, k1'⟩, k2, k3, k4, k5, k6, k7⟩ := hbc
    exact ⟨⟨es ++ fs, by rw [k1, h1, List.append_assoc], fun h => k1' (h1' h)⟩, k2.trans h2,
      k3.trans h3, k4.trans h4, k5.trans h5, k6.trans h6, k7.trans h7⟩

theorem Quiet.grow (w : World) (es : List OpTime) : Quiet w (w.grow es) := by
  unfold World.grow
  by_cases h : (w.log ++ es).Pairwise (·.ts < ·.ts)
  · rw [if_pos h]
    exact ⟨⟨es, rfl, fun _ => h⟩, rfl, rfl, rfl, rfl, rfl, rfl⟩
  · rw [if_neg h]
    exact refl_of Quiet w

theorem Quiet.setWorker (w : World) {f : Worker → Worker} (h1 : ∀ x, (f x).checked = x.checked)
    (h2 : ∀ x, (f x).inclusive = x.inclusive) : Quiet w (w.setWorker f) :=
  ⟨⟨[], by simp [World.setWorker], id⟩, rfl, rfl, rfl, rfl, h1 _, h2 _⟩

theorem position_setReplicaSetID (db : DB) (id : String) :
    position (db.setReplicaSetID id) = position db := by
  cases h : db.state <;> simp [position, DB.setReplicaSetID, h]

theorem Quiet.rows (h : Quiet w w') (id : String) : rows w'.db id = rows w.db id := by
  rw [Proof.rows, Proof.rows, h.chunks]

theorem Quiet.openChain (h : Quiet w w') (id : String) :
    OpenChain w'.db id ↔ OpenChain w.db id := by
  rw [OpenChain, OpenChain, h.chains]

theorem Quiet.ended (h : Quiet w w') {ts : Timestamp} (he : Ended w.log ts) : Ended w'.log ts := by
  obtain ⟨es, hes, -⟩ := h.log
  rw [hes]
  exact he.append es

theorem Quiet.entries (h : Quiet w w') (hs : Sorted w.log) {incl : Bool} {a b : Timestamp}
    (hb : Ended w.log b) : entries w'.log incl a b = entries w.log incl a b := by
  obtain ⟨es, hes, hs'⟩ := h.log
  have := hs' hs
  rw [hes] at this ⊢
  exact filter_within_grow this hb

theorem Tables.quiet (h : Tables cfg w) (q : Quiet w w') : Tables cfg w' := by
  obtain ⟨es, hlog, hsorted⟩ := q.log
  refine ⟨hsorted h.sorted, ?_, ?_, ?_, ?_, ?_, ?_, ?_, ?_, ?_⟩
  · rw [q.chains]
    exact h.ids
  · rw [q.chains]
    exact fun c hc => q.ended (h.starts c hc)
  · rw [q.chunks]
    exact h.row
  · rw [q.chunks, q.chains]
    exact h.known
  · rw [q.chunks]
    exact h.distinct
  · rw [q.chunks]
    exact h.kept
  · intro c hc
    rw [q.chains] at hc
    obtain ⟨last, hheld, hlast⟩ := h.held c hc
    rw [q.rows, q.position, q.objects, hlog]
    have hs := hsorted h.sorted
    rw [hlog] at hs
    exact ⟨last, hheld.mono hs fun _ _ => rfl, hlast⟩
  · rw [q.position, q.chains]
    exact h.stored
  · intro id hid
    rw [q.position]
    exact h.opened id ((q.openChain id).mp hid)

/-- **A quiet change keeps the invariant.** -/
theorem Inv.quiet (h : Inv cfg w) (q : Quiet w w') : Inv cfg w' := by
  refine ⟨h.tables.quiet q, ?_, ?_⟩
  · intro id hid r hr
    rw [q.rows] at hr
    exact h.live id ((q.openChain id).mp hid) r hr
  · intro hc id p hp
    rw [q.checked] at hc
    rw [q.position] at hp
    rw [q.rows, q.inclusive, q.openChain]
    exact h.remembers hc id p hp

/-! ## Chains that start and end -/

theorem startChain_ok {db db' : DB} {streamID id : String} {start : OpTime}
    (h : db.startChain streamID id start = .ok db') :
    (∀ c ∈ db.chains, c.isOpen = false) ∧ (∀ c ∈ db.chains, c.chainID ≠ id) ∧
      db'.chains = db.chains ++ [{ streamID, chainID := id, start := start.ts }] ∧
      db'.chunks = db.chunks ∧ position db' = some (id, start.ts) := by
  unfold DB.startChain at h
  by_cases h1 : id = ""
  · rw [if_pos h1] at h
    cases h
  rw [if_neg h1] at h
  by_cases h2 : db.chains.any (·.isOpen)
  · rw [if_pos h2] at h
    cases h
  rw [if_neg h2] at h
  by_cases h3 : db.chains.any (·.chainID = id)
  · rw [if_pos h3] at h
    cases h
  rw [if_neg h3] at h
  cases h
  refine ⟨?_, ?_, rfl, rfl, rfl⟩
  · simpa using h2
  · simpa using h3

/-- A new chain has no rows, and is the only open one. -/
theorem Tables.startChain (h : Tables cfg w) {id : String} {start : OpTime} {db : DB}
    (hok : w.db.startChain cfg.streamID id start = .ok db) (hs : Ended w.log start.ts) :
    Tables cfg { w with db } ∧ rows db id = [] ∧ position db = some (id, start.ts) ∧
      ∀ i, OpenChain db i → i = id := by
  obtain ⟨hclosed, hnew, hchains, hchunks, hpos⟩ := startChain_ok hok
  have hrows : rows db id = [] := by
    rw [rows, hchunks, List.filter_eq_nil_iff]
    intro r hr hid
    obtain ⟨c, hc, hcid⟩ := h.known r hr
    exact hnew c hc (hcid.trans (by simpa using hid))
  have hopen : ∀ i, OpenChain db i → i = id := by
    intro i hi
    obtain ⟨c, hc, hid, ho⟩ := hi
    rw [hchains, List.mem_append, List.mem_singleton] at hc
    rcases hc with hc | rfl
    · rw [hclosed c hc] at ho
      cases ho
    · exact hid.symm
  refine ⟨⟨h.sorted, ?_, ?_, ?_, ?_, ?_, ?_, ?_, ?_, ?_⟩, hrows, hpos, hopen⟩
  · show (db.chains.map (·.chainID)).Nodup
    rw [hchains, List.map_append, List.nodup_append]
    refine ⟨h.ids, by simp, ?_⟩
    intro a ha b hb
    obtain ⟨c, hc, rfl⟩ := List.mem_map.mp ha
    rw [List.map_singleton, List.mem_singleton] at hb
    rw [hb]
    exact hnew c hc
  · intro c hc
    have hc : c ∈ db.chains := hc
    rw [hchains, List.mem_append, List.mem_singleton] at hc
    rcases hc with hc | rfl
    · exact h.starts c hc
    · exact hs
  · show ∀ r ∈ db.chunks, _
    rw [hchunks]
    exact h.row
  · show ∀ r ∈ db.chunks, ∃ c ∈ db.chains, _
    rw [hchunks, hchains]
    intro r hr
    obtain ⟨c, hc, hid⟩ := h.known r hr
    exact ⟨c, List.mem_append_left _ hc, hid⟩
  · show db.chunks.Pairwise _
    rw [hchunks]
    exact h.distinct
  · show db.chunks.Pairwise _
    rw [hchunks]
    exact h.kept
  · intro c hc
    have hc : c ∈ db.chains := hc
    show ∃ last, Held w.log w.objects true c.start (rows db c.chainID) last ∧
      ∀ p, position db = some (c.chainID, p) → p = last
    rw [hchains, List.mem_append, List.mem_singleton] at hc
    rcases hc with hc | rfl
    · obtain ⟨last, hheld, -⟩ := h.held c hc
      refine ⟨last, by rw [rows, hchunks]; exact hheld, fun p hp => ?_⟩
      rw [hpos, Option.some.injEq, Prod.mk.injEq] at hp
      exact absurd hp.1.symm (hnew c hc)
    · refine ⟨start.ts, by rw [hrows]; exact .nil _ _, fun p hp => ?_⟩
      rw [hpos, Option.some.injEq, Prod.mk.injEq] at hp
      exact hp.2.symm
  · intro i p hp
    have hp : position db = some (i, p) := hp
    rw [hpos, Option.some.injEq, Prod.mk.injEq] at hp
    refine ⟨{ streamID := cfg.streamID, chainID := id, start := start.ts }, ?_, hp.1⟩
    show _ ∈ db.chains
    rw [hchains]
    exact List.mem_append_right _ List.mem_cons_self
  · intro i hi
    rw [hopen i hi]
    exact ⟨start.ts, hpos⟩

theorem openChain_ok {db : DB} {id : String} (h : db.openChain id = .ok ()) : OpenChain db id := by
  unfold DB.openChain at h
  cases hf : db.chains.find? (·.chainID = id) with
  | none =>
    rw [hf] at h
    cases h
  | some c =>
    rw [hf] at h
    refine ⟨c, List.mem_of_find?_eq_some hf, by simpa using List.find?_some hf, ?_⟩
    cases ho : c.isOpen with
    | true => rfl
    | false => simp [ho] at h

theorem openChain_error (h : Tables cfg w) {id : String} {e : StoreErr}
    (he : w.db.openChain id = .error e) : ¬ OpenChain w.db id := by
  intro hopen
  obtain ⟨c, hc, hid, ho⟩ := hopen
  unfold DB.openChain at he
  cases hf : w.db.chains.find? (·.chainID = id) with
  | none => exact absurd hid (by simpa using List.find?_eq_none.mp hf c hc)
  | some d =>
    rw [hf] at he
    have hd : d.chainID = id := by simpa using List.find?_some hf
    have : c = d := h.unique hc (List.mem_of_find?_eq_some hf) (hid.trans hd.symm)
    subst this
    simp [ho] at he

def endAt (id : String) (stop : Timestamp) (reason : EndReason) (now : Int) (c : Chain) : Chain :=
  if c.chainID = id then { c with stop, endReason := some reason, endedAt := some now } else c

theorem endAt_spec (id : String) (stop : Timestamp) (reason : EndReason) (now : Int) (c : Chain) :
    (endAt id stop reason now c).chainID = c.chainID ∧
      (endAt id stop reason now c).start = c.start ∧
      ((endAt id stop reason now c).isOpen → c.isOpen ∧ c.chainID ≠ id) := by
  unfold endAt
  by_cases h : c.chainID = id
  · rw [if_pos h]
    exact ⟨rfl, rfl, fun ho => by simp [Chain.isOpen] at ho⟩
  · rw [if_neg h]
    exact ⟨rfl, rfl, fun ho => ⟨ho, h⟩⟩

variable {reason : EndReason} {stop : Timestamp}

theorem endChain_ok {db db' : DB} {id : String} {now : Int}
    (h : db.endChain id stop reason now = .ok db') :
    db' = { db with chains := db.chains.map (endAt id stop reason now) } := by
  unfold DB.endChain at h
  cases ho : db.openChain id with
  | error e =>
    rw [ho] at h
    cases h
  | ok _ =>
    rw [ho] at h
    cases h
    rfl

theorem openChain_of_endChain {db db' : DB} {id : String}
    {now : Int} (h : db.endChain id stop reason now = .ok db') {i : String} (hi : OpenChain db' i) :
    OpenChain db i ∧ i ≠ id := by
  rw [endChain_ok h] at hi
  obtain ⟨c, hc, hid, ho⟩ := hi
  obtain ⟨d, hd, rfl⟩ := List.mem_map.mp hc
  obtain ⟨h1, -, h3⟩ := endAt_spec id stop reason now d
  rw [h1] at hid
  exact ⟨⟨d, hd, hid, (h3 ho).1⟩, hid ▸ (h3 ho).2⟩

theorem Tables.endChain (h : Tables cfg w) {id : String}
    {now : Int} {db : DB} (hok : w.db.endChain id stop reason now = .ok db) :
    Tables cfg { w with db } := by
  have hopen := fun i => openChain_of_endChain (i := i) hok
  have hdb := endChain_ok hok
  have hspec := endAt_spec id stop reason now
  subst hdb
  have hmap : (w.db.chains.map (endAt id stop reason now)).map (·.chainID) =
      w.db.chains.map (·.chainID) := by
    rw [List.map_map]
    exact List.map_congr_left fun c _ => (hspec c).1
  have hmem : ∀ i, (∃ c ∈ w.db.chains, c.chainID = i) →
      ∃ c ∈ w.db.chains.map (endAt id stop reason now), c.chainID = i := by
    intro i hi
    obtain ⟨c, hc, hid⟩ := hi
    exact ⟨_, List.mem_map_of_mem hc, (hspec c).1.trans hid⟩
  refine ⟨h.sorted, by rw [hmap]; exact h.ids, ?_, h.row, fun r hr => hmem _ (h.known r hr),
    h.distinct, h.kept, ?_, fun i p hp => hmem i (h.stored i p hp),
    fun i hi => h.opened i (hopen i hi).1⟩
  · intro c hc
    obtain ⟨d, hd, rfl⟩ := List.mem_map.mp hc
    rw [(hspec d).2.1]
    exact h.starts d hd
  · intro c hc
    obtain ⟨d, hd, rfl⟩ := List.mem_map.mp hc
    rw [(hspec d).1, (hspec d).2.1]
    exact h.held d hd

theorem Inv.endChain (h : Inv cfg w) {id : String}
    {now : Int} {db : DB} (hok : w.db.endChain id stop reason now = .ok db) :
    Inv cfg { w with db } := by
  have hdb := endChain_ok hok
  refine ⟨h.tables.endChain hok, ?_, ?_⟩
  · intro i hi r hr
    refine h.live i (openChain_of_endChain hok hi).1 r ?_
    subst hdb
    exact hr
  · intro hc i p hp
    have hr := h.remembers hc i p (by subst hdb; exact hp)
    have hrows : rows db i = rows w.db i := by
      subst hdb
      rfl
    rw [hrows]
    exact ⟨hr.1, fun ho => hr.2 (openChain_of_endChain hok ho).1⟩

/-! ## Superseded chunks -/

/-- A row after `supersedeChunks`. -/
def supersededAfter (id : String) (point : Timestamp) (r : Chunk) : Chunk :=
  if r.chainID = id ∧ r.status = .committed ∧ point < r.toTS then { r with status := .superseded }
  else r

section Supersede

variable (id : String) (point : Timestamp)

theorem supersededAfter_fields (r : Chunk) : (supersededAfter id point r).chainID = r.chainID ∧
      (supersededAfter id point r).fromTS = r.fromTS ∧
      (supersededAfter id point r).toTS = r.toTS ∧
      (supersededAfter id point r).storageKey = r.storageKey ∧
      (supersededAfter id point r).streamID = r.streamID := by
  unfold supersededAfter
  split <;> exact ⟨rfl, rfl, rfl, rfl, rfl⟩

theorem supersededAfter_status (r : Chunk) : (supersededAfter id point r).status = .committed ↔
      r.status = .committed ∧ (r.chainID = id → r.toTS ≤ point) := by
  unfold supersededAfter
  by_cases h : r.chainID = id ∧ r.status = .committed ∧ point < r.toTS
  · rw [if_pos h]
    refine ⟨fun hs => ?_, fun hs => absurd h.2.2 (not_lt.mpr (hs.2 h.1))⟩
    cases hs
  · rw [if_neg h]
    exact ⟨fun hs => ⟨hs, fun hid => not_lt.mp fun hlt => h ⟨hid, hs, hlt⟩⟩, And.left⟩

theorem rows_supersede (db : DB) (i : String) :
    rows (db.supersedeChunks id point) i = (rows db i).map (supersededAfter id point) := by
  show (db.chunks.map (supersededAfter id point)).filter (·.chainID = i) = _
  rw [rows, List.filter_map]
  congr 1
  refine List.filter_congr fun r _ => ?_
  show decide ((supersededAfter id point r).chainID = i) = _
  rw [(supersededAfter_fields id point r).1]

theorem Tables.supersede (h : Tables cfg w) :
    Tables cfg { w with db := w.db.supersedeChunks id point } := by
  have hf := supersededAfter_fields id point
  refine ⟨h.sorted, h.ids, h.starts, ?_, ?_, ?_, ?_, ?_, h.stored, h.opened⟩
  · intro r hr
    obtain ⟨x, hx, rfl⟩ := List.mem_map.mp hr
    obtain ⟨f1, f2, f3, f4, f5⟩ := hf x
    obtain ⟨k1, k2, k3, k4⟩ := h.row x hx
    exact ⟨f5.trans k1, by rw [← f1, ← f4] at k2; exact k2, by rw [← f2, ← f4] at k3; exact k3,
      by rw [← f3, ← f4] at k4; exact k4⟩
  · intro r hr
    obtain ⟨x, hx, rfl⟩ := List.mem_map.mp hr
    obtain ⟨c, hc, hid⟩ := h.known x hx
    exact ⟨c, hc, hid.trans (hf x).1.symm⟩
  · show (w.db.chunks.map (supersededAfter id point)).Pairwise _
    refine List.pairwise_map.mpr (h.distinct.imp fun {r s} hrs hsame => hrs ?_)
    obtain ⟨f1, f2, f3, -⟩ := hf r
    obtain ⟨g1, g2, g3, -⟩ := hf s
    exact ⟨f1.symm.trans (hsame.1.trans g1), f2.symm.trans (hsame.2.1.trans g2),
      f3.symm.trans (hsame.2.2.trans g3)⟩
  · -- a row that stays committed ends by the point, and so do those before it in its chain
    have hto : w.db.chunks.Pairwise fun r s => r.chainID = s.chainID → r.toTS ≤ s.toTS := by
      refine List.pairwise_iff_forall_sublist.mpr fun {r s} hrs hid => ?_
      obtain ⟨c, hc, hcid⟩ := h.known s (hrs.subset (by simp))
      obtain ⟨last, hheld, -⟩ := h.held c hc
      have hsub : [r, s].Sublist (rows w.db c.chainID) := by
        have := hrs.filter fun x => decide (x.chainID = c.chainID)
        simpa [rows, hid, hcid] using this
      exact List.pairwise_iff_forall_sublist.mp hheld.pairwise_toTS hsub
    show (w.db.chunks.map (supersededAfter id point)).Pairwise _
    refine List.pairwise_map.mpr (List.pairwise_iff_forall_sublist.mpr fun {r s} hrs hid hs => ?_)
    rw [(hf r).1, (hf s).1] at hid
    rw [supersededAfter_status] at hs ⊢
    refine ⟨List.pairwise_iff_forall_sublist.mp h.kept hrs hid hs.1, fun hr => ?_⟩
    exact (List.pairwise_iff_forall_sublist.mp hto hrs hid).trans (hs.2 (hid ▸ hr))
  · intro c hc
    obtain ⟨last, hheld, hlast⟩ := h.held c hc
    refine ⟨last, ?_, hlast⟩
    rw [rows_supersede]
    exact hheld.map fun r => ⟨(hf r).2.1, (hf r).2.2.1, (hf r).2.2.2.1⟩

theorem Remembers.supersede (h : Remembers w) :
    Remembers { w with db := w.db.supersedeChunks id point } := by
  intro hc i p hp
  obtain ⟨h1, h2⟩ := h hc i p hp
  rw [rows_supersede, List.map_eq_nil_iff]
  exact ⟨h1, h2⟩

end Supersede

/-! ## New chunks -/

/-- No row of the chain `id` has the range `(a, b]`. -/
def Fresh (w : World) (id : String) (a b : Timestamp) : Prop :=
  ∀ r ∈ w.db.chunks, ¬ (r.chainID = id ∧ r.fromTS = a ∧ r.toTS = b)

theorem Tables.setObject (h : Tables cfg w) {key : ChunkKey}
    (hfresh : Fresh w key.chainID key.fromTS key.toTS) (o : Option (List OpTime)) :
    Tables cfg (w.setObject key o) := by
  have hne : ∀ r ∈ w.db.chunks, r.storageKey ≠ key := by
    intro r hr heq
    obtain ⟨-, k2, k3, k4⟩ := h.row r hr
    rw [heq] at k2 k3 k4
    exact hfresh r hr ⟨k2.symm, k3.symm, k4.symm⟩
  refine ⟨h.sorted, h.ids, h.starts, h.row, h.known, h.distinct, h.kept, ?_, h.stored, h.opened⟩
  intro c hc
  obtain ⟨last, hheld, hlast⟩ := h.held c hc
  refine ⟨last, ?_, hlast⟩
  have : Held (w.log ++ []) (w.setObject key o).objects true c.start (rows w.db c.chainID) last :=
    hheld.mono (by rw [List.append_nil]; exact h.sorted) fun r hr =>
      Function.update_of_ne (hne r (mem_rows.mp hr).1) _ _
  rw [List.append_nil] at this
  exact this

theorem Inv.setObject (h : Inv cfg w) {key : ChunkKey}
    (hfresh : Fresh w key.chainID key.fromTS key.toTS) (o : Option (List OpTime)) :
    Inv cfg (w.setObject key o) :=
  ⟨h.tables.setObject hfresh o, h.live, h.remembers⟩

theorem commitChunk_ok {db db' : DB} {c : Chunk} (h : db.commitChunk c = .ok db') :
    OpenChain db c.chainID ∧ position db = some (c.chainID, c.fromTS) ∧
      db'.chains = db.chains ∧ db'.chunks = db.chunks ++ [{ c with status := .committed }] ∧
      position db' = some (c.chainID, c.toTS) := by
  unfold DB.commitChunk at h
  by_cases h1 : c.id = "" ∨ c.chainID = "" ∨ c.targetID = "" ∨ c.toTS < c.fromTS
  · rw [if_pos h1] at h
    cases h
  rw [if_neg h1] at h
  cases hst : db.state with
  | none =>
    rw [hst] at h
    cases h
  | some st =>
    rw [hst] at h
    dsimp only at h
    by_cases h2 : st.chainID ≠ c.chainID
    · rw [if_pos h2] at h
      cases h
    rw [if_neg h2] at h
    cases ho : db.openChain c.chainID with
    | error e =>
      rw [ho] at h
      cases h
    | ok _ =>
      rw [ho] at h
      by_cases h3 : st.last.ts ≠ c.fromTS
      · rw [show ∀ g : Unit → Except StoreErr DB, (Except.ok () >>= g) = g () from fun _ => rfl,
          if_pos h3] at h
        cases h
      rw [show ∀ g : Unit → Except StoreErr DB, (Except.ok () >>= g) = g () from fun _ => rfl,
        if_neg h3] at h
      rw [not_not] at h2 h3
      split at h
      · cases h
      · cases h
        refine ⟨openChain_ok ho, ?_, rfl, rfl, ?_⟩
        · rw [position, hst, ← h2, ← h3]
          rfl
        · rw [← h2]
          rfl

/-- **A committed chunk continues its chain** when its object holds its range, with the start entry if
it is the chain's first. -/
theorem Tables.commit (h : Tables cfg w) (hlive : Live w) {c : Chunk} {db : DB}
    (hok : w.db.commitChunk c = .ok db) (hrow : Row cfg.streamID c)
    (hfresh : Fresh w c.chainID c.fromTS c.toTS) (hle : c.fromTS ≤ c.toTS)
    (hend : Ended w.log c.toTS) (hobj : w.objects c.storageKey =
      some (entries w.log (rows w.db c.chainID).isEmpty c.fromTS c.toTS)) :
    Tables cfg { w with db } ∧ Live { w with db } ∧ position db = some (c.chainID, c.toTS) ∧
      rows db c.chainID ≠ [] := by
  obtain ⟨hopen, hpos, hchains, hchunks, hpos'⟩ := commitChunk_ok hok
  have hrows : ∀ id, rows db id =
      rows w.db id ++ if c.chainID = id then [{ c with status := .committed }] else [] := by
    intro id
    rw [rows, hchunks, List.filter_append, rows]
    congr 1
    by_cases hid : c.chainID = id
    · rw [if_pos hid, List.filter_cons_of_pos (by simpa using hid)]
      rfl
    · rw [if_neg hid, List.filter_cons_of_neg (by simpa using hid)]
      rfl
  have hopen' : ∀ i, OpenChain db i → i = c.chainID := by
    intro i hi
    rw [OpenChain, hchains] at hi
    obtain ⟨p, hp⟩ := h.opened i hi
    rw [hpos, Option.some.injEq, Prod.mk.injEq] at hp
    exact hp.1.symm
  have hcommitted := hlive c.chainID hopen
  have hne : rows db c.chainID ≠ [] := by
    rw [hrows, if_pos rfl]
    simp
  refine ⟨⟨h.sorted, ?_, ?_, ?_, ?_, ?_, ?_, ?_, ?_, ?_⟩, ?_, hpos', hne⟩
  · show (db.chains.map _).Nodup
    rw [hchains]
    exact h.ids
  · show ∀ d ∈ db.chains, _
    rw [hchains]
    exact h.starts
  · show ∀ r ∈ db.chunks, _
    rw [hchunks]
    intro r hr
    rcases List.mem_append.mp hr with hr | hr
    · exact h.row r hr
    · rw [List.mem_singleton] at hr
      subst hr
      exact ⟨hrow.1, hrow.2, hrow.3, hrow.4⟩
  · show ∀ r ∈ db.chunks, ∃ d ∈ db.chains, _
    rw [hchunks, hchains]
    intro r hr
    rcases List.mem_append.mp hr with hr | hr
    · exact h.known r hr
    · rw [List.mem_singleton] at hr
      subst hr
      exact h.stored _ _ hpos
  · show db.chunks.Pairwise _
    rw [hchunks, List.pairwise_append]
    refine ⟨h.distinct, List.pairwise_singleton _ _, fun r hr s hs => ?_⟩
    rw [List.mem_singleton] at hs
    subst hs
    exact hfresh r hr
  · show db.chunks.Pairwise _
    rw [hchunks, List.pairwise_append]
    refine ⟨h.kept, List.pairwise_singleton _ _, fun r hr s hs hid _ => ?_⟩
    rw [List.mem_singleton] at hs
    subst hs
    exact hcommitted r (mem_rows.mpr ⟨hr, hid⟩)
  · intro d hd
    have hd : d ∈ w.db.chains := hchains ▸ hd
    obtain ⟨last, hheld, hlast⟩ := h.held d hd
    show ∃ last, Held w.log w.objects true d.start (rows db d.chainID) last ∧
      ∀ p, position db = some (d.chainID, p) → p = last
    rw [hrows, hpos']
    by_cases hid : c.chainID = d.chainID
    · rw [if_pos hid]
      have hfrom := hlast c.fromTS (by rw [← hid]; exact hpos)
      refine ⟨c.toTS, hheld.snoc hfrom (hfrom ▸ hle) hend ?_, fun p hp => ?_⟩
      · rw [← hfrom, ← hid, Bool.true_and]
        exact hobj
      · rw [Option.some.injEq, Prod.mk.injEq] at hp
        exact hp.2.symm
    · rw [if_neg hid, List.append_nil]
      refine ⟨last, hheld, fun p hp => ?_⟩
      rw [Option.some.injEq, Prod.mk.injEq] at hp
      exact absurd hp.1 hid
  · intro i p hp
    have hp : position db = some (i, p) := hp
    rw [hpos', Option.some.injEq, Prod.mk.injEq] at hp
    show ∃ d ∈ db.chains, _
    rw [hchains, ← hp.1]
    exact h.stored _ _ hpos
  · intro i hi
    rw [hopen' i hi]
    exact ⟨c.toTS, hpos'⟩
  · intro i hi r hr
    have hr : r ∈ rows db i := hr
    rw [hopen' i hi, hrows, if_pos rfl] at hr
    rcases List.mem_append.mp hr with hr | hr
    · exact hcommitted r hr
    · rw [List.mem_singleton] at hr
      subst hr
      rfl

end MongoRescue.PITR.Proof
