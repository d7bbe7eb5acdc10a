import MongoRescue.Lib.Errors
import MongoRescue.Lib.Range
import MongoRescue.PITR.Transactions
import Mathlib.Data.List.Nodup
import Mathlib.Data.List.Pairwise

/-!
# The chains of the store

What the tables keep over any calls, and what the accepted calls say about them: `Inv`, with one lemma for
each transaction (`Inv.startChain`, `Inv.endChain`, `Inv.commitChunk`, `Inv.deleteStream`) and one for the
updates of chunk rows (`Inv.updateChunks`). `chains_hold` reads the theorem off it.
-/

namespace MongoRescue.PITR.Store.Proof

open Range (Linked)

/-! ## What the accepted calls did -/

def committedBy (streamID chainID : String) : Call → Option ChunkRow
  | .commitChunk (some c) _ => if c.streamID = streamID ∧ c.chainID = chainID then some c else none
  | _ => none

/-- The chunks ever committed to a chain, in the order of the commits. -/
def committed (log : List Call) (streamID chainID : String) : List ChunkRow :=
  log.filterMap (committedBy streamID chainID)

/-- The chain was started at the position. -/
def Started (log : List Call) (streamID chainID : String) (start : Timestamp) : Prop :=
  ∃ term now, Call.startChain streamID chainID ⟨start, term⟩ now ∈ log

def ranges (cs : List ChunkRow) : List (Timestamp × Timestamp) := cs.map fun c => (c.fromTS, c.toTS)

/-- What never changes in a chunk row. -/
structure Place where
  id : String
  streamID : String
  chainID : String
  fromTS : Timestamp
  toTS : Timestamp
  deriving DecidableEq

def place (c : ChunkRow) : Place := ⟨c.id, c.streamID, c.chainID, c.fromTS, c.toTS⟩

/-- The places of the stored chunks of a chain, in the order in which they were inserted. -/
def stored (t : Tables) (streamID chainID : String) : List Place :=
  (t.chunks.map place).filter fun p => p.streamID = streamID && p.chainID = chainID

section Log

variable {log : List Call} {call : Call} {s c : String} {start : Timestamp}

theorem committed_append :
    committed (log ++ [call]) s c = committed log s c ++ (committedBy s c call).toList := by
  rw [committed, List.filterMap_append]
  cases h : committedBy s c call <;> simp [committed, h]

theorem committed_same (h : ∀ s c, committedBy s c call = none) :
    committed (log ++ [call]) s c = committed log s c := by
  rw [committed_append, h]
  exact List.append_nil _

theorem started_append : Started (log ++ [call]) s c start ↔
    Started log s c start ∨ ∃ term now, call = .startChain s c ⟨start, term⟩ now := by
  unfold Started
  simp only [List.mem_append, List.mem_singleton, exists_or, eq_comm]

theorem started_same (h : ∀ s c start now, call ≠ .startChain s c start now) :
    Started (log ++ [call]) s c start ↔ Started log s c start := by
  rw [started_append]
  refine or_iff_left ?_
  rintro ⟨term, now, hcall⟩
  exact h _ _ _ _ hcall

end Log

/-! ## The invariant -/

structure Inv (log : List Call) (t : Tables) : Prop where
  ids : (t.chains.map fun r => (r.streamID, r.chainID)).Nodup
  oneState : (t.states.map (·.streamID)).Nodup
  oneOpen : t.chains.Pairwise fun a b => a.isOpen → b.isOpen → a.streamID ≠ b.streamID
  /-- The state of a stream with an open chain is where the chain is. -/
  position : ∀ r ∈ t.chains, r.isOpen → ∃ st ∈ t.states, st.streamID = r.streamID ∧
    st.chainID = r.chainID ∧ Linked r.start (ranges (committed log r.streamID r.chainID)) st.last.ts
  started : ∀ r ∈ t.chains, Started log r.streamID r.chainID r.start
  /-- A chain stays as long as its stream. -/
  chain : ∀ s c start, Started log s c start → s ∈ t.streams →
    ∃ r ∈ t.chains, r.streamID = s ∧ r.chainID = c ∧ r.start = start
  live : ∀ r ∈ t.chains, r.streamID ∈ t.streams
  tiles : ∀ s c start, Started log s c start → ∃ stop, Linked start (ranges (committed log s c)) stop
  /-- Chunks are committed to chains that were started. -/
  known : ∀ s c, committed log s c ≠ [] → ∃ start, Started log s c start
  stored : ∀ s c, s ∈ t.streams → stored t s c = (committed log s c).map place
  pruned : ∀ x ∈ t.chunks, x.status = .pruned → x.deletedAt.isSome

variable {t : Tables}

theorem inv_init (streams : List String) : Inv [] { streams } where
  ids := .nil
  oneState := .nil
  oneOpen := .nil
  position := by simp
  started := by simp
  chain := by simp [Started]
  live := by simp
  tiles := by simp [Started]
  known := by simp [committed]
  stored := by simp [Store.Proof.stored, committed]
  pruned := by simp

/-! ## What the transactions do -/

section Transactions

variable {t t' : Tables} {streamID chainID : String} {now : Int}

theorem countP_open_iff : ¬0 < t.chains.countP (fun c => c.streamID = streamID && c.isOpen) ↔
    ∀ r ∈ t.chains, r.streamID = streamID → r.isOpen = false := by
  rw [List.countP_pos_iff]
  simp

theorem streamExists_ok {u : Unit} (h : t.streamExists streamID = .ok u) : streamID ∈ t.streams := by
  unfold Tables.streamExists at h
  split at h
  · assumption
  · cases h

theorem startChain_ok {start : OpTime} (h : t.startChain streamID chainID start now = .ok t') :
    streamID ∈ t.streams ∧ (∀ r ∈ t.chains, r.streamID = streamID → r.isOpen = false) ∧
      (∀ r ∈ t.chains, r.streamID = streamID → r.chainID ≠ chainID) ∧
      t' = Tables.upsertState { t with chains := t.chains ++ [{ streamID, chainID, start := start.ts }] }
        { streamID, chainID, last := start, updatedAt := timeKey now } := by
  unfold Tables.startChain at h
  split at h
  · cases h
  obtain ⟨_, hs, h⟩ := Go.bind_ok h
  split at h
  · cases h
  rename_i hopen
  obtain ⟨t₁, hins, h⟩ := Go.bind_ok h
  cases h
  unfold Tables.insertChain at hins
  split at hins
  · cases hins
  rename_i hdup
  cases hins
  refine ⟨streamExists_ok hs, countP_open_iff.mp hopen, fun r hr hrs hrc => hdup ?_, rfl⟩
  rw [List.any_eq_true]
  exact ⟨r, hr, by simp [hrs, hrc]⟩

theorem openChain_ok {u : Unit} (h : t.openChain streamID chainID = .ok u) :
    ∃ r ∈ t.chains, r.streamID = streamID ∧ r.chainID = chainID ∧ r.isOpen = true := by
  unfold Tables.openChain at h
  split at h
  · cases h
  rename_i r hf
  have hr := List.find?_some hf
  simp only [Bool.and_eq_true, decide_eq_true_eq] at hr
  split at h
  · exact ⟨r, List.mem_of_find?_eq_some hf, hr.1, hr.2, ‹_›⟩
  · cases h

def ended (streamID chainID : String) (stop : Timestamp) (reason : String) (now : Int) (c : ChainRow) :
    ChainRow :=
  if c.streamID = streamID ∧ c.chainID = chainID then
    { c with stop := some stop, endReason := some reason, endedAt := some (timeKey now) }
  else c

theorem endChain_ok {stop : Timestamp} {reason : String}
    (h : t.endChain streamID chainID stop reason now = .ok t') :
    (∃ r ∈ t.chains, r.streamID = streamID ∧ r.chainID = chainID ∧ r.isOpen = true) ∧
      t' = { t with chains := t.chains.map (ended streamID chainID stop reason now) } := by
  unfold Tables.endChain at h
  split at h
  · cases h
  obtain ⟨_, ho, h⟩ := Go.bind_ok h
  exact ⟨openChain_ok ho, (Except.ok.inj h).symm⟩

/-- An accepted `EndChain` leaves the chain ended, and it was open before. -/
theorem endChain_ends {stop : Timestamp} {reason : String}
    (h : t.endChain streamID chainID stop reason now = .ok t') : ∃ r ∈ t.chains, r.isOpen = true ∧
      ∃ r' ∈ t'.chains, r'.streamID = streamID ∧ r'.chainID = chainID ∧ r'.start = r.start ∧
        r'.stop = some stop ∧ r'.endReason = some reason ∧ r'.isOpen = false := by
  obtain ⟨⟨r, hr, hs, hc, ho⟩, rfl⟩ := endChain_ok h
  refine ⟨r, hr, ho, _, List.mem_map_of_mem hr, ?_⟩
  rw [ended, if_pos ⟨hs, hc⟩]
  exact ⟨hs, hc, rfl, rfl, rfl, rfl⟩

/-- The state row once a chunk is committed. -/
def moved (c : ChunkRow) (created : Int) (s : StateRow) : StateRow :=
  if s.streamID = c.streamID then
    { s with last := ⟨c.toTS, c.lastTerm⟩, status := .running, lastError := "", updatedAt := created }
  else s

/-- A chunk that is committed continues the state of its stream, whose chain is open. -/
structure Commits (t : Tables) (c : ChunkRow) (t' : Tables) : Prop where
  range : c.fromTS ≤ c.toTS
  state : ∃ st ∈ t.states, st.streamID = c.streamID ∧ st.last.ts = c.fromTS
  chain : ∃ r ∈ t.chains, r.streamID = c.streamID ∧ r.chainID = c.chainID ∧ r.isOpen = true
  next : ∃ row created, place row = place c ∧ row.status = .committed ∧
    t' = { t with chunks := t.chunks ++ [row], states := t.states.map (moved c created) }

theorem insertChunk_ok {row : ChunkRow} (h : t.insertChunk row = .ok t') :
    t' = { t with chunks := t.chunks ++ [row] } := by
  unfold Tables.insertChunk at h
  repeat' split at h
  all_goals cases h
  rfl

theorem commitChunk_ok {chunk : Option ChunkRow} (h : t.commitChunk chunk now = .ok t') :
    ∃ c, chunk = some c ∧ Commits t c t' := by
  revert h
  fun_cases t.commitChunk chunk now <;> intro h
  case case6 c created _ hrange st hst _ =>
    obtain ⟨_, ho, h⟩ := Go.bind_ok h
    split at h
    · cases h
    rename_i hlast
    obtain ⟨t₁, hins, h⟩ := Go.bind_ok h
    cases h
    rw [insertChunk_ok hins]
    refine ⟨c, rfl, not_lt.mp hrange, ⟨st, List.mem_of_find?_eq_some hst,
      by simpa using List.find?_some hst, not_not.mp hlast⟩, openChain_ok ho, _, created, ?_, ?_, rfl⟩
    · rfl
    · rfl
  all_goals cases h

theorem deleteStream_ok (h : t.deleteStream streamID = .ok t') : t' =
    { streams := t.streams.filter (· ≠ streamID), chains := t.chains.filter (·.streamID ≠ streamID)
      chunks := t.chunks.filter (·.streamID ≠ streamID)
      states := t.states.filter (·.streamID ≠ streamID) } := by
  obtain ⟨_, -, h⟩ := Go.bind_ok h
  dsimp only at h
  split at h <;> cases h
  rfl

/-- An update of chunk rows that keeps their places and prunes only rows that are deleted. -/
structure Updated (t t' : Tables) : Prop where
  same : t' = { t with chunks := t'.chunks }
  places : t'.chunks.map place = t.chunks.map place
  pruned : (∀ y ∈ t.chunks, y.status = .pruned → y.deletedAt.isSome) →
    ∀ x ∈ t'.chunks, x.status = .pruned →
      x.deletedAt.isSome ∧ ∃ y ∈ t.chunks, y.id = x.id ∧ y.deletedAt.isSome

theorem Updated.of_map {g : ChunkRow → ChunkRow} (hplace : ∀ c, place (g c) = place c)
    (hdeleted : ∀ c, c.deletedAt.isSome → (g c).deletedAt.isSome)
    (hpruned : ∀ c, (g c).status = .pruned → c.status = .pruned ∨ c.deletedAt.isSome) :
    Updated t { t with chunks := t.chunks.map g } where
  same := rfl
  places := by
    rw [List.map_map]
    exact List.map_congr_left fun c _ => hplace c
  pruned := by
    intro h x hx hp
    obtain ⟨y, hy, rfl⟩ := List.mem_map.mp hx
    have hd : y.deletedAt.isSome := (hpruned y hp).elim (h y hy) id
    exact ⟨hdeleted y hd, y, hy, congrArg Place.id (hplace y).symm, hd⟩

theorem updateChunks_updated {p : ChunkRow → Bool} {g : ChunkRow → ChunkRow}
    (hplace : ∀ c, place (g c) = place c) (hdeleted : ∀ c, c.deletedAt.isSome → (g c).deletedAt.isSome)
    (hpruned : ∀ c, p c → (g c).status = .pruned → c.status = .pruned ∨ c.deletedAt.isSome) :
    Updated t (t.updateChunks p g).1 := by
  refine .of_map (fun c => ?_) (fun c => ?_) fun c => ?_
  · split
    · exact hplace c
    · rfl
  · split
    · exact hdeleted c
    · exact id
  · split
    · exact hpruned c ‹_›
    · exact .inl

theorem updateOne_ok {p : ChunkRow → Bool} {g : ChunkRow → ChunkRow} (h : t.updateOne p g = .ok t') :
    t' = (t.updateChunks p g).1 := by
  unfold Tables.updateOne at h
  split at h <;> cases h
  rfl

/-- Deleting chunks sets when they were deleted, and leaves their status. -/
theorem deleteChunks_map (ids : List String) (now purgeAfter : Int) : ∃ g : ChunkRow → ChunkRow,
    (∀ c, place (g c) = place c ∧ (c.deletedAt.isSome → (g c).deletedAt.isSome) ∧
      (g c).status = c.status) ∧
    (t.deleteChunks ids now purgeAfter).1 = { t with chunks := t.chunks.map g } := by
  unfold Tables.deleteChunks
  generalize 0 = n
  induction ids generalizing t n with
  | nil => exact ⟨id, fun c => ⟨rfl, id, rfl⟩, by simp⟩
  | cons id ids ih =>
    rw [List.foldl_cons]
    obtain ⟨g, hg, heq⟩ := ih (t := (t.deleteChunk id now purgeAfter).1)
      (n := n + (t.deleteChunk id now purgeAfter).2)
    refine ⟨fun c => g (if c.id = id && c.deletedAt.isNone && c.status ≠ .pruned then
      { c with deletedAt := some (timeKey now), purgeAfter := some (timeKey purgeAfter) } else c),
      fun c => ?_, ?_⟩
    · obtain ⟨h1, h2, h3⟩ := hg (if c.id = id && c.deletedAt.isNone && c.status ≠ .pruned then
        { c with deletedAt := some (timeKey now), purgeAfter := some (timeKey purgeAfter) } else c)
      refine ⟨h1.trans ?_, fun hd => h2 ?_, h3.trans ?_⟩
      · split <;> rfl
      · split
        · rfl
        · exact hd
      · split <;> rfl
    · rw [heq]
      simp [Tables.deleteChunk, Tables.updateChunks, List.map_map, Function.comp_def]

theorem deleteChunks_updated {ids : List String} {purgeAfter : Int} :
    Updated t (t.deleteChunks ids now purgeAfter).1 := by
  obtain ⟨g, hg, heq⟩ := deleteChunks_map (t := t) ids now purgeAfter
  rw [heq]
  exact .of_map (fun c => (hg c).1) (fun c => (hg c).2.1) fun c hp => .inl ((hg c).2.2 ▸ hp)

/-- The calls that update chunk rows. -/
def updates : Call → Bool
  | .supersedeChunks _ _ _ | .deleteChunks _ _ _ | .markChunkPruned _ | .markChunkVerified _ _ _ => true
  | _ => false

theorem exec_updated {call : Call} (hu : updates call = true) (h : call.exec t = .ok t') :
    Updated t t' := by
  cases call with
  | supersedeChunks s c after =>
    cases h
    exact updateChunks_updated (fun _ => rfl) (fun _ => id) fun _ _ hp => by cases hp
  | deleteChunks ids now purgeAfter =>
    cases h
    exact deleteChunks_updated
  | markChunkPruned chunkID =>
    rw [updateOne_ok h]
    refine updateChunks_updated (fun _ => rfl) (fun _ => id) fun c hc _ => ?_
    simp only [Bool.and_eq_true] at hc
    exact .inr hc.1.2
  | markChunkVerified chunkID now verifyError =>
    rw [updateOne_ok h]
    exact updateChunks_updated (fun _ => rfl) (fun _ => id) fun _ _ => .inl
  | _ => cases hu

end Transactions

/-! ## One lemma for each transaction -/

theorem upsertState_spec (row : StateRow) (h : (t.states.map (·.streamID)).Nodup) :
    ((t.upsertState row).states.map (·.streamID)).Nodup ∧
      (∃ st ∈ (t.upsertState row).states, st.streamID = row.streamID ∧ st.chainID = row.chainID ∧
        st.last = row.last) ∧
      (∀ st ∈ t.states, st.streamID ≠ row.streamID → st ∈ (t.upsertState row).states) ∧
      t.upsertState row = { t with states := (t.upsertState row).states } := by
  unfold Tables.upsertState
  by_cases hany : t.states.any (·.streamID = row.streamID) = true
  · rw [if_pos hany]
    obtain ⟨st, hst, hid⟩ := List.any_eq_true.mp hany
    have hid : st.streamID = row.streamID := by simpa using hid
    refine ⟨?_, ⟨_, List.mem_map.mpr ⟨st, hst, rfl⟩, ?_⟩, fun x hx hne => ?_, rfl⟩
    · rw [List.map_map]
      convert h using 1
      refine List.map_congr_left fun x _ => ?_
      simp only [Function.comp_apply]
      split <;> rfl
    · rw [if_pos hid]
      exact ⟨hid, rfl, rfl⟩
    · exact List.mem_map.mpr ⟨x, hx, if_neg hne⟩
  · rw [if_neg hany]
    refine ⟨?_, ⟨row, by simp, rfl, rfl, rfl⟩, fun x hx _ => List.mem_append_left _ hx, rfl⟩
    rw [List.map_append, List.nodup_append]
    refine ⟨h, by simp, fun x hx y hy hxy => hany ?_⟩
    obtain ⟨st, hst, rfl⟩ := List.mem_map.mp hx
    have hy : y = row.streamID := by simpa using hy
    exact List.any_eq_true.mpr ⟨st, hst, by simp [hxy, hy]⟩

namespace Inv

variable {log : List Call} {t t' : Tables} {r : ChainRow} {s c : String} {now : Int}

/-- A chain is known by its IDs. -/
theorem chain_unique (h : Inv log t) {r' : ChainRow} (hr : r ∈ t.chains) (hr' : r' ∈ t.chains)
    (hs : r.streamID = r'.streamID) (hc : r.chainID = r'.chainID) : r = r' :=
  List.inj_on_of_nodup_map h.ids hr hr' (by simp [hs, hc])

theorem state_unique (h : Inv log t) {st st' : StateRow} (hst : st ∈ t.states) (hst' : st' ∈ t.states)
    (hs : st.streamID = st'.streamID) : st = st' :=
  List.inj_on_of_nodup_map h.oneState hst hst' hs

theorem open_unique (h : Inv log t) {r' : ChainRow} (hr : r ∈ t.chains) (hr' : r' ∈ t.chains)
    (ho : r.isOpen = true) (ho' : r'.isOpen = true) (hs : r.streamID = r'.streamID) : r = r' := by
  by_contra hne
  have hsymm : Std.Symm fun a b : ChainRow => a.isOpen → b.isOpen → a.streamID ≠ b.streamID :=
    ⟨fun _ _ hab h1 h2 => (hab h2 h1).symm⟩
  exact h.oneOpen.forall hr hr' hne ho ho' hs

theorem committed_nil (h : Inv log t) (hs : s ∈ t.streams)
    (hnew : ∀ r ∈ t.chains, r.streamID = s → r.chainID ≠ c) : committed log s c = [] := by
  by_contra hne
  obtain ⟨start, hstart⟩ := h.known s c hne
  obtain ⟨r, hr, hrs, hrc, -⟩ := h.chain s c start hstart hs
  exact hnew r hr hrs hrc

theorem startChain {start : OpTime} (h : Inv log t) (hexec : t.startChain s c start now = .ok t') :
    Inv (log ++ [.startChain s c start now]) t' := by
  obtain ⟨hs, hclosed, hnew, rfl⟩ := startChain_ok hexec
  have hc : ∀ s' c', committedBy s' c' (.startChain s c start now) = none := fun _ _ => rfl
  have hnil := h.committed_nil hs hnew
  obtain ⟨hnodup, ⟨st, hst, hsts, hstc, hstl⟩, hkeep, heq⟩ := upsertState_spec
    (t := { t with chains := t.chains ++ [{ streamID := s, chainID := c, start := start.ts }] })
    { streamID := s, chainID := c, last := start, updatedAt := timeKey now } h.oneState
  rw [heq]
  constructor
  case oneState => exact hnodup
  case ids =>
    rw [List.map_append, List.nodup_append]
    refine ⟨h.ids, by simp, fun x hx y hy hxy => ?_⟩
    obtain ⟨r, hr, rfl⟩ := List.mem_map.mp hx
    have hy : y = (s, c) := by simpa using hy
    rw [hy] at hxy
    exact hnew r hr (Prod.mk.inj hxy).1 (Prod.mk.inj hxy).2
  case oneOpen =>
    rw [List.pairwise_append]
    refine ⟨h.oneOpen, by simp, fun x hx y hy hxo _ hxs => ?_⟩
    rw [List.mem_singleton.mp hy] at hxs
    rw [hclosed x hx hxs] at hxo
    cases hxo
  case position =>
    intro r hr ho
    rw [committed_same hc]
    rcases List.mem_append.mp hr with hr | hr
    · obtain ⟨st', hst', hs', hpos⟩ := h.position r hr ho
      refine ⟨st', hkeep st' hst' fun heq => ?_, hs', hpos⟩
      rw [hclosed r hr (hs'.symm.trans heq)] at ho
      cases ho
    · rw [List.mem_singleton.mp hr]
      refine ⟨st, hst, hsts, hstc, ?_⟩
      rw [hnil, hstl]
      exact .nil _
  case started =>
    intro r hr
    rw [started_append]
    rcases List.mem_append.mp hr with hr | hr
    · exact .inl (h.started r hr)
    · rw [List.mem_singleton.mp hr]
      exact .inr ⟨start.term, now, rfl⟩
  case chain =>
    intro s' c' start' hstart hs'
    rcases started_append.mp hstart with hstart | ⟨term, now', hcall⟩
    · obtain ⟨r, hr, hrr⟩ := h.chain s' c' start' hstart hs'
      exact ⟨r, List.mem_append_left _ hr, hrr⟩
    · obtain ⟨rfl, rfl, rfl, -⟩ := Call.startChain.inj hcall
      exact ⟨_, List.mem_append_right _ (List.mem_singleton_self _), rfl, rfl, rfl⟩
  case live =>
    intro r hr
    rcases List.mem_append.mp hr with hr | hr
    · exact h.live r hr
    · rw [List.mem_singleton.mp hr]
      exact hs
  case tiles =>
    intro s' c' start' hstart
    rw [committed_same hc]
    rcases started_append.mp hstart with hstart | ⟨term, now', hcall⟩
    · exact h.tiles s' c' start' hstart
    · obtain ⟨rfl, rfl, -, -⟩ := Call.startChain.inj hcall
      rw [hnil]
      exact ⟨start', .nil _⟩
  case known =>
    intro s' c' hne
    rw [committed_same hc] at hne
    obtain ⟨start', hstart⟩ := h.known s' c' hne
    exact ⟨start', started_append.mpr (.inl hstart)⟩
  case stored =>
    intro s' c' hs'
    rw [committed_same hc]
    exact h.stored s' c' hs'
  case pruned => exact h.pruned

theorem updateChunks {call : Call} (h : Inv log t) (hc : ∀ s c, committedBy s c call = none)
    (hs : ∀ s c start now, call ≠ .startChain s c start now) (hu : Updated t t') :
    Inv (log ++ [call]) t' := by
  rw [hu.same]
  exact
    { ids := h.ids
      oneState := h.oneState
      oneOpen := h.oneOpen
      position := by simpa only [committed_same hc] using h.position
      started := by simpa only [started_same hs] using h.started
      chain := by simpa only [started_same hs] using h.chain
      live := h.live
      tiles := by simpa only [started_same hs, committed_same hc] using h.tiles
      known := by simpa only [started_same hs, committed_same hc] using h.known
      stored := by
        intro s c hsc
        rw [committed_same hc, ← h.stored s c hsc]
        simp only [Store.Proof.stored, hu.places]
      pruned := fun x hx hp => (hu.pruned h.pruned x hx hp).1 }

theorem endChain {stop : Timestamp} {reason : String} (h : Inv log t)
    (hexec : t.endChain s c stop reason now = .ok t') :
    Inv (log ++ [.endChain s c stop reason now]) t' := by
  obtain ⟨-, rfl⟩ := endChain_ok hexec
  have hc : ∀ s' c', committedBy s' c' (.endChain s c stop reason now) = none := fun _ _ => rfl
  have hs : ∀ s' c' start now', Call.endChain s c stop reason now ≠ .startChain s' c' start now' :=
    fun _ _ _ _ hne => by cases hne
  have hkeep : ∀ r, (ended s c stop reason now r).streamID = r.streamID ∧
      (ended s c stop reason now r).chainID = r.chainID ∧ (ended s c stop reason now r).start = r.start := by
    intro r
    unfold ended
    split <;> exact ⟨rfl, rfl, rfl⟩
  have hopen : ∀ r, (ended s c stop reason now r).isOpen = true → r.isOpen = true := by
    intro r
    unfold ended
    split
    · intro ho
      cases ho
    · exact id
  constructor
  case ids =>
    rw [List.map_map]
    convert h.ids using 1
    refine List.map_congr_left fun r _ => ?_
    simp only [Function.comp_apply, hkeep]
  case oneState => exact h.oneState
  case oneOpen =>
    rw [List.pairwise_map]
    refine h.oneOpen.imp fun {a b} hab ha hb => ?_
    rw [(hkeep a).1, (hkeep b).1]
    exact hab (hopen a ha) (hopen b hb)
  case position =>
    intro r' hr' ho
    obtain ⟨r, hr, rfl⟩ := List.mem_map.mp hr'
    rw [committed_same hc, (hkeep r).1, (hkeep r).2.1, (hkeep r).2.2]
    exact h.position r hr (hopen r ho)
  case started =>
    intro r' hr'
    obtain ⟨r, hr, rfl⟩ := List.mem_map.mp hr'
    rw [started_same hs, (hkeep r).1, (hkeep r).2.1, (hkeep r).2.2]
    exact h.started r hr
  case chain =>
    intro s' c' start hstart hs'
    obtain ⟨r, hr, h1, h2, h3⟩ := h.chain s' c' start ((started_same hs).mp hstart) hs'
    exact ⟨_, List.mem_map_of_mem hr, (hkeep r).1.trans h1, (hkeep r).2.1.trans h2, (hkeep r).2.2.trans h3⟩
  case live =>
    intro r' hr'
    obtain ⟨r, hr, rfl⟩ := List.mem_map.mp hr'
    rw [(hkeep r).1]
    exact h.live r hr
  case tiles => simpa only [started_same hs, committed_same hc] using h.tiles
  case known => simpa only [started_same hs, committed_same hc] using h.known
  case stored =>
    intro s' c' hs'
    rw [committed_same hc]
    exact h.stored s' c' hs'
  case pruned => exact h.pruned

theorem committed_other {c : ChunkRow} {s' c' : String} (hne : ¬(c.streamID = s' ∧ c.chainID = c')) :
    committed (log ++ [.commitChunk (some c) now]) s' c' = committed log s' c' := by
  rw [committed_append, committedBy, if_neg hne]
  exact List.append_nil _

theorem committed_this {c : ChunkRow} :
    committed (log ++ [.commitChunk (some c) now]) c.streamID c.chainID =
      committed log c.streamID c.chainID ++ [c] := by
  rw [committed_append, committedBy, if_pos ⟨rfl, rfl⟩]
  rfl

theorem committed_linked {c : ChunkRow} (h : Inv log t) (hx : Commits t c t') (hr : r ∈ t.chains)
    (hs : r.streamID = c.streamID) (hc : r.chainID = c.chainID) :
    Linked r.start (ranges (committed (log ++ [.commitChunk (some c) now]) c.streamID c.chainID)) c.toTS := by
  obtain ⟨r', hr', hs', hc', ho⟩ := hx.chain
  obtain rfl := h.chain_unique hr hr' (hs.trans hs'.symm) (hc.trans hc'.symm)
  obtain ⟨st, hst, hsts, -, hlink⟩ := h.position r hr ho
  obtain ⟨st', hst', hsts', hlast⟩ := hx.state
  obtain rfl := h.state_unique hst hst' (hsts.trans (hs.trans hsts'.symm))
  rw [hlast, hs, hc] at hlink
  rw [committed_this, ranges, List.map_append]
  exact hlink.concat hx.range

theorem commitChunk {chunk : Option ChunkRow} (h : Inv log t) (hexec : t.commitChunk chunk now = .ok t') :
    Inv (log ++ [.commitChunk chunk now]) t' := by
  obtain ⟨c, rfl, hx⟩ := commitChunk_ok hexec
  obtain ⟨r₀, hr₀, hs₀, hc₀, ho₀⟩ := hx.chain
  obtain ⟨row, created, hplace, hstatus, rfl⟩ := hx.next
  have hs : ∀ s' c' start now', Call.commitChunk (some c) now ≠ .startChain s' c' start now' :=
    fun _ _ _ _ hne => by cases hne
  have hmoved : ∀ st, (moved c created st).streamID = st.streamID ∧
      (moved c created st).chainID = st.chainID := by
    intro st
    unfold moved
    split <;> exact ⟨rfl, rfl⟩
  constructor
  case ids => exact h.ids
  case oneOpen => exact h.oneOpen
  case live => exact h.live
  case oneState =>
    rw [List.map_map]
    convert h.oneState using 1
    exact List.map_congr_left fun st _ => (hmoved st).1
  case position =>
    intro r hr ho
    obtain ⟨st, hst, hsts, hstc, hlink⟩ := h.position r hr ho
    refine ⟨moved c created st, List.mem_map_of_mem hst, (hmoved st).1.trans hsts,
      (hmoved st).2.trans hstc, ?_⟩
    by_cases hrs : r.streamID = c.streamID
    · obtain rfl := h.open_unique hr hr₀ ho ho₀ (hrs.trans hs₀.symm)
      have hlast : (moved c created st).last.ts = c.toTS := by
        rw [moved, if_pos (hsts.trans hrs)]
      rw [hlast, hs₀, hc₀]
      exact h.committed_linked hx hr hs₀ hc₀
    · have hsame : moved c created st = st := if_neg fun heq => hrs (hsts.symm.trans heq)
      rw [hsame, committed_other fun heq => hrs heq.1.symm]
      exact hlink
  case started => simpa only [started_same hs] using h.started
  case chain => simpa only [started_same hs] using h.chain
  case tiles =>
    intro s' c' start hstart
    rw [started_same hs] at hstart
    by_cases heq : c.streamID = s' ∧ c.chainID = c'
    · obtain ⟨rfl, rfl⟩ := heq
      obtain ⟨r, hr, hrs, hrc, rfl⟩ := h.chain _ _ start hstart (hs₀ ▸ h.live r₀ hr₀)
      exact ⟨_, h.committed_linked hx hr hrs hrc⟩
    · rw [committed_other heq]
      exact h.tiles s' c' start hstart
  case known =>
    intro s' c' hne
    by_cases heq : c.streamID = s' ∧ c.chainID = c'
    · obtain ⟨rfl, rfl⟩ := heq
      exact ⟨r₀.start, (started_same hs).mpr (hs₀ ▸ hc₀ ▸ h.started r₀ hr₀)⟩
    · rw [committed_other heq] at hne
      obtain ⟨start, hstart⟩ := h.known s' c' hne
      exact ⟨start, (started_same hs).mpr hstart⟩
  case stored =>
    intro s' c' hs'
    have hold := h.stored s' c' hs'
    unfold Store.Proof.stored at hold ⊢
    rw [List.map_append, List.filter_append, hold, List.map_singleton, hplace]
    by_cases heq : c.streamID = s' ∧ c.chainID = c'
    · obtain ⟨rfl, rfl⟩ := heq
      rw [committed_this, List.map_append, List.filter_cons_of_pos (by simp [place])]
      rfl
    · have hnil : [place c].filter (fun p => p.streamID = s' && p.chainID = c') = [] := by
        rw [List.filter_eq_nil_iff]
        intro p hp
        rw [List.mem_singleton.mp hp, Bool.and_eq_true, decide_eq_true_eq, decide_eq_true_eq]
        exact heq
      rw [committed_other heq, hnil, List.append_nil]
  case pruned =>
    intro x hx hp
    rcases List.mem_append.mp hx with hx | hx
    · exact h.pruned x hx hp
    · rw [List.mem_singleton.mp hx, hstatus] at hp
      cases hp

theorem deleteStream (h : Inv log t) (hexec : t.deleteStream s = .ok t') :
    Inv (log ++ [.deleteStream s]) t' := by
  obtain rfl := deleteStream_ok hexec
  have hc : ∀ s' c', committedBy s' c' (.deleteStream s) = none := fun _ _ => rfl
  have hs : ∀ s' c' start now', Call.deleteStream s ≠ .startChain s' c' start now' :=
    fun _ _ _ _ hne => by cases hne
  have hchains : ∀ r ∈ t.chains.filter (·.streamID ≠ s), r ∈ t.chains ∧ r.streamID ≠ s := fun r hr => by
    simpa using hr
  have hstreams : ∀ x ∈ t.streams.filter (· ≠ s), x ∈ t.streams ∧ x ≠ s := fun x hx => by
    simpa using hx
  constructor
  case ids => exact h.ids.sublist (List.filter_sublist.map _)
  case oneState => exact h.oneState.sublist (List.filter_sublist.map _)
  case oneOpen => exact h.oneOpen.sublist List.filter_sublist
  case position =>
    intro r hr ho
    obtain ⟨hr, hne⟩ := hchains r hr
    obtain ⟨st, hst, hsts, hpos⟩ := h.position r hr ho
    rw [committed_same hc]
    exact ⟨st, List.mem_filter.mpr ⟨hst, by simpa [hsts] using hne⟩, hsts, hpos⟩
  case started =>
    intro r hr
    rw [started_same hs]
    exact h.started r (hchains r hr).1
  case chain =>
    intro s' c' start hstart hs'
    obtain ⟨hs', hne⟩ := hstreams s' hs'
    obtain ⟨r, hr, hrs, hrr⟩ := h.chain s' c' start ((started_same hs).mp hstart) hs'
    exact ⟨r, List.mem_filter.mpr ⟨hr, by simpa [hrs] using hne⟩, hrs, hrr⟩
  case live =>
    intro r hr
    obtain ⟨hr, hne⟩ := hchains r hr
    exact List.mem_filter.mpr ⟨h.live r hr, by simpa using hne⟩
  case tiles => simpa only [started_same hs, committed_same hc] using h.tiles
  case known => simpa only [started_same hs, committed_same hc] using h.known
  case stored =>
    intro s' c' hs'
    obtain ⟨hs', hne⟩ := hstreams s' hs'
    rw [committed_same hc, ← h.stored s' c' hs']
    unfold Store.Proof.stored
    rw [List.filter_map, List.filter_map, List.filter_filter]
    congr 1
    refine List.filter_congr fun x _ => ?_
    simp only [Function.comp_apply, place]
    by_cases hx : x.streamID = s'
    · simp [hx, hne]
    · simp [hx]
  case pruned => exact fun x hx => h.pruned x (List.mem_filter.mp hx).1

/-- Every accepted call keeps the invariant. -/
theorem exec {call : Call} (h : Inv log t) (hexec : call.exec t = .ok t') : Inv (log ++ [call]) t' := by
  cases call with
  | startChain s c start now => exact h.startChain hexec
  | endChain s c stop reason now => exact h.endChain hexec
  | commitChunk chunk now => exact h.commitChunk hexec
  | deleteStream s => exact h.deleteStream hexec
  | _ =>
    exact h.updateChunks (fun _ _ => rfl) (fun _ _ _ _ hne => by cases hne) (exec_updated rfl hexec)

end Inv

theorem exec_ok {t' : Tables} {a : Attempt} (h : a.exec t = .ok t') : a.call.exec t = .ok t' := by
  unfold Attempt.exec at h
  split at h
  · cases h
  · exact h

/-- Any calls keep the invariant. -/
theorem inv_run {log : List Call} (h : Inv log t) (attempts : List Attempt) :
    Inv (log ++ (run t attempts).2) (run t attempts).1 := by
  induction attempts generalizing log t with
  | nil => simpa [run] using h
  | cons a rest ih =>
    rw [run]
    rcases ha : a.exec t with e | t'
    · simpa [Attempt.next, ha] using ih h
    · have := ih (h.exec (exec_ok ha))
      simpa [Attempt.next, ha] using this

/-! ## The theorem -/

/-- The tables, and the calls that led to them. -/
structure Coherent (log : List Call) (t : Tables) : Prop where
  /-- A chain is known by its IDs. -/
  unique : ∀ r ∈ t.chains, ∀ r' ∈ t.chains, r.streamID = r'.streamID → r.chainID = r'.chainID → r = r'
  oneOpen : ∀ s, t.chains.countP (fun r => r.streamID = s && r.isOpen) ≤ 1
  /-- The state of a stream names its open chain, and is at the end of the last committed chunk or at the
  chain's start. -/
  position : ∀ r ∈ t.chains, r.isOpen → ∃ st ∈ t.states, st.streamID = r.streamID ∧
    (∀ st' ∈ t.states, st'.streamID = r.streamID → st' = st) ∧ st.chainID = r.chainID ∧
    st.last.ts = ((committed log r.streamID r.chainID).getLast?.map (·.toTS)).getD r.start
  /-- The chunks ever committed to a chain tile an interval from its start. -/
  tiles : ∀ s c start, Started log s c start → ∃ stop, Linked start (ranges (committed log s c)) stop
  known : ∀ s c, committed log s c ≠ [] → ∃ start, Started log s c start
  started : ∀ r ∈ t.chains, Started log r.streamID r.chainID r.start
  /-- A chain that is stored has all of its chunks. -/
  stored : ∀ r ∈ t.chains, stored t r.streamID r.chainID = (committed log r.streamID r.chainID).map place

/-- What a call may change. -/
structure Allowed (t t' : Tables) : Prop where
  /-- A new chunk belongs to a chain that is open. -/
  added : ∀ x ∈ t'.chunks, (∀ y ∈ t.chunks, y.id ≠ x.id) →
    ∃ r ∈ t.chains, r.streamID = x.streamID ∧ r.chainID = x.chainID ∧ r.isOpen
  /-- A pruned chunk was deleted before. -/
  pruned : ∀ x ∈ t'.chunks, x.status = .pruned →
    x.deletedAt.isSome ∧ ∃ y ∈ t.chunks, y.id = x.id ∧ y.deletedAt.isSome

theorem Inv.coherent {log : List Call} (h : Inv log t) : Coherent log t where
  unique := fun _ hr _ hr' => h.chain_unique hr hr'
  oneOpen := by
    intro s
    rw [List.countP_eq_length_filter]
    have hp : (t.chains.filter fun r => r.streamID = s && r.isOpen).Pairwise fun _ _ => False := by
      refine (h.oneOpen.filter _).imp_of_mem fun {a b} ha hb hab => ?_
      simp only [List.mem_filter, Bool.and_eq_true, decide_eq_true_eq] at ha hb
      exact hab ha.2.2 hb.2.2 (ha.2.1.trans hb.2.1.symm)
    rcases hl : t.chains.filter (fun r => r.streamID = s && r.isOpen) with _ | ⟨a, _ | ⟨b, rest⟩⟩
    · rw [hl]
      exact Nat.zero_le _
    · rw [hl]
      exact le_rfl
    · rw [hl] at hp
      exact absurd ((List.pairwise_cons.mp hp).1 b (by simp)) id
  position := by
    intro r hr ho
    obtain ⟨st, hst, hs, hc, hlink⟩ := h.position r hr ho
    refine ⟨st, hst, hs, fun st' hst' hs' => h.state_unique hst' hst (hs'.trans hs.symm), hc, ?_⟩
    rw [hlink.end_eq, ranges, List.getLast?_map, Option.map_map]
    rfl
  tiles := h.tiles
  known := h.known
  started := h.started
  stored := fun r hr => h.stored _ _ (h.live r hr)

namespace Allowed

variable {t t' : Tables}

theorem of_updated (h : Updated t t') (hp : ∀ y ∈ t.chunks, y.status = .pruned → y.deletedAt.isSome) :
    Allowed t t' where
  added := by
    intro x hx hnew
    have hmem : place x ∈ t.chunks.map place := h.places ▸ List.mem_map_of_mem hx
    obtain ⟨y, hy, hxy⟩ := List.mem_map.mp hmem
    exact absurd (congrArg Place.id hxy) (hnew y hy)
  pruned := h.pruned hp

theorem of_subset (h : t'.chunks ⊆ t.chunks)
    (hp : ∀ y ∈ t.chunks, y.status = .pruned → y.deletedAt.isSome) : Allowed t t' where
  added := fun x hx hnew => absurd rfl (hnew x (h hx))
  pruned := fun x hx hxp => ⟨hp x (h hx) hxp, x, h hx, rfl, hp x (h hx) hxp⟩

theorem of_commits {c : ChunkRow} (h : Commits t c t')
    (hp : ∀ y ∈ t.chunks, y.status = .pruned → y.deletedAt.isSome) : Allowed t t' := by
  obtain ⟨row, created, hplace, hstatus, rfl⟩ := h.next
  refine ⟨fun x hx hnew => ?_, fun x hx hxp => ?_⟩
  · rcases List.mem_append.mp hx with hx | hx
    · exact absurd rfl (hnew x hx)
    · obtain ⟨r, hr, hs, hc, ho⟩ := h.chain
      rw [List.mem_singleton.mp hx]
      exact ⟨r, hr, hs.trans (congrArg Place.streamID hplace).symm,
        hc.trans (congrArg Place.chainID hplace).symm, ho⟩
  · rcases List.mem_append.mp hx with hx | hx
    · exact ⟨hp x hx hxp, x, hx, rfl, hp x hx hxp⟩
    · rw [List.mem_singleton.mp hx, hstatus] at hxp
      cases hxp

theorem of_exec {call : Call} (h : call.exec t = .ok t')
    (hp : ∀ y ∈ t.chunks, y.status = .pruned → y.deletedAt.isSome) : Allowed t t' := by
  cases call with
  | startChain s c start now =>
    obtain ⟨-, -, -, rfl⟩ := startChain_ok h
    refine of_subset (fun x hx => ?_) hp
    unfold Tables.upsertState at hx
    split at hx <;> exact hx
  | endChain s c stop reason now =>
    obtain ⟨-, rfl⟩ := endChain_ok h
    exact of_subset (List.Subset.refl _) hp
  | commitChunk chunk now =>
    obtain ⟨c, -, hc⟩ := commitChunk_ok h
    exact of_commits hc hp
  | deleteStream s =>
    obtain rfl := deleteStream_ok h
    exact of_subset (fun x hx => (List.mem_filter.mp hx).1) hp
  | _ => exact of_updated (exec_updated rfl h) hp

end Allowed

/-- **The chains of the store hold together**: for streams without chains and any calls, with or without
failures, and for every further call. -/
theorem chains_hold (streams : List String) (attempts : List Attempt) :
    Coherent (run { streams } attempts).2 (run { streams } attempts).1 ∧
    ∀ a : Attempt, Allowed (run { streams } attempts).1 (a.next (run { streams } attempts).1) ∧
      ∀ e, a.exec (run { streams } attempts).1 = .error e →
        a.next (run { streams } attempts).1 = (run { streams } attempts).1 := by
  have h : Inv (run { streams } attempts).2 (run { streams } attempts).1 := by
    simpa using inv_run (inv_init streams) attempts
  refine ⟨h.coherent, fun a => ⟨?_, fun e he => by rw [Attempt.next, he]⟩⟩
  rcases ha : a.exec (run { streams } attempts).1 with e | t'
  · rw [Attempt.next, ha]
    exact .of_subset (List.Subset.refl _) h.pruned
  · rw [Attempt.next, ha]
    exact .of_exec (exec_ok ha) h.pruned

/-- A chain with two chunks ends, and the next one starts before its end; a chunk that does not continue it
is refused, and so is one of the ended chain. -/
def secondChain : List Attempt :=
  let chunk (id chain : String) (lo hi : UInt32) : Attempt :=
    ⟨.commitChunk (some { id, streamID := "s", chainID := chain, targetID := "t", storageKey := id
                          fromTS := ⟨lo, 0⟩, toTS := ⟨hi, 0⟩ }) 0, false⟩
  [⟨.startChain "s" "c1" ⟨⟨1, 0⟩, 1⟩ 0, false⟩, chunk "a" "c1" 1 5, chunk "b" "c1" 5 9,
   ⟨.endChain "s" "c1" ⟨9, 0⟩ "gap" 0, false⟩, chunk "c" "c1" 9 12,
   ⟨.startChain "s" "c2" ⟨⟨3, 0⟩, 1⟩ 0, false⟩, chunk "d" "c2" 9 12, chunk "e" "c2" 3 6]

theorem chains_hold_second :
    (run { streams := ["s"] } secondChain).1.chunks.map (·.id) = ["a", "b", "e"] ∧
    (run { streams := ["s"] } secondChain).1.chains.map (·.isOpen) = [false, true] ∧
    (run { streams := ["s"] } secondChain).1.states.map (·.last.ts) = [⟨6, 0⟩] ∧
    Coherent (run { streams := ["s"] } secondChain).2 (run { streams := ["s"] } secondChain).1 :=
  ⟨by decide +kernel, by decide +kernel, by decide +kernel, (chains_hold ["s"] secondChain).1⟩

end MongoRescue.PITR.Store.Proof
