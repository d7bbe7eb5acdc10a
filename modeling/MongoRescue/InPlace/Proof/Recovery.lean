import MongoRescue.InPlace.Proof.Steps

/-!
# An in-place restore can be completed or undone

`Inv` holds after every call of a run, whichever saves fail: the swap wrote to an original only after the
safety backups (`restoreInPlace_keeps`), the run drops no clone before every original was swapped, and a
record that no longer asks for the stream to be resumed is stored only once the stream was resumed or an
alert raised.

What the recovery makes of it depends on the record that a stop left. `Covered` says what that record has
to tell: that the swap started, if it wrote to an original and did not get to the end, and that the stream
was enabled, if it is still paused. Then every recovery keeps the clones and resumes the stream
(`failInterruptedRestore_keeps`); otherwise the next one drops the clones (`sweep_drops`) or leaves the
stream as it is (`sweep_ignores`).
-/

namespace MongoRescue.InPlace.Proof

open Conc (Proc)
open Crash (Uses)

section
variable (req : Request) (told : Prop)

/-! ## What a run keeps -/

/-- A record of the restore that `req` asked for. -/
structure Of (rec : RestoreRecord) : Prop where
  databases : rec.ip.databases = req.databases
  clones : rec.pitr.clones = req.clones
  started : rec.ip.swapStarted = true → rec.ip.stage ≠ .restoring

/-- The restore still has its stream to resume. -/
structure Pending (rec : RestoreRecord) : Prop where
  status : rec.status = .inProgress
  resumed : rec.ip.streamResumed = false

/-- Every original holds the restored state. -/
def AllReplaced (s : Server) : Prop := ∀ db ∈ req.databases, db ∈ s.replaced

/-- No clone was dropped. -/
def Kept (s : Server) : Prop := ∀ c ∈ req.clones, c ∈ s.databases

def BackedUp (v : Vault) : Prop := ∀ db ∈ req.databases, Backed v db

/-- The swap wrote to an original only after the safety backups, and the clones are there until every
original holds the restored state. -/
def Sound (s : Server) (v : Vault) : Prop :=
  s.written ≠ [] → BackedUp req v ∧ (AllReplaced req s ∨ Kept req s)

structure Inv (w : World) : Prop where
  of : Of req w.stored
  live : Pending w.stored ∨ Streamed w.stream
  sound : Sound req w.server w.vault

/-- The record says that the swap started, once it wrote to an original, and that the stream was enabled,
while it is paused. -/
structure Tells (rec : RestoreRecord) (w : World) : Prop where
  started : w.server.written = [] ∨ rec.ip.swapStarted = true
  was : Streamed w.stream ∨ rec.ip.stage ≠ .restoring ∧ rec.ip.streamWasEnabled = true

/-- The invariant of a run. With the saves that `told` asks for, the stored record tells enough. -/
structure Live (w : World) : Prop extends Inv req w where
  stored : told → Tells w.stored w

/-- A run before it resumes the stream: `rec` is the record it holds. -/
structure Going (rec : RestoreRecord) (w : World) : Prop where
  of : Of req rec
  pending : Pending rec
  storedOf : Of req w.stored
  storedPending : Pending w.stored
  tells : Tells rec w
  stored : told → Tells w.stored w

/-- A run that ended with the record `rec`, which is to be saved. -/
structure Final (rec : RestoreRecord) (w : World) : Prop where
  of : Of req rec
  inv : Live req told w
  streamed : Streamed w.stream
  unstarted : rec.ip.swapStarted = false → w.server.written = []

/-- Nothing was written yet. -/
def Untouched (s : Server) (_ : Vault) : Prop := s.written = []

structure Swapping (s : Server) (v : Vault) : Prop where
  backed : BackedUp req v
  kept : Kept req s

variable {req told} {rec rec' : RestoreRecord} {w : World} {s : Server} {v : Vault}

theorem Untouched.sound (h : Untouched s v) : Sound req s v := fun hw => absurd h hw

theorem Swapping.sound (h : Swapping req s v) : Sound req s v := fun _ => ⟨h.backed, .inr h.kept⟩

theorem Tells.resumed {t : Stream} (h : Tells rec w) (ht : Streamed w.stream → Streamed t) :
    Tells rec { w with stream := t } :=
  ⟨h.started, h.was.imp_left ht⟩

theorem Going.inv (h : Going req told rec w) (hs : Sound req w.server w.vault) : Live req told w :=
  ⟨⟨h.storedOf, .inl h.storedPending, hs⟩, h.stored⟩

theorem Going.next (h : Going req told rec w) (hof : Of req rec') (hp : Pending rec')
    (ht : Tells rec' w) : Going req told rec' w :=
  ⟨hof, hp, h.storedOf, h.storedPending, ht, h.stored⟩

/-- A record that differs in nothing the recovery looks at. -/
theorem Going.same (h : Going req told rec w) (hof : Of req rec') (hp : Pending rec')
    (hip : rec'.ip.swapStarted = rec.ip.swapStarted ∧ rec'.ip.stage = rec.ip.stage ∧
      rec'.ip.streamWasEnabled = rec.ip.streamWasEnabled) : Going req told rec' w := by
  refine h.next hof hp ⟨?_, ?_⟩
  · rw [hip.1]
    exact h.tells.started
  · rw [hip.2.1, hip.2.2]
    exact h.tells.was

theorem Going.server (h : Going req told rec w) {s : Server} (hs : s.written = w.server.written) :
    Going req told rec { w with server := s } :=
  ⟨h.of, h.pending, h.storedOf, h.storedPending, ⟨hs ▸ h.tells.started, h.tells.was⟩,
    fun ht => ⟨hs ▸ (h.stored ht).started, (h.stored ht).was⟩⟩

theorem Follows.of (h : Follows rec rec') (hof : Of req rec) : Of req rec' where
  databases := h.databases.trans hof.databases
  clones := h.clones.trans hof.clones
  started := by rw [h.swapStarted, h.stage]; exact hof.started

theorem Of.failInPlace (h : Of req rec) (cfg : Config) (msg : String) :
    Of req (failInPlace cfg rec msg) :=
  ⟨h.databases, h.clones, fun _ hs => by cases hs⟩

/-- The saves before the pause and before the swap take effect, and the read before the pause does not
fail. -/
def takesEffect : Op → Env → Prop
  | .save rec, e => rec.ip.stage = .pausing ∨ rec.ip.stage = .swapping → e.fails e.saveErr = false
  | .getStream .minutes, e => e.err = none
  | _, _ => True

def heeds (told : Prop) (o : Op) (w : World) (e : Env) : Prop := timely o w e ∧ (told → takesEffect o e)

/-- The programs of a run, under the invariant. -/
abbrev Runs (req : Request) (told : Prop) {α : Type} (P : World → Prop) (x : Act α)
    (Q : α → World → Prop) : Prop :=
  Crash.Triple device (heeds told) (Live req told) P x Q

variable {R : Server → Vault → Prop}

theorem saveInPlace_going (hR : ∀ s v, R s v → Sound req s v) :
    Runs req told (fun w => Going req told rec w ∧ R w.server w.vault) (saveInPlace rec)
      fun _ w => Going req told rec w ∧ R w.server w.vault := by
  refine .bind (Q := fun _ w => Going req told rec w ∧ R w.server w.vault) (.op fun w e h _ => ?_)
    fun _ => .ret fun w h => h
  have htells : Tells rec { w with stored := rec } := ⟨h.1.tells.started, h.1.tells.was⟩
  have hsaved : Going req told rec { w with stored := rec } :=
    ⟨h.1.of, h.1.pending, h.1.of, h.1.pending, htells, fun _ => htells⟩
  simp only [device]
  split
  · exact ⟨h.1.inv (hR _ _ h.2), h⟩
  · exact ⟨hsaved.inv (hR _ _ h.2), hsaved, h.2⟩

theorem saveInPlace_took (hstage : rec.ip.stage = .pausing ∨ rec.ip.stage = .swapping) :
    Leaves (heeds told) (fun _ => True) (saveInPlace rec) fun _ w => told → w.stored = rec := by
  refine .bind (Q := fun _ w => told → w.stored = rec) (.op fun w e _ hok => ⟨trivial, fun ht => ?_⟩)
    fun _ => .ret fun w h => h
  simp [device, show e.fails e.saveErr = false from hok.2 ht hstage]

theorem saveInPlace_started (hrec : rec.ip.swapStarted = true) :
    Leaves (heeds told) (fun w => told → w.stored.ip.swapStarted = true) (saveInPlace rec)
      fun _ w => told → w.stored.ip.swapStarted = true := by
  refine .bind (Q := fun _ w => told → w.stored.ip.swapStarted = true) (.op fun w e h _ => ?_)
    fun _ => .ret fun w h => h
  refine ⟨trivial, fun ht => ?_⟩
  simp only [device]
  split
  · exact h ht
  · exact hrec

def drops (o : Op) : Prop := ∃ db, o = .dropDatabase db

variable (cs : List String)

theorem uses_dropEach : Uses (S := calls) drops (dropEach cs) := by
  induction cs with
  | nil => trivial
  | cons c cs ih =>
    refine Uses.bind (x := Call.dropDatabase c) ⟨⟨c, rfl⟩, fun _ => trivial⟩ fun r => ?_
    refine Uses.bind ih fun failed => ?_
    rcases r with err | _ <;> trivial

theorem uses_dropPITRClones : Uses (S := calls) drops (dropPITRClones cs) := by
  cases cs with
  | nil => trivial
  | cons c cs =>
    refine Uses.bind (uses_dropEach _) fun failed => ?_
    rcases failed with _ | _ <;> trivial

/-- What a dropped database does not change survives the end of the clones. -/
theorem dropPITRClones_keeps {ok : Op → World → Env → Prop} {I J : World → Prop}
    (hI : ∀ w, J w → I w) (hJ : ∀ w db, J w → J { w with server := w.server.drop db }) :
    Crash.Triple device ok I J (dropPITRClones cs) fun _ => J := by
  refine Uses.triple (uses_dropPITRClones cs) hI fun o w e ho _ hw => ?_
  obtain ⟨db, rfl⟩ := ho
  simp only [device]
  split
  · exact hw
  · exact hJ w db hw

/-- A resume ends with the stream resumed or an alert; the rest of the world is as it was. -/
theorem resumeInPlace_resumes (hR : ∀ s v, R s v → Sound req s v) (cfg : Config) (withBase : Bool) :
    Runs req told (fun w => Going req told rec w ∧ R w.server w.vault) (resumeInPlace cfg rec withBase)
      fun r w => (Live req told w ∧ R w.server w.vault) ∧ Streamed w.stream ∧ Follows rec r.1 := by
  have hkeep : Runs req told (fun w => ((Of req w.stored ∧ Pending w.stored) ∧ R w.server w.vault) ∧
      (told → Tells w.stored w)) (resumeInPlace cfg rec withBase)
      fun _ w => ((Of req w.stored ∧ Pending w.stored) ∧ R w.server w.vault) ∧ (told → Tells w.stored w) :=
    (revives_resumeInPlace cfg rec withBase).keeps
      (fun w h => ⟨⟨h.1.1.1, .inl h.1.1.2, hR _ _ h.1.2⟩, h.2⟩)
      fun w t ht h => ⟨h.1, fun htold => (h.2 htold).resumed ht⟩
  refine .post ((hkeep.and ((resumeInPlace_streamed cfg rec withBase).under fun _ _ _ h => h.1)).pre
    fun w h => ?_) fun r w h => ?_
  · exact ⟨⟨⟨⟨h.1.storedOf, h.1.storedPending⟩, h.2⟩, h.1.stored⟩, h.1.tells.was.imp_right And.right⟩
  · exact ⟨⟨⟨⟨h.1.1.1.1, .inl h.1.1.1.2, hR _ _ h.1.1.2⟩, h.1.2⟩, h.1.1.2⟩, h.2⟩

/-! ## The swap -/

def copies (o : Op) : Prop := part o = .nothing ∨ ∃ db clone, o = .copyDatabase db clone

theorem Only.copies {α : Type} {x : Act α} (h : Only .nothing x) : Uses (S := calls) copies x :=
  Uses.mono h fun _ ho => .inl (ho.elim id id)

variable (snap : PITRCloneSnapshot)

theorem only_dropExtra (colls : List CollectionCount) : Only .nothing (dropExtra snap colls) := by
  induction colls with
  | nil => exact .pure _
  | cons c cs ih =>
    refine .ite ih (.bind (.call (.inl rfl)) fun r => ?_)
    rcases r with err | _
    · exact .pure _
    · exact ih

theorem only_settleCopy : Only .nothing (settleCopy snap) := by
  refine .bind (.call (.inl rfl)) fun r => ?_
  rcases r with err | colls
  · exact .pure _
  · exact .ite (.pure _) (only_dropExtra snap colls)

theorem uses_swapDatabase : Uses (S := calls) copies (swapDatabase snap) := by
  refine Uses.bind (x := Call.collectionCounts snap.clone) ⟨.inl rfl, fun _ => trivial⟩ fun r => ?_
  rcases r with err | colls
  · trivial
  refine Uses.ite trivial ?_
  refine Uses.bind (x := Call.copyDatabase _ _) ⟨.inr ⟨_, _, rfl⟩, fun _ => trivial⟩ fun r => ?_
  rcases r with err | _
  · trivial
  · exact (only_settleCopy snap).copies

theorem swapDatabase_keeps {J : World → Prop}
    (hI : ∀ w, J w → Live req told w) (hJ : ∀ w db, J w → J { w with server := w.server.write db }) :
    Runs req told J (swapDatabase snap) fun _ => J := by
  refine Uses.triple (uses_swapDatabase snap) hI fun o w e ho _ hw => ?_
  rcases ho with ho | ⟨db, clone, rfl⟩
  · rwa [device_nothing ho]
  · simp only [device]
    split
    · exact hw
    · exact hJ w db hw

/-- A swap that has replaced the originals `done`. -/
structure Replacing (req : Request) (done : List String) (s : Server) (v : Vault) : Prop
    extends Swapping req s v where
  done : ∀ db ∈ done, db ∈ s.replaced

/-- Before an original is written, the stored record says that the swap started. -/
structure Looping (req : Request) (told : Prop) (rec : RestoreRecord) (done : List String) (w : World) :
    Prop where
  going : Going req told rec w
  replacing : Replacing req done w.server w.vault
  started : told → w.stored.ip.swapStarted = true

/-- The swap loop: `rec` follows, and without an error every original of the list is replaced. -/
theorem swapEach_keeps (dbs done : List String) (hrec : rec.ip.swapStarted = true) :
    Runs req told (Looping req told rec done) (swapEach rec dbs)
      fun r w => (Going req told r.1 w ∧ r.1.ip.swapStarted = true) ∧ Swapping req w.server w.vault ∧
        (r.2 = none → ∀ db ∈ done ++ dbs, db ∈ w.server.replaced) := by
  induction dbs generalizing rec done with
  | nil =>
    exact .ret fun w h => ⟨⟨h.going, hrec⟩, h.replacing.toSwapping,
      fun _ db hdb => h.replacing.done db (by simpa using hdb)⟩
  | cons db dbs ih =>
    have hinv : ∀ w, Looping req told rec done w → Live req told w :=
      fun w h => h.going.inv h.replacing.sound
    have hstop : ∀ err : Err, Runs req told (Looping req told rec done)
        (pure (rec, some err)) fun r w => (Going req told r.1 w ∧ r.1.ip.swapStarted = true) ∧
          Swapping req w.server w.vault ∧
          (r.2 = none → ∀ d ∈ done ++ db :: dbs, d ∈ w.server.replaced) := fun err =>
      .ret fun w h => ⟨⟨h.going, hrec⟩, h.replacing.toSwapping, fun hn => by cases hn⟩
    refine .bind (Q := fun _ => Looping req told rec done) (.op fun w e h _ => ⟨hinv w h, h⟩) fun r => ?_
    rcases r with c | _
    · exact hstop _
    rcases snapshotOf rec.ip db with _ | snap
    · exact hstop _
    refine .bind (swapDatabase_keeps snap hinv fun w d h => ⟨?_, ⟨⟨h.replacing.backed, h.replacing.kept⟩,
      h.replacing.done⟩, h.started⟩) fun r => ?_
    · exact ⟨h.going.of, h.going.pending, h.going.storedOf, h.going.storedPending,
        ⟨.inr hrec, h.going.tells.was⟩, fun ht => ⟨.inr (h.started ht), (h.going.stored ht).was⟩⟩
    rcases r with err | _
    · exact hstop _
    refine .bind (Q := fun _ => Looping req told rec (done ++ [db])) (.op fun w e h _ => ?_) fun _ => ?_
    · have hr : Replacing req (done ++ [db]) (w.server.replace db) w.vault := by
        refine ⟨⟨h.replacing.backed, h.replacing.kept⟩, fun d hd => ?_⟩
        rcases List.mem_append.mp hd with hd | hd
        · exact List.mem_append_left _ (h.replacing.done d hd)
        · exact List.mem_append_right _ hd
      have hg : Going req told rec { w with server := w.server.replace db } := h.going.server rfl
      exact ⟨hg.inv hr.sound, hg, hr, h.started⟩
    refine .bind (Q := fun r w => (r = rec.setIP { rec.ip with swapped := rec.ip.swapped ++ [db] }) ∧
      Looping req told r (done ++ [db]) w) ?_ fun rec' => ?_
    · refine .bind (((saveInPlace_going (R := Replacing req (done ++ [db])) fun s v h => h.sound).and
        (saveInPlace_started ?_)).pre fun w h => ⟨⟨?_, h.replacing⟩, h.started⟩)
        fun _ => .ret fun w h => ⟨rfl, h.1.1, h.1.2, h.2⟩
      · exact hrec
      · exact h.going.same ⟨h.going.of.databases, h.going.of.clones, h.going.of.started⟩
          ⟨h.going.pending.status, h.going.pending.resumed⟩ ⟨rfl, rfl, rfl⟩
    · refine .assume fun hr => ?_
      subst hr
      refine .post (ih (done ++ [db]) ?_) fun r w h => ⟨h.1, h.2.1, fun hn => ?_⟩
      · exact hrec
      · simpa using h.2.2 hn

/-! ## The run -/

/-- Every original was replaced. -/
def Replaced (req : Request) (s : Server) (v : Vault) : Prop := BackedUp req v ∧ AllReplaced req s

theorem Replaced.sound (h : Replaced req s v) : Sound req s v := fun _ => ⟨h.1, .inl h.2⟩

theorem Going.warn (h : Going req told rec w) (text : String) : Going req told (addInPlaceWarning rec text) w :=
  h.same ⟨h.of.databases, h.of.clones, h.of.started⟩ ⟨h.pending.status, h.pending.resumed⟩
    ⟨rfl, rfl, rfl⟩

variable (cfg : Config)

theorem finishSwapped_final (hrec : rec.ip.swapStarted = true) :
    Runs req told (fun w => Going req told rec w ∧ Replaced req w.server w.vault) (finishSwapped cfg rec)
      fun r w => Final req told r.1 w := by
  intro w₀ h₀
  refine Crash.Triple.bind (resumeInPlace_resumes (fun _ _ h => h.sound) cfg true) (fun r => ?_) w₀ h₀
  refine .ret fun w h => ?_
  obtain ⟨⟨hinv, _⟩, hs, hf⟩ := h
  have hof := hf.of h₀.1.of
  have hst : r.1.ip.swapStarted = true := hf.swapStarted.trans hrec
  dsimp only
  split
  · exact ⟨⟨hof.databases, hof.clones, fun _ h => by cases h⟩, hinv, hs,
      fun h => absurd (hst.symm.trans h) (by simp)⟩
  · exact ⟨⟨hof.databases, hof.clones, fun _ h => by cases h⟩, hinv, hs,
      fun h => absurd (hst.symm.trans h) (by simp)⟩

theorem finishClones_final (hrec : rec.ip.swapStarted = true) :
    Runs req told (fun w => Going req told rec w ∧ Replaced req w.server w.vault) (finishClones cfg rec)
      fun r w => Final req told r.1 w := by
  have hwarn : ∀ text, Runs req told (fun w => Going req told rec w ∧ Replaced req w.server w.vault)
      (finishSwapped cfg (addInPlaceWarning rec text)) fun r w => Final req told r.1 w := fun text =>
    .pre (finishSwapped_final cfg (by exact hrec)) fun w h => ⟨h.1.warn text, h.2⟩
  refine .ite (fun _ => hwarn _) fun _ => ?_
  refine .bind (dropPITRClones_keeps _ (fun w h => h.1.inv h.2.sound) fun w db h =>
    ⟨h.1.server rfl, h.2⟩) fun note => ?_
  exact .ite (fun _ => hwarn _) fun _ => finishSwapped_final cfg hrec

theorem swapPITRClones_keeps (hrec : rec.ip.swapStarted = true) :
    Runs req told (Looping req told rec []) (swapPITRClones rec)
      fun r w => (Going req told r.1 w ∧ r.1.ip.swapStarted = true) ∧ Swapping req w.server w.vault ∧
        (r.2 = none → AllReplaced req w.server) := by
  refine .bind (Q := fun _ => Looping req told rec [])
    (.op fun w e h _ => ⟨h.going.inv h.replacing.sound, h⟩) fun r => ?_
  rcases r with err | _
  · exact .ret fun w h => ⟨⟨h.going, hrec⟩, h.replacing.toSwapping, fun hn => by cases hn⟩
  · refine .pre (P := fun w => rec.ip.databases = req.databases ∧ Looping req told rec [] w)
      (.assume fun hdb => ?_) fun w h => ⟨h.going.of.databases, h⟩
    refine (swapEach_keeps rec.ip.databases [] hrec).post fun r w h => ⟨h.1, h.2.1, fun hn => ?_⟩
    rw [AllReplaced, ← hdb]
    simpa using h.2.2 hn

theorem swapInPlace_final :
    Runs req told (fun w => Going req told rec w ∧ Swapping req w.server w.vault) (swapInPlace cfg rec)
      fun r w => Final req told r.1 w := by
  refine .bind (((saveInPlace_going fun s v h => h.sound).and (saveInPlace_took (.inr rfl))).pre
    fun w h => ⟨⟨h.1.next ?_ ?_ ⟨.inr rfl, h.1.tells.was.imp_right ?_⟩, h.2⟩, trivial⟩) fun _ => ?_
  · exact ⟨h.1.of.databases, h.1.of.clones, fun _ hs => by cases hs⟩
  · exact ⟨h.1.pending.status, h.1.pending.resumed⟩
  · exact fun hw => ⟨fun hs => (by cases hs), hw.2⟩
  refine .bind ((swapPITRClones_keeps rfl).pre fun w h => ⟨h.1.1, ⟨h.1.2, fun d hd => by cases hd⟩,
    fun ht => by rw [h.2 ht]; rfl⟩) fun r => ?_
  obtain ⟨rec', err⟩ := r
  have hnext : ∀ w, (Going req told rec' w ∧ rec'.ip.swapStarted = true) →
      Going req told (rec'.setIP { rec'.ip with stage := .resuming }) w := fun w h =>
    h.1.next ⟨h.1.of.databases, h.1.of.clones, fun _ hs => by cases hs⟩
      ⟨h.1.pending.status, h.1.pending.resumed⟩
      ⟨h.1.tells.started, h.1.tells.was.imp_right fun hw => ⟨fun hs => (by cases hs), hw.2⟩⟩
  rcases err with _ | x
  · intro w h
    refine (finishClones_final cfg ?_) w ⟨hnext w h.1, h.2.1.backed, h.2.2 rfl⟩
    exact h.1.2
  · intro w₀ h₀
    refine Crash.Triple.bind (resumeInPlace_resumes (fun _ _ h => Swapping.sound h) cfg true) (fun r => ?_) w₀
      ⟨hnext w₀ h₀.1, h₀.2.1⟩
    refine .ret fun w h => ?_
    obtain ⟨⟨hinv, _⟩, hs, hf⟩ := h
    have hst : r.1.ip.swapStarted = true := hf.swapStarted.trans h₀.1.2
    exact ⟨(hf.of (hnext w₀ h₀.1).of).failInPlace cfg _, hinv, hs,
      fun h => absurd (hst.symm.trans h) (by simp)⟩

/-- A run that failed before the swap drops its clones. -/
theorem dropPITRClones_final : Runs req told
    (fun w => Live req told w ∧ Streamed w.stream ∧ Untouched w.server w.vault) (dropPITRClones cs)
    fun _ w => Live req told w ∧ Streamed w.stream ∧ Untouched w.server w.vault :=
  dropPITRClones_keeps cs (fun _ h => h.1) fun _ _ h =>
    ⟨⟨⟨h.1.of, h.1.live, Untouched.sound h.2.2⟩, fun _ => ⟨.inl h.2.2, .inl h.2.1⟩⟩, h.2.1, h.2.2⟩

/-- The stored record says whether the stream is enabled. -/
def Noted (w : World) : Prop :=
  w.stream.enabled = true → w.stored.ip.stage ≠ .restoring ∧ w.stored.ip.streamWasEnabled = true

theorem Tells.paused (h : Tells w.stored w) (hn : Noted w) :
    Tells w.stored { w with stream := w.stream.update false } := by
  refine ⟨h.started, ?_⟩
  by_cases he : w.stream.enabled = true
  · exact .inr (hn he)
  · refine h.was.imp_left fun hs hp => .inr ((hs ?_).resolve_left he)
    simpa [Stream.update, he] using hp

theorem pauseStream_keeps (hR : ∀ s v, R s v → Sound req s v) : Runs req told
    (fun w => (((Of req w.stored ∧ Pending w.stored) ∧ R w.server w.vault) ∧
      (told → Tells w.stored w ∧ Noted w)) ∧ Streamed w.stream) pauseStream
    fun r w => (((Of req w.stored ∧ Pending w.stored) ∧ R w.server w.vault) ∧
      (told → Tells w.stored w ∧ Noted w)) ∧ (Streamed w.stream ∨ r.1 = true) := by
  refine Crash.Triple.and ?_ pauseStream_streamed
  refine Uses.triple uses_pauseStream (fun w h => ⟨⟨h.1.1.1, .inl h.1.1.2, hR _ _ h.1.2⟩,
    fun ht => (h.2 ht).1⟩) fun o w e ho _ h => ?_
  rcases ho with ho | ⟨l, rfl⟩
  · rwa [device_nothing ho]
  · simp only [device]
    split
    · exact h
    · exact ⟨h.1, fun ht => ⟨(h.2 ht).1.paused (h.2 ht).2, fun he => by cases he⟩⟩

/-- The safety backups were taken, and nothing else happened to the servers. -/
structure Ready (req : Request) (s : Server) (v : Vault) : Prop extends Swapping req s v where
  untouched : Untouched s v

theorem saveInPlace_stream (K : Stream → Prop) : Leaves (heeds told) (fun w => K w.stream)
    (saveInPlace rec) fun _ w => K w.stream :=
  (only_saveInPlace rec).keeps (fun _ _ => trivial) fun w w' h hw => by rwa [h.stream (by decide)]

variable (planned : Bool)

theorem pauseInPlace_final :
    Runs req told (fun w => (Going req told rec w ∧ Ready req w.server w.vault) ∧ Streamed w.stream)
      (pauseInPlace cfg rec planned) fun r w => Final req told r.1 w := by
  refine .pre (P := fun w => (Of req rec ∧ Pending rec) ∧ (((Of req w.stored ∧ Pending w.stored) ∧
    Ready req w.server w.vault) ∧ Streamed w.stream)) (.assume fun hr => ?_) fun w h =>
    ⟨⟨h.1.1.of, h.1.1.pending⟩, ⟨⟨h.1.1.storedOf, h.1.1.storedPending⟩, h.1.2⟩, h.2⟩
  have hgo : ∀ was w, (Of req w.stored ∧ Pending w.stored) ∧ Ready req w.server w.vault →
      Streamed w.stream ∨ was = true → (told → Tells w.stored w) →
      Going req told (rec.setIP { rec.ip with stage := .pausing, streamWasEnabled := was }) w :=
    fun was w hw h hst => ⟨⟨hr.1.databases, hr.1.clones, fun _ hs => by cases hs⟩,
      ⟨hr.2.status, hr.2.resumed⟩, hw.1.1, hw.1.2,
      ⟨.inl hw.2.untouched, h.imp_right fun h => ⟨fun hs => (by cases hs), h⟩⟩, hst⟩
  -- nothing was written and the stream was not paused, so any record tells enough
  have htells : ∀ w : World, Ready req w.server w.vault → Streamed w.stream → ∀ r, Tells r w :=
    fun w hw hs r => ⟨.inl hw.untouched, .inl hs⟩
  refine .bind (Q := fun st w => ((Of req w.stored ∧ Pending w.stored) ∧ Ready req w.server w.vault) ∧
    Streamed w.stream ∧ (told → w.stream.enabled = true → streamState planned st = true))
    (.op fun w e h hok => ⟨⟨⟨h.1.1.1, .inl h.1.1.2, h.1.2.sound⟩, fun _ => htells w h.1.2 h.2 _⟩,
      h.1, h.2, fun ht he => ?_⟩) fun st => ?_
  · have hread : e.err = none := hok.2 ht
    simpa [device, hread, result, streamState] using he
  refine .bind ((((saveInPlace_going (R := Ready req) fun _ _ h => h.sound).and
    (saveInPlace_stream fun t => Streamed t ∧ (told → t.enabled = true →
      streamState planned st = true))).and (saveInPlace_took (.inl rfl))).pre fun w h =>
    ⟨⟨⟨hgo _ w h.1 (.inl h.2.1) fun _ => htells w h.1.2 h.2.1 _, h.1.2⟩, h.2⟩, trivial⟩) fun _ => ?_
  refine .bind ((pauseStream_keeps (R := Ready req) fun _ _ h => h.sound).pre fun w h =>
    ⟨⟨⟨⟨h.1.1.1.storedOf, h.1.1.1.storedPending⟩, h.1.1.2⟩, fun ht => ⟨h.1.1.1.stored ht, ?_⟩⟩,
      h.1.2.1⟩) fun r => ?_
  · intro he
    rw [h.2 ht]
    exact ⟨fun hs => (by cases hs), h.1.2.2 ht he⟩
  obtain ⟨was, err⟩ := r
  -- what the record says now covers a stream that was paused
  have hpaused : ∀ w, (Of req w.stored ∧ Pending w.stored) ∧ Ready req w.server w.vault →
      Streamed w.stream ∨ was = true → (told → Tells w.stored w) →
      Going req told (rec.setIP { rec.ip with
        stage := .pausing
        streamWasEnabled := streamState planned st || was }) w :=
    fun w hw h => hgo _ w hw (h.imp id fun h => by simp [h])
  rcases err with _ | x
  · refine .bind ((saveInPlace_going (R := Ready req) fun _ _ h => h.sound).pre fun w h =>
      ⟨(hpaused w h.1.1 h.2 fun ht => (h.1.2 ht).1).same ?_ ?_ ⟨rfl, rfl, rfl⟩, h.1.1.2⟩)
      fun _ => (swapInPlace_final cfg).pre fun w h => ⟨h.1, h.2.toSwapping⟩
    · exact ⟨hr.1.databases, hr.1.clones, fun _ hs => by cases hs⟩
    · exact ⟨hr.2.status, hr.2.resumed⟩
  · refine .bind ((resumeInPlace_resumes (R := Ready req) (fun _ _ h => h.sound) cfg false).pre fun w h =>
      ⟨hpaused w h.1.1 h.2 fun ht => (h.1.2 ht).1, h.1.1.2⟩) fun r => ?_
    refine .pre (P := fun w => Follows _ r.1 ∧ (Live req told w ∧ Streamed w.stream ∧
      Untouched w.server w.vault)) (.assume fun hf => ?_) fun w h =>
      ⟨h.2.2, h.1.1, h.2.1, h.1.2.untouched⟩
    refine .bind (dropPITRClones_final _) fun dropped => .ret fun w h => ?_
    refine ⟨(hf.of ⟨hr.1.databases, hr.1.clones, fun _ hs => ?_⟩).failInPlace cfg _, h.1, h.2.1, fun _ => h.2.2⟩
    cases hs

/-- Before the swap, with completed backups of the databases `done`. -/
structure Backing (req : Request) (done : List String) (s : Server) (v : Vault) : Prop where
  untouched : Untouched s v
  kept : Kept req s
  backed : ∀ db ∈ done, Backed v db

theorem Backing.sound {done : List String} (h : Backing req done s v) : Sound req s v :=
  Untouched.sound h.untouched

theorem safetyBackup_keeps (db : String) (done : List String) :
    Runs req told (fun w => (Going req told rec w ∧ Backing req done w.server w.vault) ∧ Streamed w.stream)
      (safetyBackup cfg db) fun r w => (Going req told rec w ∧ Backing req done w.server w.vault) ∧
        Streamed w.stream ∧ (r.2 = none → Backed w.vault db) := by
  have hkeep : Runs req told (fun w => Going req told rec w ∧ (w.server.written = [] ∧ Kept req w.server) ∧
      Streamed w.stream) (safetyBackup cfg db) fun _ w => Going req told rec w ∧
      (w.server.written = [] ∧ Kept req w.server) ∧ Streamed w.stream := by
    refine (only_safetyBackup cfg db).keeps (fun w h => h.1.inv (Untouched.sound h.2.1.1))
      fun w w' h hw => ?_
    obtain ⟨stored, server, stream, vault⟩ := w
    obtain ⟨stored', server', stream', vault'⟩ := w'
    obtain ⟨rfl, rfl, rfl⟩ : stored' = stored ∧ server' = server ∧ stream' = stream :=
      ⟨h.stored (by decide), h.server (by decide), h.stream (by decide)⟩
    exact ⟨⟨hw.1.of, hw.1.pending, hw.1.storedOf, hw.1.storedPending, ⟨hw.1.tells.started, hw.1.tells.was⟩,
      fun ht => ⟨(hw.1.stored ht).started, (hw.1.stored ht).was⟩⟩, hw.2⟩
  refine .post (((hkeep.and (keeps_backed _ done)).and (safetyBackup_backed cfg db)).pre fun w h =>
    ⟨⟨⟨h.1.1, ⟨h.1.2.untouched, h.1.2.kept⟩, h.2⟩, h.1.2.backed⟩, trivial⟩) fun r w h => ?_
  exact ⟨⟨h.1.1.1, h.1.1.2.1.1, h.1.1.2.1.2, h.1.2⟩, h.1.1.2.2, h.2⟩

theorem recordSafety_keeps (id : String) (hR : ∀ s v, R s v → Sound req s v) :
    Runs req told (fun w => (Going req told rec w ∧ R w.server w.vault) ∧ Streamed w.stream) (recordSafety rec id)
      fun r w => (Going req told r w ∧ R w.server w.vault) ∧ Streamed w.stream := by
  refine .ite (fun _ => .ret fun w h => h) fun _ => ?_
  refine .bind (((saveInPlace_going hR).and (saveInPlace_stream Streamed)).pre fun w h => ⟨⟨?_, h.1.2⟩, h.2⟩)
    fun _ => .ret fun w h => h
  exact h.1.1.same ⟨h.1.1.of.databases, h.1.1.of.clones, h.1.1.of.started⟩
    ⟨h.1.1.pending.status, h.1.1.pending.resumed⟩ ⟨rfl, rfl, rfl⟩

theorem safetyBackups_keeps (dbs done : List String) :
    Runs req told (fun w => (Going req told rec w ∧ Backing req done w.server w.vault) ∧ Streamed w.stream)
      (safetyBackups cfg rec dbs) fun r w => (Going req told r.1 w ∧ Streamed w.stream) ∧
        ∃ all, Backing req all w.server w.vault ∧ (r.2 = none → all = done ++ dbs) := by
  induction dbs generalizing rec done with
  | nil => exact .ret fun w h => ⟨⟨h.1.1, h.2⟩, done, h.1.2, fun _ => by simp⟩
  | cons db dbs ih =>
    refine .bind (safetyBackup_keeps cfg db done) fun r => ?_
    obtain ⟨id, err⟩ := r
    rcases err with _ | x
    · refine .bind ((recordSafety_keeps id fun _ _ h => h.sound).pre (P := fun w => (Going req told rec w ∧
        Backing req (done ++ [db]) w.server w.vault) ∧ Streamed w.stream) fun w h =>
        ⟨⟨h.1.1, h.1.2.untouched, h.1.2.kept, ?_⟩, h.2.1⟩) fun rec' => ?_
      · intro d hd
        rcases List.mem_append.mp hd with hd | hd
        · exact h.1.2.backed d hd
        · exact List.mem_singleton.mp hd ▸ h.2.2 rfl
      · refine (ih (done ++ [db])).post fun r w h => ?_
        simpa using h
    · refine .bind ((recordSafety_keeps id fun _ _ h => h.sound).pre (P := fun w => (Going req told rec w ∧
        Backing req done w.server w.vault) ∧ Streamed w.stream) fun w h => ⟨h.1, h.2.1⟩) fun rec' => ?_
      exact .ret fun w h => ⟨⟨h.1.1, h.2⟩, done, h.1.2, fun hn => by cases hn⟩

theorem backUpInPlace_final :
    Runs req told (fun w => (Going req told rec w ∧ Backing req [] w.server w.vault) ∧ Streamed w.stream)
      (backUpInPlace cfg rec planned) fun r w => Final req told r.1 w := by
  refine .pre (P := fun w => Of req rec ∧ ((Going req told rec w ∧ Backing req [] w.server w.vault) ∧
    Streamed w.stream)) (.assume fun hof => ?_) fun w h => ⟨h.1.1.of, h⟩
  refine .bind (((saveInPlace_going fun _ _ h => h.sound).and (saveInPlace_stream Streamed)).pre fun w h =>
    ⟨⟨h.1.1.next ⟨hof.databases, hof.clones, fun _ hs => by cases hs⟩ ?_
      ⟨.inl h.1.2.untouched, .inl h.2⟩, h.1.2⟩, h.2⟩) fun _ => ?_
  · exact ⟨h.1.1.pending.status, h.1.1.pending.resumed⟩
  refine .bind (safetyBackups_keeps cfg _ []) fun r => ?_
  obtain ⟨rec', failed⟩ := r
  rcases failed with _ | ⟨db, x⟩
  · refine (pauseInPlace_final cfg planned).pre fun w h => ?_
    obtain ⟨⟨hg, hs⟩, all, hb, hall⟩ := h
    rw [hall rfl] at hb
    refine ⟨⟨hg, ⟨fun d hd => hb.backed d ?_, hb.kept⟩, hb.untouched⟩, hs⟩
    rw [← hof.databases] at hd
    exact hd
  · refine .pre (P := fun w => Of req rec' ∧ (Live req told w ∧ Streamed w.stream ∧
      Untouched w.server w.vault)) (.assume fun hof' => ?_) fun w h => ?_
    · refine .bind (dropPITRClones_final _) fun dropped => .ret fun w h => ?_
      exact ⟨hof'.failInPlace cfg _, h.1, h.2.1, fun _ => h.2.2⟩
    · obtain ⟨⟨hg, hs⟩, all, hb, _⟩ := h
      exact ⟨hg.of, hg.inv hb.sound, hs, hb.untouched⟩

/-- The start of the in-place steps: the restore into the clones ended. -/
structure Started (req : Request) (runErr : Option Err) (status : RestoreStatus) (w : World) : Prop where
  stored : w.stored = preparePITR req
  written : w.server.written = []
  clones : runErr = none → status = .completed → Kept req w.server
  paused : w.stream.paused = false
  alerts : w.stream.alerts = []

theorem Started.streamed {runErr : Option Err} {status : RestoreStatus}
    (h : Started req runErr status w) : Streamed w.stream :=
  fun hp => absurd (h.paused.symm.trans hp) (by simp)

theorem of_preparePITR : Of req (preparePITR req) := ⟨rfl, rfl, fun h => by cases h⟩

theorem pending_preparePITR : Pending (preparePITR req) := ⟨rfl, rfl⟩

def clonesRestored (req : Request) (status : RestoreStatus) (message warning : String) : RestoreRecord :=
  { preparePITR req with status := status, errorMessage := message, warning := warning }

theorem Started.inv {runErr : Option Err} {status : RestoreStatus} (h : Started req runErr status w) :
    Live req told w where
  of := h.stored ▸ of_preparePITR
  live := .inl (h.stored ▸ pending_preparePITR)
  sound := Untouched.sound h.written
  stored := fun _ => ⟨.inl h.written, .inl h.streamed⟩

theorem snapshotPITRClones_stays {J : World → Prop} (hI : ∀ w, J w → Live req told w) :
    Runs req told J (snapshotPITRClones rec) fun r w => (∀ rec', r = .ok rec' →
      ∃ snaps, rec' = rec.setIP { rec.ip with snapshots := snaps }) ∧ J w := by
  refine ((only_snapshotEach _ _).stays hI).bind fun r => ?_
  rcases r with err | snaps
  · exact .ret fun w h => ⟨fun rec' hr => (by cases hr), h⟩
  · exact .ret fun w h => ⟨fun rec' hr => ⟨snaps, (by cases hr; rfl)⟩, h⟩

theorem finishPITRInPlace_final (runErr : Option Err)
    (status : RestoreStatus) (message warning : String) : Runs req told (Started req runErr status)
      (finishPITRInPlace cfg (clonesRestored req status message warning) runErr planned)
      fun r w => Final req told r.1 w := by
  have hinv : ∀ w, Started req runErr status w → Live req told w := fun w h => h.inv
  refine .ite (fun _ => ?_) fun hrun => ?_
  · exact .ret fun w h => ⟨⟨rfl, rfl, fun hs => by cases hs⟩, hinv w h, h.streamed, fun _ => h.written⟩
  have hcompl : runErr = none ∧ status = .completed := by
    simpa [clonesRestored, not_or] using hrun
  refine .bind (snapshotPITRClones_stays hinv) fun r => ?_
  rcases r with err | rec'
  · refine .bind ((dropPITRClones_final _).pre fun w h =>
      ⟨hinv w h.2, h.2.streamed, h.2.written⟩) fun dropped => .ret fun w h => ?_
    exact ⟨⟨rfl, rfl, fun hs => by cases hs⟩, h.1, h.2.1, fun _ => h.2.2⟩
  · refine .pre (.assume fun hr => ?_) fun w h => h
    obtain ⟨snaps, rfl⟩ := hr rec' rfl
    refine .bind (((saveInPlace_going fun _ _ h => h.sound).and (saveInPlace_stream Streamed)).pre fun w h =>
      ⟨⟨?_, ⟨h.written, h.clones hcompl.1 hcompl.2, fun _ hd => by cases hd⟩⟩, h.streamed⟩)
      fun _ => backUpInPlace_final cfg planned
    have hst : Of req w.stored ∧ Pending w.stored := h.stored ▸ ⟨of_preparePITR, pending_preparePITR⟩
    exact ⟨⟨rfl, rfl, fun hs => by cases hs⟩, ⟨rfl, rfl⟩, hst.1, hst.2, ⟨.inl h.written, .inl h.streamed⟩,
      (hinv w h).stored⟩

/-! ## The final save -/

theorem Final.saved (h : Final req told rec w) (hof : Of req rec')
    (hst : rec'.ip.swapStarted = rec.ip.swapStarted) : Final req told rec { w with stored := rec' } := by
  refine ⟨h.of, ⟨⟨hof, .inr h.streamed, h.inv.sound⟩, fun _ => ⟨?_, .inl h.streamed⟩⟩, h.streamed, h.unstarted⟩
  cases hrec : rec.ip.swapStarted with
  | true => exact .inr (hst.trans hrec)
  | false => exact .inl (h.unstarted hrec)

theorem Final.resumed {t : Stream} (h : Final req told rec w) (ht : Streamed w.stream → Streamed t) :
    Final req told rec { w with stream := t } :=
  ⟨h.of, ⟨⟨h.inv.of, .inr (ht h.streamed), h.inv.sound⟩, fun htold => (h.inv.stored htold).resumed ht⟩,
    ht h.streamed, h.unstarted⟩

theorem saveFinal_final (n : Nat) : Runs req told (Final req told rec) (saveFinal (Call.save rec) n)
    fun _ => Final req told rec := by
  have hsave : Runs req told (Final req told rec) (Call.save rec) fun _ => Final req told rec := by
    refine .op fun w e h _ => ?_
    simp only [device]
    split
    · exact ⟨h.inv, h⟩
    · exact ⟨(h.saved h.of rfl).inv, h.saved h.of rfl⟩
  induction n with
  | zero => exact hsave
  | succ n ih =>
    refine hsave.bind fun r => ?_
    rcases r with err | _
    · refine .bind (Q := fun _ => Final req told rec) (.op fun w e h _ => ⟨h.inv, h⟩) fun stop => ?_
      exact .ite (fun _ => .ret fun w h => h) fun _ => ih
    · exact .ret fun w h => h

/-- The record tells the recovery to drop the clones. -/
def Drops (rec : RestoreRecord) : Prop := rec.ip.stage = .restoring ∨ rec.ip.swapStarted = false

/-- The record tells the recovery to resume the stream. -/
def Resumes (rec : RestoreRecord) : Prop :=
  rec.ip.stage ≠ .restoring ∧ rec.ip.streamWasEnabled = true ∧ rec.ip.streamResumed = false

section
variable {I J : World → Prop} {ok : Op → World → Env → Prop}

theorem dropInterrupted_keeps (cfg : Config) (what : String) (hI : ∀ w, J w → I w)
    (hdrop : ∀ w db, J w → J { w with server := w.server.drop db }) :
    Crash.Triple device ok I J (dropInterrupted cfg rec what) fun _ => J := by
  refine .bind (Q := fun _ => J) (.op fun w e h _ => ⟨hI w h, h⟩) fun r => ?_
  rcases r with err | _
  · exact .ret fun w h => h
  · exact dropPITRClones_keeps _ hI hdrop

theorem settleClones_keeps (cfg : Config) (hI : ∀ w, J w → I w)
    (hdrop : Drops rec → ∀ w db, J w → J { w with server := w.server.drop db }) :
    Crash.Triple device ok I J (settleClones cfg rec) fun _ => J := by
  refine .ite (fun _ => ?_) fun hs => ?_
  · exact .ite (fun _ => .ret fun w h => h) fun _ => .ret fun w h => h
  · refine (dropInterrupted_keeps cfg _ hI (hdrop (.inr ?_))).bind fun note => .ret fun w h => h
    simpa using hs

/-- The recovery keeps what dropping the clones keeps, if the record tells it to, and what a resumed
stream keeps. -/
theorem cleanupInterruptedPITR_keeps (cfg : Config) (hI : ∀ w, J w → I w)
    (hdrop : Drops rec → ∀ w db, J w → J { w with server := w.server.drop db })
    (hres : ∀ w t, (Streamed w.stream → Streamed t) → J w → J { w with stream := t }) :
    Crash.Triple device ok I J (cleanupInterruptedPITR cfg rec) fun _ => J := by
  refine .ite (fun _ => ?_) fun hstage => ?_
  · refine (settleClones_keeps cfg hI hdrop).bind fun note => ?_
    refine .ite (fun _ => ?_) fun _ => .ret fun w h => h
    exact ((revives_resumeInterrupted cfg rec).keeps hI hres).bind fun r => .ret fun w h => h
  · refine .ite (fun _ => .ret fun w h => h) fun _ => ?_
    refine (dropInterrupted_keeps cfg _ hI (hdrop (.inl ?_))).bind fun note => .ret fun w h => h
    simpa using hstage

/-- The recovery resumes a stream that the record tells it to resume. -/
theorem cleanupInterruptedPITR_streamed (cfg : Config) :
    Leaves timely (fun w => Streamed w.stream ∨ Resumes rec) (cleanupInterruptedPITR cfg rec)
      fun _ w => Streamed w.stream := by
  have hkeep : ∀ (w : World) (db : String), Streamed w.stream ∨ Resumes rec →
      Streamed { w with server := w.server.drop db }.stream ∨ Resumes rec := fun _ _ h => h
  refine .ite (fun _ => ?_) fun hstage => ?_
  · refine (settleClones_keeps cfg (fun _ _ => trivial) fun _ => hkeep).bind fun note => ?_
    refine .ite (fun _ => ?_) fun hres => ?_
    · exact .bind ((resumeInterrupted_streamed cfg rec).pre fun _ _ => trivial) fun r => .ret fun w h => h
    · refine .ret fun w h => h.resolve_right fun hr => hres ?_
      exact ⟨hr.1, hr.2.1, by simp [hr.2.2]⟩
  · have hs : ∀ w : World, Streamed w.stream ∨ Resumes rec → Streamed w.stream := fun w h =>
      h.resolve_right fun hr => hstage hr.1
    refine .ite (fun _ => .ret fun w h => hs w h) fun _ => ?_
    exact (dropInterrupted_keeps cfg _ (fun _ _ => trivial) hkeep).bind fun note => .ret fun w h => hs w h

end

theorem finishRestore_final :
    Runs req told (Final req told rec) (finishRestore cfg rec) fun _ w => Streamed w.stream := by
  have hdefer : ∀ rec', Of req rec' → rec'.ip = rec.ip → Runs req told (Final req told rec)
      (Call.deferSave rec') fun _ => Final req told rec := by
    refine fun rec' hof hip => .op fun w e h _ => ?_
    have hsaved := h.saved hof (by rw [hip])
    simp only [device]
    split
    · exact ⟨hsaved.inv, hsaved⟩
    · exact ⟨h.inv, h⟩
  have hfail : ∀ cause note, Of req rec → Of req (rec.failUnsaved cause note) := fun _ _ h =>
    ⟨h.databases, h.clones, h.started⟩
  refine .pre (P := fun w => Of req rec ∧ Final req told rec w) (.assume fun hof => ?_) fun w h => ⟨h.of, h⟩
  refine (saveFinal_final cfg.retries).bind fun r => ?_
  rcases r with err | _
  · refine .ite (fun _ => ?_) fun _ => (hdefer rec hof rfl).post fun _ w h => h.streamed
    refine .ite (fun _ => ?_) fun _ => (hdefer _ (hfail _ _ hof) rfl).post fun _ w h => h.streamed
    refine .bind (cleanupInterruptedPITR_keeps cfg (fun w h => h.inv) (fun hd w db h => ?_)
      fun w t ht h => ?_) fun r => ?_
    · -- the record of a run that swapped does not drop the clones
      have hw : w.server.written = [] := h.unstarted (hd.elim (fun hs => ?_) id)
      · exact ⟨h.of, ⟨⟨h.inv.of, h.inv.live, Untouched.sound hw⟩, fun _ => ⟨.inl hw, .inl h.streamed⟩⟩,
          h.streamed, fun _ => hw⟩
      · cases hst : rec.ip.swapStarted with
        | true => exact absurd hs (hof.started hst)
        | false => rfl
    · exact h.resumed ht
    · refine (hdefer _ (hfail _ _ hof) rfl).bind fun _ => ?_
      refine ((revives_runLater _).keeps (fun w h => h.inv) fun w t ht h => ?_).post fun _ w h => h.streamed
      exact h.resumed ht
  · exact .ret fun w h => h.streamed

/-- **A run keeps the invariant**, whichever of its calls fail, and one that ends resumed the stream. -/
theorem restoreInPlace_keeps (runErr : Option Err)
    (status : RestoreStatus) (message warning : String) : Runs req told (Started req runErr status)
      (restoreInPlace cfg (clonesRestored req status message warning) runErr planned)
      fun _ w => Streamed w.stream := by
  refine (finishPITRInPlace_final cfg planned runErr status message warning).bind fun r => ?_
  exact finishRestore_final cfg

/-! ## Recovery -/

/-- What the stored record has to tell the recovery: that the swap started, if it wrote to an original
and did not get to the end, and that the stream was enabled, if it is still paused. -/
structure Covered (req : Request) (w : World) : Prop where
  clones : w.server.written ≠ [] → ¬AllReplaced req w.server → w.stored.status = .inProgress →
    w.stored.ip.swapStarted = true
  stream : ¬Streamed w.stream → w.stored.ip.stage ≠ .restoring ∧ w.stored.ip.streamWasEnabled = true

/-- **A run whose saves before the pause and before the swap took effect, and which could read the stream
before the pause, is covered wherever it stops.** -/
theorem restoreInPlace_covered {cfg : Config} {planned : Bool} {runErr : Option Err}
    {status : RestoreStatus} {message warning : String} {w₀ : World} {r : Option Unit}
    (h₀ : Started req runErr status w₀) (hr : Crash.Ran device (heeds True)
      (restoreInPlace cfg (clonesRestored req status message warning) runErr planned) w₀ r w) :
    Covered req w := by
  have hlive : Live req True w :=
    ((restoreInPlace_keeps cfg planned runErr status message warning w₀ h₀).ran h₀.inv hr).1
  have htells := hlive.stored trivial
  exact ⟨fun hw _ _ => htells.started.resolve_left hw, fun hs => htells.was.resolve_left hs⟩

structure Settling (req : Request) (w : World) : Prop extends Inv req w, Covered req w

theorem Settling.resumed {t : Stream} (h : Settling req w) (ht : Streamed w.stream → Streamed t) :
    Settling req { w with stream := t } where
  of := h.of
  live := h.live.imp id ht
  sound := h.sound
  clones := h.clones
  stream := fun hs => h.stream fun hw => hs (ht hw)

/-- A record in progress that drops the clones was stored before the swap, or the swap got to the end. -/
theorem Settling.drops (h : Settling req w) (hp : w.stored.status = .inProgress) (hd : Drops w.stored) :
    w.server.written = [] ∨ AllReplaced req w.server := by
  by_contra hc
  rw [not_or] at hc
  have hst := h.clones hc.1 hc.2 hp
  rcases hd with hd | hd
  · exact h.of.started hst hd
  · exact absurd (hst.symm.trans hd) (by simp)

theorem Settling.dropped (h : Settling req w) (hw : w.server.written = [] ∨ AllReplaced req w.server)
    (db : String) : Settling req { w with server := w.server.drop db } where
  of := h.of
  live := h.live
  sound := fun hn => ⟨(h.sound hn).1, .inl (hw.resolve_left hn)⟩
  clones := h.clones
  stream := h.stream

theorem Settling.streamed (h : Settling req w) : Streamed w.stream ∨ Resumes w.stored := by
  by_cases hs : Streamed w.stream
  · exact .inl hs
  · exact .inr ⟨(h.stream hs).1, (h.stream hs).2, (h.live.resolve_right hs).resumed⟩

theorem failInterruptedRestore_keeps :
    Crash.Triple device timely (Settling req) (Settling req) (failInterruptedRestore cfg)
      fun r w => r = true → Streamed w.stream := by
  refine .bind (Q := fun r w => Settling req w ∧ ∀ rec, r = .ok rec → w.stored = rec)
    (.op fun w e h _ => ⟨h, h, fun rec hr => ?_⟩) fun r => ?_
  · cases he : e.err with
    | none => simpa [device, he, result] using hr
    | some x => simp [device, he, result] at hr
  rcases r with err | rec
  · exact .ret fun w h hr => by cases hr
  refine .ite (fun hst => ?_) fun hst => ?_
  · refine .ret fun w h _ => h.1.live.resolve_left fun hp => hst ?_
    exact h.2 rec rfl ▸ hp.status
  have hst : rec.status = .inProgress := by simpa using hst
  have hkeep : Crash.Triple device timely (Settling req)
      (fun w => (Settling req w ∧ w.stored = rec) ∧
        (Drops rec → w.server.written = [] ∨ AllReplaced req w.server)) (cleanupInterruptedPITR cfg rec)
      fun _ w => (Settling req w ∧ w.stored = rec) ∧
        (Drops rec → w.server.written = [] ∨ AllReplaced req w.server) :=
    cleanupInterruptedPITR_keeps cfg (fun w h => h.1.1)
      (fun hd w db h => ⟨⟨h.1.1.dropped (h.2 hd) db, h.1.2⟩, h.2⟩)
      fun w t ht h => ⟨⟨h.1.1.resumed ht, h.1.2⟩, h.2⟩
  refine .bind ((hkeep.and (cleanupInterruptedPITR_streamed cfg)).pre fun w h => ?_) fun r => ?_
  · obtain rfl := h.2 rec rfl
    exact ⟨⟨⟨h.1, rfl⟩, h.1.drops hst⟩, h.1.streamed⟩
  refine .bind (Q := fun _ w => Settling req w ∧ Streamed w.stream) (.op fun w e h _ => ?_) fun _ => ?_
  · have hof : Of req rec := h.1.1.2 ▸ h.1.1.1.of
    simp only [device]
    split
    · exact ⟨h.1.1.1, h.1.1.1, h.2⟩
    · have hs : Settling req { w with stored := { rec with
          status := .failed
          errorMessage := "interrupted: the server stopped before this run finished" ++ r.1 } } :=
        { of := ⟨hof.databases, hof.clones, hof.started⟩, live := .inr h.2, sound := h.1.1.1.sound
          clones := fun _ _ hp => (by cases hp), stream := fun hn => absurd h.2 hn }
      exact ⟨hs, hs, h.2⟩
  · refine .bind ((revives_runLater _).keeps (fun w h => h.1) fun w t ht h => ⟨h.1.resumed ht, ht h.2⟩)
      fun _ => .ret fun w h _ => h.2

/-! ## A record that tells too little -/

/-- A program all of whose calls succeed. -/
abbrev Quietly {α : Type} (P : World → Prop) (x : Act α) (Q : α → World → Prop) : Prop :=
  Leaves (fun _ _ e => e = quiet) P x Q

theorem timely_quiet (o : Op) (w : World) : timely o w quiet := fun _ x hx => by cases hx

theorem dropEach_drops (R : List String → List String → Prop) :
    Quietly (fun w => R w.server.written w.server.replaced) (dropEach cs)
      fun _ w => R w.server.written w.server.replaced ∧ ∀ c ∈ cs, c ∉ w.server.databases := by
  induction cs with
  | nil => exact .ret fun w h => ⟨h, fun c hc => by cases hc⟩
  | cons c cs ih =>
    refine .bind (Q := fun _ w => R w.server.written w.server.replaced ∧ c ∉ w.server.databases)
      (.op fun w e h he => ⟨trivial, ?_⟩) fun r => ?_
    · subst he
      exact ⟨h, by simp [device, quiet, Env.fails, Server.drop]⟩
    have hgone : Quietly (fun w => c ∉ w.server.databases) (dropEach cs)
        fun _ w => c ∉ w.server.databases := by
      refine Uses.triple (uses_dropEach cs) (fun _ _ => trivial) fun o w e ho he hw => ?_
      obtain ⟨db, rfl⟩ := ho
      subst he
      show c ∉ w.server.databases.filter (· ≠ db)
      exact fun hc => hw (List.mem_of_mem_filter hc)
    refine .bind ((ih.and hgone).pre fun w h => h) fun failed => ?_
    have hend : ∀ w : World, ((R w.server.written w.server.replaced ∧ ∀ c ∈ cs, c ∉ w.server.databases) ∧
        c ∉ w.server.databases) → R w.server.written w.server.replaced ∧
        ∀ d ∈ c :: cs, d ∉ w.server.databases := fun w h =>
      ⟨h.1.1, fun d hd => (List.mem_cons.mp hd).elim (fun hd => hd ▸ h.2) (h.1.2 d)⟩
    rcases r with err | _
    · exact .ret fun w h => hend w h
    · exact .ret fun w h => hend w h

theorem dropInterrupted_drops (what : String) (R : List String → List String → Prop) :
    Quietly (fun w => R w.server.written w.server.replaced) (dropInterrupted cfg rec what)
      fun _ w => R w.server.written w.server.replaced ∧ ∀ c ∈ rec.pitr.clones, c ∉ w.server.databases := by
  refine .bind (Q := fun r w => r = .ok () ∧ R w.server.written w.server.replaced)
    (.op fun w e h he => ⟨trivial, by subst he; rfl, h⟩) fun r => .assume fun hr => ?_
  subst hr
  show Quietly _ (dropPITRClones rec.pitr.clones) _
  rcases hc : rec.pitr.clones with _ | ⟨c, cs⟩
  · exact .ret fun w h => ⟨h, fun c hc => by cases hc⟩
  · refine (dropEach_drops (c :: cs) R).bind fun failed => ?_
    rcases failed with _ | ⟨d, ds⟩
    · exact .ret fun w h => h
    · exact .ret fun w h => h

theorem cleanupInterruptedPITR_drops (hsw : rec.ip.swapStarted = false)
    (R : List String → List String → Prop) :
    Quietly (fun w => R w.server.written w.server.replaced) (cleanupInterruptedPITR cfg rec)
      fun _ w => R w.server.written w.server.replaced ∧
        ∀ c ∈ rec.pitr.clones, c ∉ w.server.databases := by
  refine .ite (fun _ => ?_) fun _ => ?_
  · refine .bind (Q := fun _ w => R w.server.written w.server.replaced ∧
      ∀ c ∈ rec.pitr.clones, c ∉ w.server.databases) ?_ fun note => ?_
    · refine .ite (fun h => absurd h (by simp [hsw])) fun _ => ?_
      exact (dropInterrupted_drops cfg _ R).bind fun note => .ret fun w h => h
    · refine .ite (fun _ => ?_) fun _ => .ret fun w h => h
      refine .bind ((revives_resumeInterrupted cfg rec).keeps (fun _ _ => trivial) fun w t _ h => ?_)
        fun r => .ret fun w h => h
      exact h
  · refine .ite (fun hc => ?_) fun _ => ?_
    · exact .ret fun w h => ⟨h, fun c hm => by rw [hc] at hm; cases hm⟩
    · exact (dropInterrupted_drops cfg _ R).bind fun note => .ret fun w h => h

/-- A record in progress without a started swap: the recovery drops its clones. -/
theorem sweep_drops (hst : rec.status = .inProgress) (hsw : rec.ip.swapStarted = false)
    (R : List String → List String → Prop) :
    Quietly (fun w => w.stored = rec ∧ R w.server.written w.server.replaced) (failInterruptedRestore cfg)
      fun _ w => R w.server.written w.server.replaced ∧
        ∀ c ∈ rec.pitr.clones, c ∉ w.server.databases := by
  refine .bind (Q := fun r w => r = .ok rec ∧ R w.server.written w.server.replaced)
    (.op fun w e h he => ⟨trivial, by subst he; rw [← h.1]; rfl, h.2⟩) fun r => .assume fun hr => ?_
  subst hr
  refine .ite (fun h => absurd hst h) fun _ => ?_
  refine (cleanupInterruptedPITR_drops cfg hsw R).bind fun r => ?_
  refine .bind ((Only.call (q := .stored) (.inl rfl)).keeps (fun _ _ => trivial) fun w w' h hw => ?_)
    fun _ => ?_
  · rwa [h.server (by decide)]
  · exact .bind ((revives_runLater _).keeps (fun _ _ => trivial) fun w t _ h => h)
      fun _ => .ret fun w h => h

theorem cleanupInterruptedPITR_ignores (hres : ¬Resumes rec) (t : Stream) :
    Quietly (fun w => w.stream = t) (cleanupInterruptedPITR cfg rec)
      fun r w => r.2 = false ∧ w.stream = t := by
  refine .ite (fun _ => ?_) fun _ => ?_
  · refine (settleClones_keeps cfg (fun _ _ => trivial) fun _ _ _ h => h).bind fun note => ?_
    refine .ite (fun hr => absurd ⟨hr.1, hr.2.1, ?_⟩ hres) fun _ => .ret fun w h => ⟨rfl, h⟩
    simpa using hr.2.2
  · refine .ite (fun _ => .ret fun w h => ⟨rfl, h⟩) fun _ => ?_
    exact (dropInterrupted_keeps cfg _ (fun _ _ => trivial) fun _ _ h => h).bind fun note =>
      .ret fun w h => ⟨rfl, h⟩

/-- A record that does not tell to resume the stream: the recovery leaves it as it is. -/
theorem sweep_ignores (hres : ¬Resumes rec) (t : Stream) :
    Quietly (fun w => w.stored = rec ∧ w.stream = t) (failInterruptedRestore cfg)
      fun r w => r = true ∧ w.stream = t := by
  refine .bind (Q := fun r w => r = .ok rec ∧ w.stream = t)
    (.op fun w e h he => ⟨trivial, by subst he; rw [← h.1]; rfl, h.2⟩) fun r => .assume fun hr => ?_
  subst hr
  refine .ite (fun _ => .ret fun w h => ⟨rfl, h⟩) fun _ => ?_
  refine (cleanupInterruptedPITR_ignores cfg hres t).bind fun r => .assume fun hr => ?_
  refine .bind ((Only.call (q := .stored) (.inl rfl)).keeps (fun _ _ => trivial) fun w w' h hw => ?_)
    fun _ => ?_
  · rwa [h.stream (by decide)]
  · simp only [hr]
    exact .ret fun w h => ⟨rfl, h⟩

/-! ## The theorem -/

/-- Whatever restarts and recoveries follow, the clones are kept until every original holds the restored
state, and each recovery that gets to its end finds the stream resumed, resumes it or raises an alert. -/
def Recoverable (req : Request) (w : World) : Prop :=
  ∀ w', Crash.Lives device timely (fun w₀ => w₀ = w) failInterruptedRestore w' →
    (w'.server.written ≠ [] → ¬AllReplaced req w'.server → Kept req w'.server) ∧
    ∀ cfg w'', Crash.Ran device timely (failInterruptedRestore cfg) w' (some true) w'' →
      Streamed w''.stream

theorem Inv.kept (h : Inv req w) (hw : w.server.written ≠ []) (hr : ¬AllReplaced req w.server) :
    Kept req w.server :=
  (h.sound hw).2.resolve_left hr

theorem Settling.recoverable (h : Settling req w) : Recoverable req w := by
  intro w' hw'
  have hs : Settling req w' := hw'.inv (fun _ h₀ => h₀ ▸ h) fun cfg =>
    (failInterruptedRestore_keeps cfg).post fun _ _ _ => trivial
  refine ⟨hs.kept, fun cfg w'' hr => ?_⟩
  exact ((failInterruptedRestore_keeps cfg w' hs).ran hs hr).2 true rfl rfl

theorem Recoverable.covered (hi : Inv req w) (h : Recoverable req w) : Covered req w := by
  have hran : Crash.Ran device timely (failInterruptedRestore {}) w (some _) _ :=
    Crash.ran_eval timely_quiet _ w
  refine ⟨fun hw hr hst => ?_, fun hs => ?_⟩
  · by_contra hsw
    have hsw : w.stored.ip.swapStarted = false := by simpa using hsw
    obtain ⟨hsame, hgone⟩ := (sweep_drops {} hst hsw fun a b => a = w.server.written ∧
      b = w.server.replaced) w ⟨rfl, rfl, rfl⟩ |>.eval fun _ _ => rfl
    have hkept := (h _ (.life {} (.init rfl) hran)).1 (hsame.1 ▸ hw)
      (fun ha => hr fun db hdb => hsame.2 ▸ ha db hdb)
    -- a database that was not replaced has a clone, and it is gone
    simp only [AllReplaced, not_forall] at hr
    obtain ⟨db, hdb, _⟩ := hr
    have hc : db ++ req.suffix ∈ req.clones := List.mem_map_of_mem hdb
    exact hgone _ (hi.of.clones ▸ hc) (hkept _ hc)
  · by_contra hn
    have hres : ¬Resumes w.stored := fun hr => hn ⟨hr.1, hr.2.1⟩
    obtain ⟨htrue, hsame⟩ := (sweep_ignores {} hres w.stream) w ⟨rfl, rfl⟩ |>.eval fun _ _ => rfl
    rw [htrue] at hran
    exact hs (hsame ▸ (h w (.init rfl)).2 {} _ hran)

/-- **An in-place restore can be completed or undone.** Wherever a run stops and whichever of its saves
and other calls fail, it wrote to an original only after completed safety backups of every database, it
dropped no clone before every original was swapped, and if it ended, the stream is resumed or an alert was
raised. The recoveries that follow keep to this exactly when the stored record told enough at the stop. -/
theorem in_place_restore_recoverable {cfg : Config} {planned : Bool} {runErr : Option Err}
    {status : RestoreStatus} {message warning : String} {w₀ : World} {r : Option Unit}
    (h₀ : Started req runErr status w₀) (hr : Crash.Ran device timely
      (restoreInPlace cfg (clonesRestored req status message warning) runErr planned) w₀ r w) :
    (w.server.written ≠ [] → BackedUp req w.vault) ∧
    (w.server.written ≠ [] → ¬AllReplaced req w.server → Kept req w.server) ∧
    (r = some () → Streamed w.stream) ∧ (Recoverable req w ↔ Covered req w) := by
  have hkeeps := (@restoreInPlace_keeps req False cfg planned runErr status message warning).under
    fun o w e (h : timely o w e) => ⟨h, False.elim⟩
  obtain ⟨⟨hi, -⟩, hend⟩ := (hkeeps w₀ h₀).ran h₀.inv hr
  exact ⟨fun hw => (hi.sound hw).1, hi.kept, hend (), fun h => h.covered hi,
    fun h => Settling.recoverable ⟨hi, h⟩⟩

end

/-! ## One restore -/

def shopRequest : Request :=
  { id := "rst_pitr_1", connectionID := "conn_1", streamID := "str_1", suffix := "_rescue"
    databases := ["shop"] }

def shopStart : World :=
  { stored := preparePITR shopRequest, server := { databases := ["shop", "shop_rescue"] }
    stream := { enabled := true } }

def shopRun : Act Unit := restoreInPlace {} (clonesRestored shopRequest .completed "" "") none true

/-- Every call succeeds. -/
def listing : Env := { counts := [{ name := "orders", documents := 3 }], id := "bkp_1" }

/-- Every save of the restore's record fails, and nothing else does. -/
def unsaved : Env := { listing with saveErr := some { text := "database is locked" } }

theorem started_shop : Started shopRequest none .completed shopStart :=
  ⟨rfl, rfl, fun _ _ => show ∀ c ∈ shopRequest.clones, c ∈ shopStart.server.databases by decide +kernel,
    rfl, rfl⟩

theorem timely_listing (o : Op) (w : World) : timely o w listing := fun _ x hx => by cases hx

theorem timely_unsaved (o : Op) (w : World) : timely o w unsaved := fun _ x hx => by cases hx

/-- The run stopped right after it began to write to the original; every save until then succeeded. -/
theorem in_place_restore_recoverable_shop :
    (Crash.cutAfter device listing 22 shopRun shopStart).server.written = ["shop"] ∧
    Recoverable shopRequest (Crash.cutAfter device listing 22 shopRun shopStart) := by
  have hwas : (Crash.cutAfter device listing 22 shopRun shopStart).stored.ip.swapStarted = true ∧
      (Crash.cutAfter device listing 22 shopRun shopStart).stored.ip.stage ≠ .restoring ∧
      (Crash.cutAfter device listing 22 shopRun shopStart).stored.ip.streamWasEnabled = true := by
    decide +kernel
  refine ⟨by decide +kernel, ?_⟩
  exact (in_place_restore_recoverable started_shop
    (Crash.ran_cutAfter timely_listing 22 _ _)).2.2.2.mpr ⟨fun _ _ _ => hwas.1, fun _ => hwas.2⟩

/-- No save of the record succeeds, and the process stops right after it began to write to the original:
the recovery drops the clone and leaves the stream disabled. -/
theorem in_place_restore_unrecoverable : Started shopRequest none .completed shopStart ∧
    ∃ w w', Crash.Ran device timely shopRun shopStart none w ∧
      Crash.Ran device timely (failInterruptedRestore {}) w (some true) w' ∧
      w'.server = { databases := ["shop"], written := ["shop"], replaced := [] } ∧
      w'.stream = { enabled := false, paused := true, alerts := [] } := by
  refine ⟨started_shop, Crash.cutAfter device unsaved 22 shopRun shopStart,
    (Crash.eval device quiet (failInterruptedRestore {})
      (Crash.cutAfter device unsaved 22 shopRun shopStart)).2,
    Crash.ran_cutAfter timely_unsaved 22 _ _, ?_, by decide +kernel, by decide +kernel⟩
  have hran : Crash.Ran device timely (failInterruptedRestore {})
      (Crash.cutAfter device unsaved 22 shopRun shopStart) (some _) _ :=
    Crash.ran_eval timely_quiet _ _
  have htrue : (Crash.eval device quiet (failInterruptedRestore {})
      (Crash.cutAfter device unsaved 22 shopRun shopStart)).1 = true := by decide +kernel
  rwa [htrue] at hran

end MongoRescue.InPlace.Proof
