import MongoRescue.InPlace.Restore

/-!
# The steps of an in-place restore

Every call touches at most one part of the world (`Op.part`), so a step that only makes calls of one part
(`Only`) leaves the others alone (`Only.keeps`). What is left to say about a step is what it does to its
own part:

* a safety backup that returned no error left a completed backup of its database (`safetyBackup_backed`);
* a pause that reports the stream was not enabled left it as it was (`pauseStream_streamed`), and a resume
  enables it or raises an alert (`resumeInPlace_streamed`);
* a drop of clones only takes databases away (`Server.drop`).
-/

namespace MongoRescue.InPlace.Proof

open Conc (Proc)
open Crash (Uses)

/-! ## Parts of the world -/

inductive Part
  | nothing
  | stored
  | server
  | stream
  | vault
  deriving DecidableEq

/-- The part of the world that a call may change. -/
def part : Op → Part
  | .save _ => .stored
  | .deferSave _ => .stored
  | .copyDatabase _ _ => .server
  | .printReplaced _ => .server
  | .dropDatabase _ => .server
  | .saveBackup _ => .vault
  | .deferBackup _ => .vault
  | .executeBackup _ => .vault
  | .updateStream _ _ => .stream
  | .alert _ => .stream
  | _ => .nothing

/-- The worlds differ at most in part `q`. -/
structure AgreeOff (q : Part) (w w' : World) : Prop where
  stored : q ≠ .stored → w'.stored = w.stored
  server : q ≠ .server → w'.server = w.server
  stream : q ≠ .stream → w'.stream = w.stream
  vault : q ≠ .vault → w'.vault = w.vault

variable {o : Op} {q : Part} {α : Type} {J : World → Prop}

theorem AgreeOff.refl (q : Part) (w : World) : AgreeOff q w w :=
  ⟨fun _ => rfl, fun _ => rfl, fun _ => rfl, fun _ => rfl⟩

theorem device_agreeOff (o : Op) (w : World) (e : Env) : AgreeOff (part o) w (device o w e).1 := by
  cases o <;> simp only [device, part] <;> (try split) <;> constructor <;> simp

/-- Every call of the program touches part `q`, or nothing. -/
def Only (q : Part) {α : Type} (x : Act α) : Prop :=
  Uses (S := calls) (fun o => part o = q ∨ part o = .nothing) x

theorem device_nothing (h : part o = .nothing) (w : World) (e : Env) : (device o w e).1 = w := by
  have hw := device_agreeOff o w e
  rw [h] at hw
  exact World.ext (hw.stored (by decide)) (hw.server (by decide)) (hw.stream (by decide))
    (hw.vault (by decide))

variable {ok : Op → World → Env → Prop} {I : World → Prop} {x : Act α}

/-- What does not look at part `q` survives a program that touches nothing else. -/
theorem Only.keeps (h : Only q x) (hI : ∀ w, J w → I w)
    (hJ : ∀ w w', AgreeOff q w w' → J w → J w') : Crash.Triple device ok I J x fun _ => J := by
  refine Uses.triple h hI fun o w e ho _ hw => hJ w _ ?_ hw
  rcases ho with ho | ho
  · exact ho ▸ device_agreeOff o w e
  · rw [device_nothing ho]
    exact .refl q w

/-- A program that touches nothing leaves the world as it is. -/
theorem Only.stays (h : Only .nothing x) (hI : ∀ w, J w → I w) :
    Crash.Triple device ok I J x fun _ => J :=
  Uses.triple h hI fun _ w e ho _ hw => by rwa [device_nothing (ho.elim id id) w e]

theorem Only.call (h : part o = q ∨ part o = .nothing) : Only q (call o) :=
  ⟨h, fun _ => trivial⟩

theorem Only.bind {β : Type} {f : α → Act β} (hx : Only q x) (hf : ∀ a, Only q (f a)) :
    Only q (x >>= f) :=
  Uses.bind hx hf

theorem Only.pure (a : α) : Only q (pure a : Act α) := trivial

theorem Only.ite {c : Prop} [Decidable c] {x y : Act α} (hx : Only q x) (hy : Only q y) :
    Only q (if c then x else y) :=
  Uses.ite hx hy

theorem only_saveInPlace (rec : RestoreRecord) : Only .stored (saveInPlace rec) :=
  .bind (.call (.inl rfl)) fun _ => .pure _

theorem only_snapshotEach (suffix : String) (dbs : List String) :
    Only .nothing (snapshotEach suffix dbs) := by
  induction dbs with
  | nil => exact .pure _
  | cons db dbs ih =>
    refine .bind (.call (.inl rfl)) fun r => ?_
    rcases r with err | _ | ⟨c, cs⟩
    · exact .pure _
    · exact .pure _
    · refine .bind ih fun r => ?_
      rcases r with err | snaps
      · exact .pure _
      · exact .pure _

theorem only_saveFinal {save : Act (Except Err Unit)} (h : Only q save) (n : Nat) :
    Only q (saveFinal save n) := by
  induction n with
  | zero => exact h
  | succ n ih =>
    refine .bind h fun r => ?_
    rcases r with err | _
    · refine .bind (.call (.inr rfl)) fun b => ?_
      exact .ite (.pure _) ih
    · exact .pure _

/-! ## Safety backups -/

/-- A completed safety backup of `db`: its archive is stored whole and its final record says completed,
saved or waiting for the background save of a busy store. -/
def Backed (v : Vault) (db : String) : Prop :=
  ∃ b : BackupRecord, (b.id, db) ∈ v.archives ∧ b ∈ v.saved ++ v.waiting ∧ b.database = db ∧
    b.status = .completed

/-- Nothing of the vault goes. -/
structure Grown (v v' : Vault) : Prop where
  archives : v.archives ⊆ v'.archives
  saved : v.saved ⊆ v'.saved
  waiting : v.waiting ⊆ v'.waiting

theorem Grown.refl (v : Vault) : Grown v v := ⟨fun _ h => h, fun _ h => h, fun _ h => h⟩

theorem Backed.grown {v v' : Vault} {db : String} (h : Backed v db) (hv : Grown v v') : Backed v' db := by
  obtain ⟨b, ha, hb, hdb, hs⟩ := h
  refine ⟨b, hv.archives ha, ?_, hdb, hs⟩
  rcases List.mem_append.mp hb with hb | hb
  · exact List.mem_append_left _ (hv.saved hb)
  · exact List.mem_append_right _ (hv.waiting hb)

theorem device_grown (o : Op) (w : World) (e : Env) : Grown w.vault (device o w e).1.vault := by
  cases o with
  | saveBackup b =>
    simp only [device]
    split
    · exact .refl _
    · exact ⟨fun _ h => h, List.subset_append_left _ _, fun _ h => h⟩
  | deferBackup b => exact ⟨fun _ h => h, fun _ h => h, List.subset_append_left _ _⟩
  | executeBackup b =>
    simp only [device, Vault.execute]
    split
    · exact ⟨List.subset_append_left _ _, fun _ h => h, fun _ h => h⟩
    · exact .refl _
  | _ =>
    rw [(device_agreeOff _ w e).vault (by simp [part])]
    exact .refl _

/-- Completed backups stay. -/
theorem keeps_backed (x : Act α) (dbs : List String) :
    Crash.Triple device ok (fun _ => True) (fun w => ∀ db ∈ dbs, Backed w.vault db) x
      fun _ w => ∀ db ∈ dbs, Backed w.vault db :=
  Uses.triple (p := fun _ => True) (Uses.all x) (fun _ _ => trivial)
    fun o w e _ _ h db hdb => (h db hdb).grown (device_grown o w e)

variable (cfg : Config)

theorem only_finishBackup (b : BackupRecord) : Only .vault (finishBackup cfg b) := by
  refine .bind (only_saveFinal (.call (.inl rfl)) _) fun r => ?_
  rcases r with err | _
  · exact .ite (.bind (.call (.inl rfl)) fun _ => .pure _) (.bind (.call (.inl rfl)) fun _ => .pure _)
  · exact .pure _

theorem only_safetyBackup (db : String) : Only .vault (safetyBackup cfg db) := by
  refine .bind (.call (.inr rfl)) fun r => ?_
  rcases r with err | _
  · exact .pure _
  refine .bind (.call (.inr rfl)) fun r => ?_
  rcases r with err | record
  · exact .pure _
  refine .bind (.call (.inl rfl)) fun r => ?_
  rcases r with err | _
  · exact .pure _
  refine .bind (.call (.inl rfl)) fun x => ?_
  exact .bind (only_finishBackup cfg _) fun _ => .pure _

/-- What a program answers and leaves, whatever the calls in between leave. -/
abbrev Leaves (ok : Op → World → Env → Prop) {α : Type} (P : World → Prop) (x : Act α)
    (Q : α → World → Prop) : Prop :=
  Crash.Triple device ok (fun _ => True) P x Q

theorem saveFinal_saved (b : BackupRecord) (n : Nat) :
    Leaves ok (fun _ => True) (saveFinal (Call.saveBackup b) n)
      fun r w => r = .ok () → b ∈ w.vault.saved := by
  have hsave : Leaves ok (fun _ => True) (Call.saveBackup b)
      fun r w => r = .ok () → b ∈ w.vault.saved := by
    refine Crash.Triple.op fun w e _ _ => ⟨trivial, fun hr => ?_⟩
    cases he : e.err with
    | none => simp [device, he, Env.fails]
    | some x => simp [device, he, result] at hr
  induction n with
  | zero => exact hsave
  | succ n ih =>
    refine hsave.bind fun r => ?_
    rcases r with err | _
    · refine .bind (Q := fun _ _ => True) (.op fun _ _ _ _ => ⟨trivial, trivial⟩) fun stop => ?_
      exact .ite (fun _ => .ret fun _ _ h => by cases h) fun _ => ih
    · exact .ret fun w h => h

theorem finishBackup_recorded (b : BackupRecord) : Leaves ok (fun _ => True) (finishBackup cfg b)
      fun b' w => b'.status = .completed → b' = b ∧ b' ∈ w.vault.saved ++ w.vault.waiting := by
  refine (saveFinal_saved b cfg.retries).bind fun r => ?_
  rcases r with err | _
  · refine .ite (fun _ => ?_) fun _ => ?_
    · refine .bind (Q := fun _ _ => True) (.op fun _ _ _ _ => ⟨trivial, trivial⟩) fun _ => ?_
      refine .ret fun w _ h => ?_
      simp only [BackupRecord.failUnsaved] at h
      split at h <;> cases h
    · refine .bind (Q := fun _ w => b ∈ w.vault.waiting)
        (.op fun w e _ _ => ⟨trivial, List.mem_append_right _ (List.mem_singleton.mpr rfl)⟩) fun _ => ?_
      exact .ret fun w h _ => ⟨rfl, List.mem_append_right _ h⟩
  · exact .ret fun w h _ => ⟨rfl, List.mem_append_left _ (h rfl)⟩

/-- **A safety backup without an error is completed.** -/
theorem safetyBackup_backed (db : String) :
    Leaves ok (fun _ => True) (safetyBackup cfg db) fun r w => r.2 = none → Backed w.vault db := by
  refine .bind (Q := fun _ _ => True) (.op fun _ _ _ _ => ⟨trivial, trivial⟩) fun r => ?_
  rcases r with err | _
  · exact .ret fun _ _ h => by cases h
  refine .bind (Q := fun r _ => ∀ record, r = .ok record →
      record.database = db ∧ record.status = .inProgress) (.op fun w e _ _ => ⟨trivial, ?_⟩) fun r => ?_
  · intro record hr
    cases he : e.err with
    | none =>
      simp only [device, he, result, Except.ok.injEq] at hr
      exact hr ▸ ⟨rfl, rfl⟩
    | some x => simp [device, he, result] at hr
  rcases r with err | record
  · exact .ret fun _ _ h => by cases h
  refine .pre (P := fun _ => (record.database = db ∧ record.status = .inProgress) ∧ True)
    (.assume fun hr => ?_) fun w hw => ⟨hw record rfl, trivial⟩
  obtain ⟨hdb, hst⟩ := hr
  refine .bind (Q := fun _ _ => True) (.op fun _ _ _ _ => ⟨trivial, trivial⟩) fun r => ?_
  rcases r with err | _
  · exact .ret fun _ _ h => by cases h
  -- from here on the archive of a completed run is stored
  refine .bind (Q := fun x w => x.status = some .completed → x.err = none →
      (record.id, db) ∈ w.vault.archives) (.op fun w e _ _ => ⟨trivial, fun hx he => ?_⟩) fun x => ?_
  · have hx' : e.executed.status = some .completed ∧ e.executed.err = none := ⟨hx, he⟩
    simp only [device, Vault.execute, if_pos hx', hdb]
    exact List.mem_append_right _ (List.mem_singleton.mpr rfl)
  have hkeep : Leaves ok (fun w => x.status = some .completed → x.err = none →
      (record.id, db) ∈ w.vault.archives) (finishBackup cfg (x.final record)) fun _ w =>
      x.status = some .completed → x.err = none → (record.id, db) ∈ w.vault.archives :=
    Uses.triple (Uses.all _) (fun _ _ => trivial) fun o w e _ _ h h1 h2 =>
      (device_grown o w e).archives (h h1 h2)
  refine .bind ((hkeep.and (finishBackup_recorded cfg (x.final record))).pre fun w h => ⟨h, trivial⟩)
    fun final => ?_
  refine .ret fun w h hnone => ?_
  obtain ⟨harch, hrec⟩ := h
  rcases hxe : x.err with _ | err
  · simp only [hxe, safetyOutcome] at hnone
    split at hnone
    · rename_i hcomp
      obtain ⟨rfl, hmem⟩ := hrec hcomp
      rcases hxs : x.status with _ | st
      · simp [Executed.final, hxs, hst] at hcomp
      · simp only [Executed.final, hxs] at hcomp hmem
        subst hcomp
        exact ⟨{ record with status := .completed, errorMessage := x.message }, harch hxs hxe, hmem,
          hdb, rfl⟩
    · cases hnone
  · simp [hxe, safetyOutcome] at hnone

/-! ## The stream -/

/-- A stream the restore paused is enabled again, or an alert was raised. -/
def Streamed (t : Stream) : Prop := t.paused = true → t.enabled = true ∨ t.alerts ≠ []

theorem Streamed.enabled {t : Stream} (h : t.enabled = true) : Streamed t := fun _ => .inl h

theorem Streamed.enable (t : Stream) : Streamed (t.update true) := .enabled rfl

theorem Streamed.alert (t : Stream) (x : Err) : Streamed { t with alerts := t.alerts ++ [x] } :=
  fun _ => .inr (by simp)

theorem only_endChains (chains : List String) : Only .nothing (endChains chains) := by
  induction chains with
  | nil => exact .pure _
  | cons c cs ih =>
    refine .bind (.call (.inl rfl)) fun r => ?_
    rcases r with err | _
    · exact .ite ih (.pure _)
    · exact ih

theorem only_stopCollector : Only .nothing stopCollector := by
  refine .bind (.call (.inl rfl)) fun r => ?_
  rcases r with err | _
  · exact .pure _
  refine .bind (.call (.inl rfl)) fun r => ?_
  rcases r with err | _
  · exact .pure _
  refine .bind (.call (.inl rfl)) fun r => ?_
  rcases r with err | chains
  · exact .pure _
  · exact only_endChains chains

/-- The calls of a pause. -/
def pauses (o : Op) : Prop := part o = .nothing ∨ ∃ l, o = .updateStream false l

theorem uses_pauseStream : Uses (S := calls) pauses pauseStream := by
  have hstop : Uses (S := calls) pauses stopCollector :=
    Uses.mono only_stopCollector fun _ ho => .inl (ho.elim id id)
  refine Uses.bind (x := Call.getStream .minutes) ⟨.inl rfl, fun _ => trivial⟩ fun r => ?_
  rcases r with err | _ | _
  · trivial
  · exact Uses.bind hstop fun _ => trivial
  · refine Uses.bind (x := Call.updateStream false .minutes) ⟨.inr ⟨_, rfl⟩, fun _ => trivial⟩ fun r => ?_
    rcases r with err | _
    · trivial
    · exact Uses.bind hstop fun _ => trivial

/-- The stream as it is read. -/
theorem getStream_leaves (l : Limit) {P : World → Prop} : Leaves ok P (Call.getStream l)
    fun r w => P w ∧ ∀ b, r = .ok b → w.stream.enabled = b := by
  refine .op fun w e hw _ => ⟨trivial, hw, fun b hr => ?_⟩
  cases he : e.err with
  | none => simpa [device, he, result] using hr
  | some x => simp [device, he, result] at hr

/-- **A pause that does not report an enabled stream left it alone.** -/
theorem pauseStream_streamed : Leaves ok (fun w => Streamed w.stream) pauseStream
    fun r w => Streamed w.stream ∨ r.1 = true := by
  have hkeep : Leaves ok (fun w => Streamed w.stream) stopCollector fun _ w => Streamed w.stream :=
    only_stopCollector.stays fun _ _ => trivial
  refine (getStream_leaves .minutes).bind fun r => ?_
  rcases r with err | _ | _
  · exact .ret fun w h => .inl h.1
  · refine .bind (hkeep.pre fun w h => h.1) fun err => ?_
    exact .ret fun w h => .inl h
  · refine .bind (Q := fun r w => r = .ok () ∨ Streamed w.stream) (.op fun w e hw _ => ⟨trivial, ?_⟩)
      fun r => ?_
    · cases he : e.err with
      | none => exact .inl (by simp [device, he, result])
      | some x => exact .inr (by simpa [device, he] using hw.1)
    rcases r with err | _
    · exact .ret fun w h => .inl (h.resolve_left (by simp))
    · refine .bind (Q := fun _ _ => True) ?_ fun err => .ret fun _ _ => .inr rfl
      exact Uses.triple (J := fun _ => True) (Uses.all _) (fun _ _ => trivial) (fun _ _ _ _ _ _ => trivial)
        |>.pre fun _ _ => trivial

/-- The calls of a resume: they never disable the stream. -/
def revives (o : Op) : Prop := part o = .nothing ∨ (∃ l, o = .updateStream true l) ∨ ∃ x, o = .alert x

def Revives {α : Type} (x : Act α) : Prop := Uses (S := calls) revives x

theorem device_revives (h : revives o) (w : World) (e : Env) (hw : Streamed w.stream) :
    Streamed (device o w e).1.stream := by
  rcases h with h | ⟨l, rfl⟩ | ⟨x, rfl⟩
  · rwa [device_nothing h]
  · simp only [device]
    split
    · exact hw
    · exact .enable _
  · exact .alert _ x

theorem revives_stream (h : revives o) (w : World) (e : Env) :
    (device o w e).1 = { w with stream := (device o w e).1.stream } := by
  rcases h with h | ⟨l, rfl⟩ | ⟨x, rfl⟩
  · rw [device_nothing h]
  · simp only [device]
    split <;> rfl
  · rfl

/-- What survives a stream that is resumed survives a resume. -/
theorem Revives.keeps (h : Revives x) (hI : ∀ w, J w → I w)
    (hJ : ∀ w t, (Streamed w.stream → Streamed t) → J w → J { w with stream := t }) :
    Crash.Triple device ok I J x fun _ => J := by
  refine Uses.triple h hI fun o w e ho _ hw => ?_
  rw [revives_stream ho w e]
  exact hJ w _ (device_revives ho w e) hw

theorem Only.revives (h : Only .nothing x) : Revives x :=
  Uses.mono h fun _ ho => .inl (ho.elim id id)

theorem only_awaitChain : Only .nothing awaitChain := by
  refine .bind (.call (.inl rfl)) fun r => ?_
  rcases r with err | _
  · exact .pure _
  · exact .pure _

theorem revives_call (h : revives o) : Revives (call o) := ⟨h, fun _ => trivial⟩

theorem revives_alert (x : Err) : Revives (Call.alert x) := revives_call (.inr (.inr ⟨x, rfl⟩))

theorem revives_resumeStream (l : Limit) : Revives (resumeStream l) := by
  refine Uses.bind (revives_call (.inl rfl)) fun r => ?_
  rcases r with err | _ | _
  · trivial
  · refine Uses.bind (revives_call (.inr (.inl ⟨l, rfl⟩))) fun r => ?_
    rcases r with err | _
    · trivial
    · exact only_awaitChain.revives
  · exact only_awaitChain.revives

theorem only_startBase (rec : RestoreRecord) : Only .nothing (startBase cfg rec) := by
  refine .bind (.call (.inl rfl)) fun r => ?_
  rcases r with err | _
  · exact .ite (.pure _) (.pure _)
  · exact .pure _

theorem revives_resumeInPlace (rec : RestoreRecord) (withBase : Bool) :
    Revives (resumeInPlace cfg rec withBase) := by
  refine Uses.ite trivial (Uses.bind (revives_call (.inl rfl)) fun stop => ?_)
  refine Uses.bind (revives_resumeStream _) fun r => ?_
  rcases r with _ | err
  · exact Uses.ite trivial (Uses.ite (only_startBase cfg _).revives trivial)
  · exact Uses.ite trivial (Uses.bind (revives_alert err) fun _ => trivial)

theorem revives_resumeLater : Revives resumeLater := by
  refine Uses.bind (revives_resumeStream .minutes) fun r => ?_
  rcases r with _ | err
  · exact Uses.bind (revives_call (.inl rfl)) fun _ => trivial
  · exact revives_alert err

theorem revives_runLater (later : Bool) : Revives (runLater later) :=
  Uses.ite revives_resumeLater trivial

theorem revives_resumeInterrupted (rec : RestoreRecord) : Revives (resumeInterrupted cfg rec) := by
  refine Uses.ite (Uses.bind (revives_alert _) fun _ => trivial) ?_
  refine Uses.bind (revives_resumeStream .second) fun r => ?_
  generalize hardError r = h
  rcases h with _ | x
  · refine Uses.bind (revives_call (.inl rfl)) fun r => ?_
    rcases r with err | first
    · trivial
    · exact Uses.ite (Uses.bind revives_resumeLater fun _ => trivial) trivial
  · exact Uses.bind (revives_alert x) fun _ => trivial

/-- What is kept when the stream is not disabled. -/
theorem Revives.streamed (h : Revives x) :
    Leaves ok (fun w => Streamed w.stream) x fun _ w => Streamed w.stream :=
  h.keeps (fun _ _ => trivial) fun _ _ ht hw => ht hw

theorem resumeStream_enabled (l : Limit) : Leaves timely (fun _ => True) (resumeStream l) fun r w =>
    w.stream.enabled = true ∨ ∃ x, r = some x ∧ (l = .second → x.kind ≠ .deadlineExceeded) := by
  have hwait : Leaves timely (fun w => w.stream.enabled = true) awaitChain
      fun _ w => w.stream.enabled = true :=
    only_awaitChain.stays fun _ _ => trivial
  refine .bind (Q := fun r w => r = .ok w.stream.enabled ∨
    ∃ x, r = .error x ∧ (l = .second → x.kind ≠ .deadlineExceeded)) (.op fun w e _ he => ⟨trivial, ?_⟩)
    fun r => ?_
  · cases hx : e.err with
    | none => exact .inl (by simp [device, hx, result])
    | some x => exact .inr ⟨x, by simp [device, hx, result], fun hl => he (by rw [hl]; rfl) x hx⟩
  rcases r with err | _ | _
  · refine .ret fun w h => ?_
    obtain ⟨x, hx, hk⟩ := h.resolve_left (by simp)
    cases hx
    exact .inr ⟨err, rfl, hk⟩
  · refine .bind (Q := fun r w => (r = .ok () ∧ w.stream.enabled = true) ∨
      ∃ x, r = .error x ∧ (l = .second → x.kind ≠ .deadlineExceeded)) (.op fun w e _ he => ⟨trivial, ?_⟩)
      fun r => ?_
    · cases hx : e.err with
      | none => exact .inl ⟨by simp [device, hx, result], by simp [device, hx, Stream.update]⟩
      | some x => exact .inr ⟨x, by simp [device, hx, result], fun hl => he (by rw [hl]; rfl) x hx⟩
    rcases r with err | _
    · refine .ret fun w h => ?_
      obtain ⟨x, hx, hk⟩ := h.resolve_left (by simp)
      cases hx
      exact .inr ⟨_, rfl, hk⟩
    · exact (hwait.pre fun w h => (h.resolve_right (by simp)).2).post fun _ _ h => .inl h
  · refine (hwait.pre fun w h => ?_).post fun _ _ h => .inl h
    rcases h with h | ⟨x, hx, _⟩
    · exact (Except.ok.inj h).symm
    · cases hx

/-- The record of a step that does not change how far the restore got. -/
structure Follows (rec rec' : RestoreRecord) : Prop where
  status : rec'.status = rec.status
  databases : rec'.ip.databases = rec.ip.databases
  clones : rec'.pitr.clones = rec.pitr.clones
  stage : rec'.ip.stage = rec.ip.stage
  swapStarted : rec'.ip.swapStarted = rec.ip.swapStarted

theorem Follows.refl (rec : RestoreRecord) : Follows rec rec := ⟨rfl, rfl, rfl, rfl, rfl⟩

theorem Follows.markResumed (rec : RestoreRecord) : Follows rec (markResumed rec) :=
  ⟨rfl, rfl, rfl, rfl, rfl⟩

/-- **A resume enables a stream that was enabled, or raises an alert.** -/
theorem resumeInPlace_streamed (rec : RestoreRecord) (withBase : Bool) :
    Leaves timely (fun w => Streamed w.stream ∨ rec.ip.streamWasEnabled = true)
      (resumeInPlace cfg rec withBase) fun r w => Streamed w.stream ∧ Follows rec r.1 := by
  refine .ite (fun hwas => ?_) fun _ => ?_
  · refine .ret fun w h => ⟨h.resolve_right ?_, .refl rec⟩
    simpa using hwas
  refine .bind (Q := fun _ _ => True) (.op fun _ _ _ _ => ⟨trivial, trivial⟩) fun stop => ?_
  refine .bind (resumeStream_enabled _) fun r => ?_
  rcases r with _ | err
  · refine .pre (P := fun w => Streamed w.stream) ?_ fun w h => .enabled (h.resolve_right (by simp))
    refine .ite (fun _ => .ret fun w h => ⟨h, .markResumed rec⟩) fun _ => ?_
    refine .ite (fun _ => ?_) fun _ => .ret fun w h => ⟨h, .markResumed rec⟩
    refine .bind (Q := fun _ w => Streamed w.stream) (.op fun w e h _ => ⟨trivial, h⟩) fun r => ?_
    rcases r with err | base
    · exact .ite (fun _ => .ret fun w h => ⟨h, .markResumed rec⟩)
        fun _ => .ret fun w h => ⟨h, .markResumed rec⟩
    · exact .ret fun w h => ⟨h, rfl, rfl, rfl, rfl, rfl⟩
  · refine .ite (fun hstop => ?_) fun _ => ?_
    · -- during a shutdown only the wait for the new chain ran out of time
      refine .ret fun w h => ⟨.enabled (h.resolve_right ?_), .markResumed rec⟩
      rintro ⟨x, hx, hk⟩
      cases hx
      simp only [Bool.and_eq_true, decide_eq_true_eq] at hstop
      exact hk (by rw [hstop.1]; rfl) hstop.2
    · refine .bind (Q := fun _ w => Streamed w.stream) (.op fun w e _ _ => ⟨trivial, .alert _ err⟩)
        fun _ => ?_
      exact .ret fun w h => ⟨h, .refl rec⟩

/-- **The recovery enables the stream, or raises an alert.** -/
theorem resumeInterrupted_streamed (rec : RestoreRecord) :
    Leaves timely (fun _ => True) (resumeInterrupted cfg rec) fun _ w => Streamed w.stream := by
  refine .ite (fun _ => ?_) fun _ => ?_
  · exact .bind (Q := fun _ w => Streamed w.stream) (.op fun w e _ _ => ⟨trivial, .alert _ _⟩)
      fun _ => .ret fun w h => h
  refine (resumeStream_enabled .second).bind fun r => ?_
  rcases hh : hardError r with _ | x
  · refine .pre (P := fun w => Streamed w.stream) ?_ fun w h => .enabled (h.resolve_right ?_)
    · refine .bind (Q := fun _ w => Streamed w.stream) (.op fun w e h _ => ⟨trivial, h⟩) fun r => ?_
      rcases r with err | first
      · exact .ret fun w h => h
      · exact .ite (fun _ => revives_resumeLater.streamed.bind fun _ => .ret fun w h => h)
          fun _ => .ret fun w h => h
    · rintro ⟨x, rfl, hk⟩
      simp [hardError, hk rfl] at hh
  · exact .bind (Q := fun _ w => Streamed w.stream) (.op fun w e _ _ => ⟨trivial, .alert _ x⟩)
      fun _ => .ret fun w h => h

end MongoRescue.InPlace.Proof
