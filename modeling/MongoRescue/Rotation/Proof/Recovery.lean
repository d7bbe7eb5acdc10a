import MongoRescue.Rotation.Rotate
import MongoRescue.Rotation.Proof.Reseal

/-!
# A rotation is crash consistent

`Found k d`: the database is sealed with `k` and a start finds `k`, either in `secret.key`, or in
`secret.key.next` with a marker of the rotation from the current key to it. Every call of every life keeps
`∃ k, Found k d` (`life_keeps`), so it holds at every moment, and a start that no call fails settles it
(`start_quiet`). A process that holds a key holds the one the database uses unless a marker is pending
(`Holds`): that is why a rotation that did not finish blocks the next one.
-/

namespace MongoRescue.Rotation.Proof

open Conc (Proc)

/-! ## What a start finds -/

theorem Sealed.unique {k k' : Key} {db : Database} (h : Sealed k db) (h' : Sealed k' db) : k = k' := by
  have he := h.setting_eq.symm.trans h'.setting_eq
  cases he
  rfl

theorem Sealed.marker {k : Key} {db : Database} (h : Sealed k db) (m : Option KeyRotation) :
    Sealed k { db with marker := m } :=
  ⟨h.cells, h.check, h.checked⟩

section
variable (cfg : Config)

/-- The marker of a rotation from `c` to `k`. -/
def Between (c k : Key) (m : KeyRotation) : Prop :=
  m.oldFingerprint = cfg.fingerprint c ∧ m.newFingerprint = cfg.fingerprint k

/-- `secret.key` opens the database. -/
structure Settled (k : Key) (d : Disk) : Prop where
  db : Sealed k d.db
  current : d.current = some k

/-- The database was re-sealed and the new key is not installed yet. -/
structure Swapping (c k : Key) (d : Disk) : Prop where
  db : Sealed k d.db
  current : d.current = some c
  next : d.next = some k
  marker : ∃ m, d.db.marker = some m ∧ Between cfg c k m

def Found (k : Key) (d : Disk) : Prop := Settled k d ∨ ∃ c, Swapping cfg c k d

def Inv (d : Disk) : Prop := ∃ k, Found cfg k d

/-- What a process that holds `key` relies on. -/
def Holds (key : Key) (d : Disk) : Prop := Inv cfg d ∧ (d.db.marker = none → Settled key d)

/-- Nothing of a rotation is left. -/
structure Clean (k : Key) (d : Disk) : Prop extends Settled k d where
  next : d.next = none
  marker : d.db.marker = none

variable {cfg} {c k key : Key} {d : Disk}

theorem Found.sealed (h : Found cfg k d) : Sealed k d.db := by
  rcases h with h | ⟨c, h⟩
  · exact h.db
  · exact h.db

/-- The current key opens the database. -/
theorem Found.settled (h : Found cfg k d) (hc : d.current = some k) : Settled k d := ⟨h.sealed, hc⟩

theorem Settled.inv (h : Settled k d) : Inv cfg d := ⟨k, .inl h⟩

theorem Swapping.inv (h : Swapping cfg c k d) : Inv cfg d := ⟨k, .inr ⟨c, h⟩⟩

theorem Settled.setNext (h : Settled k d) (x : Option Key) : Settled k (d.setFile .next x) :=
  ⟨h.db, h.current⟩

theorem Settled.setPrevious (h : Settled k d) (x : Option Key) : Settled k (d.setFile .previous x) :=
  ⟨h.db, h.current⟩

theorem Settled.setMarker (h : Settled k d) (m : Option KeyRotation) : Settled k (d.setMarker m) :=
  ⟨h.db.marker m, h.current⟩

theorem Swapping.setPrevious (h : Swapping cfg c k d) (x : Option Key) :
    Swapping cfg c k (d.setFile .previous x) :=
  ⟨h.db, h.current, h.next, h.marker⟩

theorem Swapping.install (h : Swapping cfg c k d) :
    Settled k ((d.setFile .current (some k)).setFile .next none) :=
  ⟨h.db, rfl⟩

theorem Inv.setPrevious (h : Inv cfg d) (x : Option Key) : Inv cfg (d.setFile .previous x) := by
  obtain ⟨k, h | ⟨c, h⟩⟩ := h
  · exact (h.setPrevious x).inv
  · exact (h.setPrevious x).inv

theorem Settled.clean (h : Settled k d) : Clean k ((d.setFile .next none).setMarker none) :=
  ⟨(h.setNext none).setMarker none, rfl, rfl⟩

/-! ## Calls -/

variable {α : Type}

variable (cfg) in
abbrev Wp (x : Act α) (Q : α → Disk → Prop) (d : Disk) : Prop :=
  Crash.Wp (device cfg) (fun _ _ _ => True) (Inv cfg) x Q d

variable (cfg) in
/-- `x` is one call, and each of its outcomes from `d` is in `R`. -/
def Calls (x : Act α) (d : Disk) (R : α → Disk → Prop) : Prop :=
  ∃ o k, x = .call o k ∧ ∀ e, ∃ a, k (device cfg o d e).2 = .ret a ∧ R a (device cfg o d e).1

theorem Calls.wp {α β : Type} {x : Act α} {f : α → Act β} {R : α → Disk → Prop} {Q : β → Disk → Prop}
    (h : Calls cfg x d R) (hf : ∀ a d', R a d' → Inv cfg d' ∧ Wp cfg (f a) Q d') :
    Wp cfg (x >>= f) Q d := by
  obtain ⟨o, k, rfl, hk⟩ := h
  intro e _
  obtain ⟨a, ha, hr⟩ := hk e
  refine ⟨(hf a _ hr).1, ?_⟩
  show Wp cfg (Proc.bind (k (device cfg o d e).2) f) Q _
  rw [ha]
  exact (hf a _ hr).2

/-- A change that fails left the disk as it was or took effect. -/
inductive Changed (d d' : Disk) : Except Err Unit → Disk → Prop
  | ok : Changed d d' (.ok ()) d'
  | lost (e : Err) : Changed d d' (.error e) d
  | late (e : Err) : Changed d d' (.error e) d'

/-- A read that fails does so with an error of its own. -/
inductive Answered {α : Type} (d : Disk) (a : Except Err α) : Except Err α → Disk → Prop
  | ok : Answered d a a d
  | failed (text : String) : Answered d a (.error (.fault text)) d

theorem changed_change (e : Env) (d d' : Disk) : Changed d d' (change e d d').2 (change e d d').1 := by
  unfold change
  split
  · split
    · exact .late _
    · exact .lost _
  · exact .ok

theorem answered_answer (e : Env) (d : Disk) (a : Except Err α) :
    Answered d a (answer e d a).2 (answer e d a).1 := by
  unfold answer
  split
  · exact .failed _
  · exact .ok

variable (cfg) (d)

theorem calls_keyFileExists (p : Path) :
    Calls cfg (Call.keyFileExists p) d (Answered d (.ok (d.file p).isSome)) :=
  ⟨_, _, rfl, fun e => ⟨_, rfl, answered_answer e d _⟩⟩

theorem calls_readKey (p : Path) : Calls cfg (Call.readKey p) d (Answered d (d.readKey p)) :=
  ⟨_, _, rfl, fun e => ⟨_, rfl, answered_answer e d _⟩⟩

theorem calls_writeKey (p : Path) (k : Key) :
    Calls cfg (Call.writeKey p k) d (Changed d (d.setFile p (some k))) :=
  ⟨_, _, rfl, fun e => ⟨_, rfl, changed_change e d _⟩⟩

theorem calls_removeKeyFile (p : Path) :
    Calls cfg (Call.removeKeyFile p) d (Changed d (d.setFile p none)) :=
  ⟨_, _, rfl, fun e => ⟨_, rfl, changed_change e d _⟩⟩

theorem calls_pendingKeyRotation :
    Calls cfg Call.pendingKeyRotation d (Answered d (.ok d.db.marker)) :=
  ⟨_, _, rfl, fun e => ⟨_, rfl, answered_answer e d _⟩⟩

theorem calls_endKeyRotation : Calls cfg Call.endKeyRotation d (Changed d (d.setMarker none)) :=
  ⟨_, _, rfl, fun e => ⟨_, rfl, changed_change e d _⟩⟩

theorem calls_announce : Calls cfg Call.announce d fun _ d' => d' = d :=
  ⟨_, _, rfl, fun _ => ⟨_, rfl, rfl⟩⟩

variable {d}

theorem calls_installKeyFile (h : d.next = some k) : Calls cfg (Call.installKeyFile .next .current) d
    (Changed d ((d.setFile .current (some k)).setFile .next none)) := by
  refine ⟨_, _, rfl, fun e => ⟨_, rfl, ?_⟩⟩
  simp only [device, Disk.file, h]
  exact changed_change e d _

theorem calls_openSQLite (h : Sealed k d.db) (box : Key) : Calls cfg (Call.openSQLite box) d
    (Answered d (if k = box then .ok () else .error .mismatch)) := by
  refine ⟨_, _, rfl, fun e => ⟨_, rfl, ?_⟩⟩
  simp only [device, h.openStore]
  by_cases hk : k = box
  · simp only [if_pos hk]
    unfold change
    split
    · split <;> exact .failed _
    · exact .ok
  · simp only [if_neg hk]
    exact answered_answer e d _

theorem calls_keyCheckOpens (h : Sealed k d.db) (box : Key) :
    Calls cfg (Call.keyCheckOpens box) d (Answered d (.ok (decide (k = box)))) := by
  refine ⟨_, _, rfl, fun e => ⟨_, rfl, ?_⟩⟩
  simp only [device, h.keyCheckOpens]
  exact answered_answer e d _

theorem calls_beginKeyRotation (m : KeyRotation) : Calls cfg (Call.beginKeyRotation m) d fun r d' =>
    (d' = d ∧ ∃ e, r = .error e) ∨ d.db.marker = none ∧ Changed d (d.setMarker (some m)) r d' := by
  refine ⟨_, _, rfl, fun e => ⟨_, rfl, ?_⟩⟩
  simp only [device]
  split
  · exact .inl ⟨rfl, _, rfl⟩
  · split
    · unfold answer
      split <;> exact .inl ⟨rfl, _, rfl⟩
    · rename_i hm
      exact .inr ⟨hm, changed_change e d _⟩

variable {cfg}

/-! ## Programs that stop at the first error -/

variable (cfg) in
/-- The program ended, with `R` when it returned a value. -/
def Ends (R : α → Disk → Prop) (r : Except Err α) (d : Disk) : Prop :=
  Inv cfg d ∧ ∀ a, r = .ok a → R a d

theorem Ends.error {R : α → Disk → Prop} (h : Inv cfg d) (e : Err) : Ends cfg R (.error e) d :=
  ⟨h, fun a ha => by cases ha⟩

theorem Ends.ok {R : α → Disk → Prop} {a : α} (h : Inv cfg d) (hr : R a d) : Ends cfg R (.ok a) d :=
  ⟨h, fun b hb => by cases hb; exact hr⟩

section
variable {α β : Type} {R : β → Disk → Prop}

theorem Calls.change {x : Act (Except Err Unit)} {d' : Disk} {f : Except Err Unit → Act (Except Err β)}
    (hx : Calls cfg x d (Changed d d')) (hd : Inv cfg d) (hd' : Inv cfg d')
    (herr : ∀ e, f (.error e) = pure (.error e)) (hok : Wp cfg (f (.ok ())) (Ends cfg R) d') :
    Wp cfg (x >>= f) (Ends cfg R) d := by
  refine hx.wp fun r d'' hr => ?_
  cases hr with
  | ok => exact ⟨hd', hok⟩
  | lost e => exact ⟨hd, by rw [herr]; exact .error hd e⟩
  | late e => exact ⟨hd', by rw [herr]; exact .error hd' e⟩

theorem Calls.read {x : Act (Except Err α)} {a : Except Err α} {f : Except Err α → Act (Except Err β)}
    (hx : Calls cfg x d (Answered d a)) (hd : Inv cfg d)
    (herr : ∀ t, f (.error (.fault t)) = pure (.error (.fault t))) (hok : Wp cfg (f a) (Ends cfg R) d) :
    Wp cfg (x >>= f) (Ends cfg R) d := by
  refine hx.wp fun r d'' hr => ?_
  cases hr with
  | ok => exact ⟨hd, hok⟩
  | failed t => exact ⟨hd, by rw [herr]; exact .error hd _⟩

end

/-! ## Opening -/

theorem settleOpened_ends (h : Settled key d) :
    Wp cfg (settleOpened cfg key) (Ends cfg fun _ d' => Clean key d') d := by
  refine (calls_pendingKeyRotation cfg d).read h.inv (fun _ => rfl) ?_
  have hn := h.setNext none
  rcases hm : d.db.marker with _ | m
  · refine (calls_removeKeyFile cfg d .next).change h.inv hn.inv (fun _ => rfl) ?_
    exact .ok hn.inv ⟨hn, rfl, hm⟩
  · refine (calls_removeKeyFile cfg d .next).change h.inv hn.inv (fun _ => rfl) ?_
    refine (calls_endKeyRotation cfg _).change hn.inv h.clean.inv (fun _ => rfl) ?_
    show Wp cfg (if _ then _ else _) _ _
    split <;> exact .ok h.clean.inv h.clean

/-- A candidate is the key of its file, and opens the database. -/
structure Candidate (d : Disk) (p : Path) (o : Opened) : Prop where
  file : d.file p = some o.key
  opens : Sealed o.key d.db

theorem tryCandidate_ends (hd : Inv cfg d) (p : Path) (isMatch : KeyRotation → String → Bool) :
    Wp cfg (tryCandidate cfg p isMatch)
      (Ends cfg fun r d' => d' = d ∧ ∀ o, r = some o → Candidate d p o) d := by
  obtain ⟨k, hk⟩ := hd
  have hd : Inv cfg d := ⟨k, hk⟩
  have hnone : Ends cfg (fun (r : Option Opened) d' => d' = d ∧ ∀ o, r = some o → Candidate d p o)
      (.ok none) d := .ok hd ⟨rfl, fun o ho => by cases ho⟩
  refine (calls_keyFileExists cfg d p).read hd (fun _ => rfl) ?_
  rcases hp : d.file p with _ | key
  · exact hnone
  refine (calls_readKey cfg d p).read hd (fun _ => rfl) ?_
  simp only [Disk.readKey, hp]
  refine (calls_openSQLite cfg hk.sealed key).read hd (fun _ => rfl) ?_
  by_cases hkey : k = key
  · rw [if_pos hkey]
    refine (calls_pendingKeyRotation cfg d).read hd (fun _ => rfl) ?_
    rcases hm : d.db.marker with _ | m
    · exact hnone
    · show Wp cfg (if _ then _ else _) _ _
      split
      · exact .ok hd ⟨rfl, fun o ho => by cases ho; exact ⟨hp, hkey ▸ hk.sealed⟩⟩
      · exact hnone
  · rw [if_neg hkey]
    exact hnone

theorem endKeyRotation_ends (h : Settled k d) (hn : d.next = none) :
    Wp cfg Call.endKeyRotation (Ends cfg fun _ d' => Clean k d') d := by
  have hm := h.setMarker none
  intro e _
  show Inv cfg (change e d (d.setMarker none)).1 ∧
    Ends cfg _ (change e d (d.setMarker none)).2 (change e d (d.setMarker none)).1
  have hr := changed_change e d (d.setMarker none)
  rcases hch : change e d (d.setMarker none) with ⟨d', r⟩
  rw [hch] at hr
  cases hr with
  | ok => exact ⟨hm.inv, .ok hm.inv ⟨hm, hn, rfl⟩⟩
  | lost err => exact ⟨h.inv, .error h.inv err⟩
  | late err => exact ⟨hm.inv, .error hm.inv err⟩

theorem completeInstall_ends (h : Swapping cfg c k d) :
    Wp cfg (completeInstall c) (Ends cfg fun _ d' => Clean k d') d := by
  have hp := h.setPrevious (some c)
  refine (calls_writeKey cfg d .previous c).change h.inv hp.inv (fun _ => rfl) ?_
  refine (calls_installKeyFile cfg hp.next).change hp.inv hp.install.inv (fun _ => rfl) ?_
  exact endKeyRotation_ends hp.install rfl

theorem rollBackInstall_ends (hd : Inv cfg d) (h : Sealed k d.db) :
    Wp cfg (rollBackInstall k) (Ends cfg fun _ d' => Clean k d') d := by
  have hc : Settled k (d.setFile .current (some k)) := ⟨h, rfl⟩
  have hn := hc.setNext none
  have hp := hn.setPrevious none
  refine (calls_writeKey cfg d .current k).change hd hc.inv (fun _ => rfl) ?_
  refine (calls_removeKeyFile cfg _ .next).change hc.inv hn.inv (fun _ => rfl) ?_
  refine (calls_removeKeyFile cfg _ .previous).change hn.inv hp.inv (fun _ => rfl) ?_
  exact endKeyRotation_ends hp rfl

/-- The current key does not open the database: only a rotation to another key explains that. -/
theorem openMismatched_ends (hd : Inv cfg d) (hc : d.current = some key) (hne : ¬ Sealed key d.db) :
    Wp cfg (openMismatched cfg key) (Ends cfg fun o d' => Clean o.key d') d := by
  refine Crash.Wp.bind ((tryCandidate_ends hd .next _).conseq ?_)
  rintro (e | _ | o) d' ⟨hd', hr⟩
  · exact .error hd' e
  · obtain ⟨rfl, -⟩ := hr _ rfl
    refine Crash.Wp.bind ((tryCandidate_ends hd .previous _).conseq ?_)
    rintro (e | _ | o) d' ⟨hd', hr⟩
    · exact .error hd' e
    · exact .error hd' _
    · obtain ⟨rfl, ho⟩ := hr _ rfl
      refine Crash.Wp.bind ((rollBackInstall_ends hd (ho o rfl).opens).conseq ?_)
      rintro (e | _) d' ⟨hd', hr⟩
      · exact .error hd' e
      · exact .ok hd' (hr _ rfl)
  · obtain ⟨rfl, ho⟩ := hr _ rfl
    obtain ⟨k, hs | ⟨c, hs⟩⟩ := hd
    · rw [hs.current] at hc
      cases hc
      exact absurd hs.db hne
    · obtain rfl : c = key := Option.some.inj (hs.current.symm.trans hc)
      obtain rfl : k = o.key := hs.db.unique (ho o rfl).opens
      refine Crash.Wp.bind ((completeInstall_ends hs).conseq ?_)
      rintro (e | _) d' ⟨hd', hr⟩
      · exact .error hd' e
      · exact .ok hd' (hr _ rfl)

/-- **`Open` settles what it finds**, however its calls fail. -/
theorem openDatabase_ends {fromEnv : Bool} (hd : Inv cfg d)
    (hc : fromEnv = false → d.current = some key) : Wp cfg (openDatabase cfg key fromEnv)
      (Ends cfg fun o d' => fromEnv = false → Clean o.key d') d := by
  obtain ⟨k, hk⟩ := hd
  have hd : Inv cfg d := ⟨k, hk⟩
  refine (calls_openSQLite cfg hk.sealed key).read hd (fun _ => rfl) ?_
  by_cases hkey : k = key
  · subst hkey
    rw [if_pos rfl]
    show Wp cfg (if _ then _ else _) _ _
    split
    · rename_i hf
      exact .ok hd fun hno => by rw [hf] at hno; cases hno
    · rename_i hf
      have hf : fromEnv = false := by simpa using hf
      refine Crash.Wp.bind ((settleOpened_ends (hk.settled (hc hf))).conseq ?_)
      rintro (e | ⟨outcome, m⟩) d' ⟨hd', hr⟩
      · exact .error hd' e
      · exact .ok hd' fun _ => hr _ rfl
  · rw [if_neg hkey]
    show Wp cfg (if _ then _ else _) _ _
    split
    · exact .error hd _
    · rename_i hf
      have hf : fromEnv = false := by simpa using hf
      refine (openMismatched_ends hd (hc hf) fun hs => hkey (hk.sealed.unique hs)).conseq ?_
      exact fun r d' h => ⟨h.1, fun o ho _ => h.2 o ho⟩

/-! ## Rotating -/

theorem Settled.holds (h : Settled key d) : Holds cfg key d := ⟨h.inv, fun _ => h⟩

theorem Inv.holds (h : Inv cfg d) (hm : d.db.marker ≠ none) (key : Key) : Holds cfg key d :=
  ⟨h, fun hn => absurd hn hm⟩

/-- A marked rotation before the transaction committed. -/
structure Marked (cfg : Config) (old next : Key) (d : Disk) : Prop extends Settled old d where
  marker : ∃ m, d.db.marker = some m ∧ Between cfg old next m

theorem Swapping.pending (h : Swapping cfg c k d) : d.db.marker ≠ none := by
  obtain ⟨m, hm, -⟩ := h.marker
  simp [hm]

section
variable {old next : Key}

theorem Marked.setNext (h : Marked cfg old next d) (x : Option Key) :
    Marked cfg old next (d.setFile .next x) :=
  ⟨h.toSettled.setNext x, h.marker⟩

theorem discardNext_holds (h : Settled old d) :
    Wp cfg discardNext (fun _ d' => Holds cfg old d') d := by
  refine (calls_removeKeyFile cfg d .next).wp fun r d' hr => ?_
  have hd' : Settled old d' := by
    cases hr with
    | ok => exact h.setNext none
    | lost e => exact h
    | late e => exact h.setNext none
  refine ⟨hd'.inv, (calls_endKeyRotation cfg d').wp fun r d'' hr => ?_⟩
  have hd'' : Settled old d'' := by
    cases hr with
    | ok => exact hd'.setMarker none
    | lost e => exact hd'
    | late e => exact hd'.setMarker none
  exact ⟨hd''.inv, hd''.holds⟩

/-- `abort` discards the next key only when the old one opens the database. -/
theorem abort_holds (hd : Inv cfg d) (hc : d.current = some old) (hm : d.db.marker ≠ none) :
    Wp cfg (abort (some old)) (fun _ d' => Holds cfg old d') d := by
  obtain ⟨k, hk⟩ := hd
  have hd : Inv cfg d := ⟨k, hk⟩
  refine (calls_keyCheckOpens cfg hk.sealed old).wp fun r d' hr => ?_
  cases hr with
  | failed t => exact ⟨hd, hd.holds hm old⟩
  | ok =>
    refine ⟨hd, ?_⟩
    by_cases hkey : k = old
    · subst hkey
      rw [decide_eq_true rfl]
      exact Crash.Wp.bind ((discardNext_holds (hk.settled hc)).conseq fun _ _ h => h)
    · rw [decide_eq_false hkey]
      exact hd.holds hm old

/-- The key files and the marker between the write of the next key and the swap. -/
structure Prepared (cfg : Config) (old next : Key) (d : Disk) : Prop where
  current : d.current = some old
  kept : d.next = some next
  marker : ∃ m, d.db.marker = some m ∧ Between cfg old next m

theorem Prepared.swapping (h : Prepared cfg old next d) (hs : Sealed next d.db) :
    Swapping cfg old next d :=
  ⟨hs, h.current, h.kept, h.marker⟩

theorem Prepared.pending (h : Prepared cfg old next d) : d.db.marker ≠ none := by
  obtain ⟨m, hm, -⟩ := h.marker
  simp [hm]

/-- The transaction was rolled back, or the database is sealed with the next key. -/
theorem calls_transaction {r : SecretKeyRotation} (now : Int) (h : Sealed old d.db)
    (hp : Prepared cfg old r.next d) : Calls cfg (Call.transaction old r now) d fun c d' =>
      Prepared cfg old r.next d' ∧ (Sealed r.next d'.db ∨ Sealed old d'.db ∧ ∀ res, c ≠ .committed res) := by
  refine ⟨_, _, rfl, fun e => ⟨_, rfl, ?_⟩⟩
  simp only [device]
  split
  · exact ⟨hp, .inr ⟨h, fun res hres => by cases hres⟩⟩
  · rename_i db res hr
    obtain ⟨hs, hm⟩ := reseal_sealed h hr
    have hp' : Prepared cfg old r.next { d with db := db } := ⟨hp.current, hp.kept, by rw [hm]; exact hp.marker⟩
    split
    · exact ⟨hp', .inl hs⟩
    · split
      · exact ⟨hp', .inl hs⟩
      · split
        · exact ⟨hp, .inr ⟨h, fun res hres => by cases hres⟩⟩
        · exact ⟨hp, .inr ⟨h, fun res hres => by cases hres⟩⟩

/-- Whatever the commit reports, `RotateSecretBox` succeeds only when the next key opens the database. -/
theorem rotateSecretBox_ends {r : SecretKeyRotation} {now : Int} (h : Sealed old d.db)
    (hp : Prepared cfg old r.next d) : Wp cfg (rotateSecretBox old r now) (fun x d' =>
      Inv cfg d' ∧ Prepared cfg old r.next d' ∧ ∀ res, x = .ok res → Sealed r.next d'.db) d := by
  refine (calls_transaction now h hp).wp fun c d' hc => ?_
  obtain ⟨hp', hs⟩ := hc
  obtain ⟨k, hk, hinv⟩ : ∃ k, Sealed k d'.db ∧ Inv cfg d' := by
    rcases hs with hs | ⟨hs, -⟩
    · exact ⟨_, hs, (hp'.swapping hs).inv⟩
    · exact ⟨_, hs, (Settled.mk hs hp'.current).inv⟩
  refine ⟨hinv, ?_⟩
  cases c with
  | rolledBack e => exact ⟨hinv, hp', fun res hres => by cases hres⟩
  | committed res =>
    refine ⟨hinv, hp', fun _ _ => ?_⟩
    rcases hs with hs | ⟨-, hno⟩
    · exact hs
    · exact absurd rfl (hno res)
  | reported e res =>
    refine (calls_keyCheckOpens cfg hk r.next).wp fun x d'' hx => ?_
    cases hx with
    | failed t => exact ⟨hinv, hinv, hp', fun res hres => by cases hres⟩
    | ok =>
      refine ⟨hinv, ?_⟩
      by_cases hkey : k = r.next
      · rw [decide_eq_true hkey]
        exact ⟨hinv, hp', fun _ _ => hkey ▸ hk⟩
      · rw [decide_eq_false hkey]
        exact ⟨hinv, hp', fun res hres => by cases hres⟩

/-- Once the database uses the next key, the process holds it, installed or not. -/
theorem installNew_holds {req : Request} {res : KeyRotationResult} (h : Swapping cfg old req.next d) :
    Wp cfg (installNew cfg old req res) (fun r d' => Holds cfg r.key d') d := by
  have hp := h.setPrevious (some old)
  have hlast : ∀ {d₁ : Disk} {x : Rotated}, Settled req.next d₁ → x.key = req.next →
      Wp cfg (Call.endKeyRotation >>= fun _ => pure x) (fun r d' => Holds cfg r.key d') d₁ := by
    intro d₁ x hs hx
    refine (calls_endKeyRotation cfg d₁).wp fun r d' hr => ?_
    have hd' : Settled req.next d' := by
      cases hr with
      | ok => exact hs.setMarker none
      | lost e => exact hs
      | late e => exact hs.setMarker none
    exact ⟨hd'.inv, by show Holds cfg x.key d'; rw [hx]; exact hd'.holds⟩
  refine (calls_writeKey cfg d .previous old).wp fun r d' hr => ?_
  cases hr with
  | lost e => exact ⟨h.inv, h.inv.holds h.pending _⟩
  | late e => exact ⟨hp.inv, hp.inv.holds hp.pending _⟩
  | ok =>
    refine ⟨hp.inv, (calls_installKeyFile cfg hp.next).wp fun r d' hr => ?_⟩
    have hi := hp.install
    cases hr with
    | lost e => exact ⟨hp.inv, hp.inv.holds hp.pending _⟩
    | late e => exact ⟨hi.inv, hi.holds⟩
    | ok =>
      refine ⟨hi.inv, ?_⟩
      show Wp cfg (if _ then _ else _) _ _
      split
      · refine (calls_announce cfg _).wp fun _ d' hd' => ?_
        subst hd'
        exact ⟨hi.inv, hlast hi rfl⟩
      · exact hlast hi rfl

theorem rotateMarked_holds {mac : Go.Bytes} {install : String} {req : Request}
    (h : Marked cfg old req.next d) :
    Wp cfg (rotateMarked cfg old mac install req) (fun r d' => Holds cfg r.key d') d := by
  refine (calls_writeKey cfg d .next req.next).wp fun r d' hr => ?_
  have habort : ∀ {d₁ : Disk} {x : Rotated}, Settled old d₁ → x.key = old →
      Wp cfg (abort none >>= fun _ => pure x) (fun r d' => Holds cfg r.key d') d₁ := by
    rintro d₁ x hs rfl
    exact Crash.Wp.bind (Crash.Wp.bind ((discardNext_holds hs).conseq fun _ _ h => h))
  have hn := h.setNext (some req.next)
  cases hr with
  | lost e => exact ⟨h.inv, habort h.toSettled rfl⟩
  | late e => exact ⟨hn.inv, habort hn.toSettled rfl⟩
  | ok =>
    refine ⟨hn.inv, Crash.Wp.bind ((rotateSecretBox_ends hn.db
      ⟨hn.current, rfl, hn.marker⟩).conseq ?_)⟩
    rintro (e | res) d' ⟨hd', hp, hs⟩
    · have hheld := hd'.holds hp.pending old
      split
      · rename_i hres
        cases hres
      · exact hheld
      · refine Crash.Wp.bind ((abort_holds hd' hp.current hp.pending).conseq ?_)
        rintro (e | _) d'' h
        · exact h
        · exact h
    · exact installNew_holds (hp.swapping (hs _ rfl))

/-- **`RotateAs` keeps the key findable**, and the process holds the key the database uses. -/
theorem rotateAs_holds {haMode fromEnv : Bool} {req : Request} (h : Holds cfg old d) :
    Wp cfg (rotateAs cfg haMode fromEnv old req) (fun r d' => Holds cfg r.key d') d := by
  unfold rotateAs
  split
  · exact h
  split
  · exact h
  split
  · exact h
  refine (calls_beginKeyRotation cfg _).wp fun r d' hr => ?_
  have hmark := fun hm => (h.2 hm).setMarker (some ⟨cfg.fingerprint old, cfg.fingerprint req.next, req.now,
    req.actor, req.approvalID⟩)
  rcases r with e | _
  · have hd' : Holds cfg old d' := by
      rcases hr with ⟨rfl, -⟩ | ⟨hm, hr⟩
      · exact h
      · cases hr with
        | lost => exact h
        | late => exact (hmark hm).holds
    refine ⟨hd'.1, ?_⟩
    split
    · exact hd'
    · exact hd'
    · rename_i hres
      cases hres
  · rcases hr with ⟨-, e, he⟩ | ⟨hm, hr⟩
    · cases he
    · cases hr
      exact ⟨(hmark hm).inv, rotateMarked_holds ⟨hmark hm, _, rfl, rfl, rfl⟩⟩

end

/-! ## Lives -/

theorem serve_keeps {haMode fromEnv : Bool} (jobs : List Job) (h : fromEnv = false → Holds cfg key d)
    (hd : Inv cfg d) : Wp cfg (serve cfg haMode fromEnv key jobs) (fun _ _ => True) d := by
  induction jobs generalizing key d with
  | nil => trivial
  | cons j jobs ih =>
    cases j with
    | rotate req =>
      by_cases hf : fromEnv = false
      · refine Crash.Wp.bind ((rotateAs_holds (h hf)).conseq fun r d' hr => ?_)
        exact ih (fun _ => hr) hr.1
      · have hf : fromEnv = true := by simpa using hf
        have hret : ∃ e, rotateAs cfg haMode fromEnv key req = pure { err := some e, key := key } := by
          unfold rotateAs
          rw [if_pos hf]
          split
          · exact ⟨_, rfl⟩
          · exact ⟨_, rfl⟩
        obtain ⟨e, he⟩ := hret
        rw [serve, he]
        exact ih h hd
    | forgetPreviousKey =>
      refine (calls_removeKeyFile cfg d .previous).wp fun r d' hr => ?_
      have hp := hd.setPrevious none
      have hh : fromEnv = false → Holds cfg key (d.setFile .previous none) := fun hf =>
        ⟨hp, fun hm => ((h hf).2 hm).setPrevious none⟩
      cases hr with
      | ok => exact ⟨hp, ih hh hp⟩
      | lost => exact ⟨hd, ih h hd⟩
      | late => exact ⟨hp, ih hh hp⟩

/-- A start returns with nothing of a rotation left, or fails. -/
theorem start_ends (env : Option Key) (fresh : Key) (hd : Inv cfg d) :
    Wp cfg (start cfg env fresh) (Ends cfg fun o d' => env.isSome = false → Clean o.key d') d := by
  cases env with
  | some k => exact openDatabase_ends hd fun hf => by cases hf
  | none =>
    obtain ⟨c, hc⟩ : ∃ c, d.current = some c := by
      obtain ⟨k, h | ⟨c, h⟩⟩ := hd
      · exact ⟨k, h.current⟩
      · exact ⟨c, h.current⟩
    have hload : Wp cfg (loadKey none fresh) (fun r d' => d' = d ∧ ∀ k, r = .ok k → k = c) d := by
      refine (calls_readKey cfg d .current).wp fun r d' hr => ?_
      cases hr with
      | failed t => exact ⟨hd, rfl, fun k hk => by cases hk⟩
      | ok =>
        simp only [Disk.readKey, Disk.file, hc]
        exact ⟨hd, rfl, fun k hk => by cases hk; rfl⟩
    refine Crash.Wp.bind (hload.conseq ?_)
    rintro (e | k) d' ⟨rfl, hk⟩
    · exact .error hd e
    · obtain rfl := hk k rfl
      exact openDatabase_ends hd fun _ => hc

theorem life_keeps (b : Boot) : Crash.Triple (device cfg) (fun _ _ _ => True) (Inv cfg) (Inv cfg)
    (life cfg b) fun _ _ => True := by
  intro d hd
  refine Crash.Wp.bind ((start_ends b.env b.fresh hd).conseq ?_)
  rintro (e | o) d' ⟨hd', hr⟩
  · trivial
  · exact serve_keeps b.jobs (fun hf => (hr _ rfl hf).toSettled.holds) hd'

/-! ## The start that no call fails -/

section quiet

variable (cfg) in
abbrev quietly {α : Type} (x : Act α) (d : Disk) : α × Disk := Crash.eval (device cfg) quiet x d

@[simp] theorem quietly_keyFileExists (d : Disk) (p : Path) :
    quietly cfg (Call.keyFileExists p) d = (.ok (d.file p).isSome, d) := rfl

@[simp] theorem quietly_readKey (d : Disk) (p : Path) :
    quietly cfg (Call.readKey p) d = (d.readKey p, d) := rfl

@[simp] theorem quietly_writeKey (d : Disk) (p : Path) (k : Key) :
    quietly cfg (Call.writeKey p k) d = (.ok (), d.setFile p (some k)) := rfl

@[simp] theorem quietly_removeKeyFile (d : Disk) (p : Path) :
    quietly cfg (Call.removeKeyFile p) d = (.ok (), d.setFile p none) := rfl

@[simp] theorem quietly_pendingKeyRotation (d : Disk) :
    quietly cfg Call.pendingKeyRotation d = (.ok d.db.marker, d) := rfl

@[simp] theorem quietly_endKeyRotation (d : Disk) :
    quietly cfg Call.endKeyRotation d = (.ok (), d.setMarker none) := rfl

theorem quietly_installKeyFile (h : d.next = some k) :
    quietly cfg (Call.installKeyFile .next .current) d =
      (.ok (), (d.setFile .current (some k)).setFile .next none) := by
  show Prod.swap (device cfg (.installKeyFile .next .current) d quiet) = _
  simp only [device, Disk.file, h]
  rfl

theorem quietly_openSQLite (h : Sealed k d.db) (box : Key) : quietly cfg (Call.openSQLite box) d =
    (if k = box then .ok () else .error .mismatch, d) := by
  show Prod.swap (device cfg (.openSQLite box) d quiet) = _
  simp only [device, h.openStore]
  by_cases hk : k = box
  · simp only [if_pos hk]
    rfl
  · simp only [if_neg hk]
    rfl

theorem settleOpened_quiet (cfg : Config) (key : Key) (d : Disk) :
    ∃ o d', quietly cfg (settleOpened cfg key) d = (.ok o, d') := by
  rcases hm : d.db.marker with _ | m
  · simp [settleOpened, Crash.eval_bind, hm]
  · simp only [settleOpened, Crash.eval_bind, hm, quietly_pendingKeyRotation, quietly_removeKeyFile,
      quietly_endKeyRotation]
    split <;> exact ⟨_, _, rfl⟩

theorem tryCandidate_quiet {p : Path} {m : KeyRotation} {isMatch : KeyRotation → String → Bool}
    (h : Sealed k d.db) (hp : d.file p = some k) (hm : d.db.marker = some m)
    (hmatch : isMatch m (cfg.fingerprint k) = true) :
    quietly cfg (tryCandidate cfg p isMatch) d = (.ok (some { key := k, marker := some m }), d) := by
  simp [tryCandidate, Crash.eval_bind, Disk.readKey, hp, quietly_openSQLite h, hm, hmatch]

theorem tryCandidate_unmarked (h : Sealed k d.db) (hm : d.db.marker = none) (p : Path)
    (isMatch : KeyRotation → String → Bool) :
    quietly cfg (tryCandidate cfg p isMatch) d = (.ok none, d) := by
  rcases hp : d.file p with _ | key
  · simp [tryCandidate, Crash.eval_bind, hp]
  · by_cases hk : k = key
    · simp [tryCandidate, Crash.eval_bind, Disk.readKey, hp, quietly_openSQLite h, hk, hm]
    · simp [tryCandidate, Crash.eval_bind, Disk.readKey, hp, quietly_openSQLite h, hk]

theorem openMismatched_quiet (h : Swapping cfg c k d) :
    ∃ o d', quietly cfg (openMismatched cfg c) d = (.ok o, d') := by
  obtain ⟨m, hm, hold, hnew⟩ := h.marker
  have hmatch : installsNext (cfg.fingerprint c) m (cfg.fingerprint k) = true := by
    simp [installsNext, hold, hnew]
  have hcand := tryCandidate_quiet h.db (p := .next) h.next hm hmatch
  simp [openMismatched, completeInstall, Crash.eval_bind, hcand,
    quietly_installKeyFile (h.setPrevious (some c)).next]

/-- **A start that no call fails succeeds.** -/
theorem start_quiet (fresh : Key) (hd : Inv cfg d) :
    ∃ o d', quietly cfg (start cfg none fresh) d = (.ok o, d') := by
  have hstart : ∀ {k c : Key}, Sealed k d.db → d.current = some c → quietly cfg (start cfg none fresh) d =
      quietly cfg (openDatabase cfg c false) d := by
    intro k c _ hc
    simp [start, loadKey, Crash.eval_bind, Disk.readKey, Disk.file, hc]
  have hopen : ∀ {k : Key}, Settled k d → ∃ o d', quietly cfg (openDatabase cfg k false) d = (.ok o, d') := by
    intro k hs
    obtain ⟨⟨outcome, m⟩, d', hset⟩ := settleOpened_quiet cfg k d
    simp [openDatabase, Crash.eval_bind, quietly_openSQLite hs.db, hset]
  obtain ⟨k, hs | ⟨c, hs⟩⟩ := hd
  · rw [hstart hs.db hs.current]
    exact hopen hs
  · rw [hstart hs.db hs.current]
    by_cases hk : k = c
    · subst hk
      exact hopen ⟨hs.db, hs.current⟩
    · obtain ⟨o, d', ho⟩ := openMismatched_quiet hs
      exact ⟨o, d', by simp [openDatabase, Crash.eval_bind, quietly_openSQLite hs.db, hk, ho]⟩

end quiet

end

/-! ## The rotation -/

/-- The key opens the key check value and every sealed value of the database. -/
def Opens (k : Key) (db : Database) : Prop :=
  keyCheckOpens db k = .ok true ∧ ∀ c ∈ db.cells, c.value.isSealed = true →
    ∃ f p, c.boundField = some f ∧ boxOpen k (c.binding f) c.value = .ok p

theorem Sealed.opens {k : Key} {db : Database} (h : Sealed k db) : Opens k db := by
  refine ⟨by simp [h.keyCheckOpens], fun c hc hs => ?_⟩
  rcases h.cells c hc with ⟨f, p, hb, hv, hval⟩ | ⟨hn, -⟩
  · exact ⟨f, p, hb, by rw [hval, boxOpen_sealed hv, if_pos rfl]⟩
  · rw [hn] at hs
    cases hs

/-- A database sealed with the key of `secret.key`, and no rotation in progress. -/
def Installed (d : Disk) : Prop := ∃ k, Settled k d ∧ d.db.marker = none

/-- **A rotation is crash consistent.** At every moment of every sequence of lives, each with any
rotations, cut short after any call and with any calls failing, the key that opens the database is in a key
file; and a start that is not cut short and in which no call fails succeeds with it, leaves it in
`secret.key`, and leaves no marker, no `secret.key.next` and no file that a later start would take for the
database's key. -/
theorem rotation_crash_consistent (cfg : Config) {d : Disk}
    (h : Crash.Lives (device cfg) (fun _ _ _ => True) Installed (life cfg) d) (fresh : Key) :
    (∃ p k, d.file p = some k ∧ Opens k d.db) ∧
    ∃ o d', Crash.eval (device cfg) quiet (start cfg none fresh) d = (.ok o, d') ∧
      Opens o.key d'.db ∧ d'.current = some o.key ∧ d'.db.marker = none ∧ d'.next = none ∧
      ∀ p isMatch, Crash.eval (device cfg) quiet (tryCandidate cfg p isMatch) d' = (.ok none, d') := by
  have hinit : ∀ d, Installed d → Inv cfg d := by
    rintro d ⟨k, hk, -⟩
    exact hk.inv
  have hd : Inv cfg d := h.inv hinit life_keeps
  obtain ⟨o, d', ho⟩ : ∃ o d', Crash.eval (device cfg) quiet (start cfg none fresh) d = (.ok o, d') :=
    start_quiet fresh hd
  have hclean := ((start_ends none fresh hd).eval (e := quiet) fun _ _ => trivial).2 o (by rw [ho]) rfl
  rw [ho] at hclean
  refine ⟨?_, o, d', ho, hclean.db.opens, hclean.current, hclean.marker, hclean.next, fun p isMatch =>
    tryCandidate_unmarked hclean.db hclean.marker p isMatch⟩
  obtain ⟨k, hs | ⟨c, hs⟩⟩ := hd
  · exact ⟨.current, k, hs.current, hs.db.opens⟩
  · exact ⟨.next, k, hs.next, hs.db.opens⟩

/-! ## A rotation cut short after its commit -/

def oldKey : Key := ⟨List.replicate 32 0, rfl⟩

def newKey : Key := ⟨List.replicate 32 1, rfl⟩

def hexConfig : Config := { fingerprint := fun k => Go.hexEncode k.1, macID := Go.hexEncode }

/-- The key check value and the URI of a connection. -/
def oneConnection : Disk :=
  { current := some oldKey,
    db := { cells := [settingCell keyCheckSetting (.sealed oldKey keyCheckAt (.text keyCheckPlaintext)),
      { table := tableConnections, id := "c1", path := "$.uri",
        value := .sealed oldKey ⟨tableConnections, "c1", "uri"⟩ (.text "mongodb://db") }] } }

theorem installed_oneConnection : Installed oneConnection := by
  refine ⟨oldKey, ⟨⟨?_, ⟨_, List.mem_cons_self, rfl⟩, ?_⟩, rfl⟩, rfl⟩
  · intro c hc
    simp only [oneConnection, List.mem_cons, List.not_mem_nil, or_false] at hc
    rcases hc with rfl | rfl
    · exact .inl ⟨_, _, rfl, rfl, rfl⟩
    · exact .inl ⟨_, _, rfl, rfl, rfl⟩
  · intro c hc hs
    simp only [oneConnection, List.mem_cons, List.not_mem_nil, or_false] at hc
    rcases hc with rfl | rfl
    · rfl
    · cases hs

/-- The database uses the new key and `secret.key` still holds the old one. -/
theorem rotation_crash_consistent_committed :
    let boot : Boot := { fresh := oldKey, jobs := [.rotate { next := newKey }] }
    let d := Crash.cutAfter (device hexConfig) quiet 7 (life hexConfig boot) oneConnection
    d.current = some oldKey ∧ keyCheckOpens d.db newKey = .ok true ∧
    ∃ o d', Crash.eval (device hexConfig) quiet (start hexConfig none oldKey) d = (.ok o, d') ∧
      Opens o.key d'.db ∧ d'.current = some o.key ∧ d'.db.marker = none ∧ d'.next = none := by
  intro boot d
  have hlives : Crash.Lives (device hexConfig) (fun _ _ _ => True) Installed (life hexConfig) d :=
    .life boot (.init installed_oneConnection) (Crash.ran_cutAfter (e := quiet) (fun _ _ => trivial) 7 _ _)
  obtain ⟨-, o, d', ho, hopens, hc, hm, hn, -⟩ := rotation_crash_consistent hexConfig hlives oldKey
  exact ⟨by decide +kernel, by decide +kernel, o, d', ho, hopens, hc, hm, hn⟩

end MongoRescue.Rotation.Proof
