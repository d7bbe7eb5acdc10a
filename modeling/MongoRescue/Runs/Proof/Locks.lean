import MongoRescue.Runs.Proof.LockAccount

/-!
# Key locks exclude, hand over and clean up

What the account of the entries (`Inv`) says about the callers: who holds a key, who waits for it, and
which steps are always possible (`Excludes`). Callers that take their keys in one order wait along that
order (`Ordered`), hence in no circle (`no_circle`).
-/

namespace MongoRescue.Runs.Proof

open Trans

/-! ## Holders and waiters -/

/-- The call has the token of the key. -/
def Holds (s : Locks) (i : Nat) (key : String) : Prop :=
  ∃ c ∈ s.calls[i]?, key ∈ (tokens c.stage).map (·.1)

/-- The call waits for the key. -/
def Waits (s : Locks) (i : Nat) (key : String) : Prop :=
  ∃ c ∈ s.calls[i]?, ∃ taken l todo, c.stage = .waiting taken key l todo

/-- The call locks, has locked or is about to leave the entry of the key. -/
def Uses (s : Locks) (i : Nat) (key : String) (l : Nat) : Prop :=
  ∃ c ∈ s.calls[i]?, (key, l) ∈ uses c.stage

/-- The call can take its next step. -/
def CanRun (s : Locks) (i : Nat) : Prop := ∃ s', Locks.sys.step s (.run i) = some s'

section Facts

variable {s : Locks} (hs : Inv s)
include hs

theorem Inv.held_of_uses {c : Call} (hc : c ∈ s.calls) {p : String × Nat} (hp : p ∈ uses c.stage) :
    s.locks.held p.1 = some p.2 :=
  hs.good.located p (List.mem_flatMap.mpr ⟨c, hc, hp⟩)

theorem Inv.held_of_token {c : Call} (hc : c ∈ s.calls) {p : String × Nat} (hp : p ∈ tokens c.stage) :
    s.locks.held p.1 = some p.2 :=
  hs.held_of_uses hc ((tokens_sublist_uses c.stage).subset hp)

/-- The channel is full while a call has its token. -/
theorem Inv.full_iff {key : String} {l : Nat} (hl : s.locks.held key = some l) :
    s.locks.full l = true ↔ ∃ i, Holds s i key := by
  have hcount := hs.good.full_eq hl
  constructor
  · intro hfull
    have hpos : 0 < (allTokens s.calls).count (key, l) := by
      rw [← hcount, hfull]
      exact Nat.one_pos
    obtain ⟨c, hc, hp⟩ := List.mem_flatMap.mp (List.count_pos_iff.mp hpos)
    obtain ⟨i, hi⟩ := List.mem_iff_getElem?.mp hc
    exact ⟨i, c, hi, List.mem_map.mpr ⟨_, hp, rfl⟩⟩
  · rintro ⟨i, c, hi, hkey⟩
    obtain ⟨⟨key', l'⟩, hp, rfl⟩ := List.mem_map.mp hkey
    have hc := List.mem_of_getElem? hi
    have hll : l' = l := Option.some.inj ((hs.held_of_token hc hp).symm.trans hl)
    rw [hll] at hp
    have hpos : 0 < (allTokens s.calls).count (key', l) :=
      List.count_pos_iff.mpr (List.mem_flatMap.mpr ⟨c, hc, hp⟩)
    rw [← hcount] at hpos
    cases hfull : s.locks.full l with
    | true => rfl
    | false =>
      rw [hfull] at hpos
      exact absurd hpos (Nat.lt_irrefl 0)

/-- Two calls with tokens of one entry are one call. -/
theorem Inv.holder_unique {i j : Nat} {key : String} (hi : Holds s i key) (hj : Holds s j key) :
    i = j := by
  obtain ⟨c, hc, hkey⟩ := hi
  obtain ⟨d, hd, hkey'⟩ := hj
  obtain ⟨⟨key, l⟩, hp, rfl⟩ := List.mem_map.mp hkey
  obtain ⟨⟨key', l'⟩, hp', hkk⟩ := List.mem_map.mp hkey'
  dsimp only at hkk
  subst hkk
  have hl := hs.held_of_token (List.mem_of_getElem? hc) hp
  have hl' := hs.held_of_token (List.mem_of_getElem? hd) hp'
  dsimp only at hl hl'
  rw [hl] at hl'
  cases hl'
  by_contra hne
  obtain ⟨pre, post, hcalls, rfl, -⟩ := Lists.exists_of_getElem? hc id
  have hd' : d ∈ pre ++ post := by
    rw [hcalls] at hd
    rcases Nat.lt_trichotomy j pre.length with hlt | heq | hgt
    · rw [List.getElem?_append_left hlt] at hd
      exact List.mem_append_left _ (List.mem_of_getElem? hd)
    · exact absurd heq.symm hne
    · rw [List.getElem?_append_right (Nat.le_of_lt hgt)] at hd
      obtain ⟨n, hn⟩ : ∃ n, j - pre.length = n + 1 := ⟨j - pre.length - 1, by omega⟩
      rw [hn, List.getElem?_cons_succ] at hd
      exact List.mem_append_right _ (List.mem_of_getElem? hd)
  have hcount := hs.good.full_eq hl
  have hle := Bool.toNat_le (s.locks.full l)
  rw [hcalls, (allTokens_perm pre c post).count_eq, List.count_append] at hcount
  have h1 : 0 < (tokens c.stage).count (key', l) := List.count_pos_iff.mpr hp
  have h2 : 0 < (allTokens (pre ++ post)).count (key', l) :=
    List.count_pos_iff.mpr (List.mem_flatMap.mpr ⟨d, hd', hp'⟩)
  omega

end Facts

variable {s s' : Locks} {i : Nat} {c : Call} {k : KeyLocks} {st : Stage} {key : String}

theorem canRun_of_run (hc : s.calls[i]? = some c) (hrun : c.stage.run s.locks = some (k, st)) :
    Locks.sys.step s (.run i) = some { s.setStage i st with locks := k } := by
  simp only [Locks.sys, hc, Option.bind_some, hrun, Option.map_some]

theorem setStage_getElem? (hc : s.calls[i]? = some c) (st : Stage) :
    (s.setStage i st).calls[i]? = some ⟨c.owner, st⟩ :=
  Lists.getElem?_modify_self (fun c : Call => { c with stage := st }) hc

/-- A key that nobody holds is taken by whoever waits for it. -/
theorem waits_takes (hs : Inv s) (hw : Waits s i key) (hnone : ∀ j, ¬ Holds s j key) :
    ∃ s', Locks.sys.step s (.run i) = some s' ∧ Holds s' i key := by
  obtain ⟨c, hc, taken, l, todo, hst⟩ := hw
  have hl : s.locks.held key = some l :=
    hs.held_of_uses (p := (key, l)) (List.mem_of_getElem? hc) (by simp [hst, uses])
  have hfree : s.locks.full l = false := by
    by_contra hfull
    obtain ⟨j, hj⟩ := (hs.full_iff hl).mp (by simpa using hfull)
    exact hnone j hj
  have hrun : c.stage.run s.locks =
      some (s.locks.setFull l true, .locking (taken ++ [(key, l)]) todo) := by
    rw [hst]
    simp [Stage.run, hfree]
  exact ⟨_, canRun_of_run hc hrun, _, setStage_getElem? hc _, by simp [tokens]⟩

/-- The mutex is always given back. -/
theorem mutex_freed (hs : Inv s) (hmu : s.locks.mu = true) :
    ∃ i s', Locks.sys.step s (.run i) = some s' ∧ s'.locks.mu = false := by
  have hpos : 0 < s.calls.countP (isDropping ·.stage) := by
    rw [hs.mutex, hmu]
    exact Nat.one_pos
  obtain ⟨c, hc, hdrop⟩ := List.countP_pos_iff.mp hpos
  obtain ⟨i, hi⟩ := List.mem_iff_getElem?.mp hc
  obtain ⟨owner, st⟩ := c
  cases st with
  | dropping rest key l failed => exact ⟨i, _, canRun_of_run hi rfl, rfl⟩
  | _ => cases hdrop

/-- With the mutex free, every call goes on that does not wait for a key. -/
theorem canRun_of_not_waits (hs : Inv s) (hmu : s.locks.mu = false) (hc : s.calls[i]? = some c)
    (hw : ∀ key, ¬ Waits s i key) (hr : ∀ failed, c.stage ≠ .returned failed) : CanRun s i := by
  have hmem := List.mem_of_getElem? hc
  suffices h : ∃ r, c.stage.run s.locks = some r by
    obtain ⟨⟨k, st⟩, hrun⟩ := h
    exact ⟨_, canRun_of_run hc hrun⟩
  obtain ⟨owner, st⟩ := c
  cases st with
  | locking taken todo =>
    cases todo with
    | nil => exact ⟨_, rfl⟩
    | cons key todo =>
      simp only [Stage.run, hmu]
      by_cases hdup : key ∈ taken.map (·.1)
      · exact ⟨_, if_pos hdup⟩
      · exact ⟨_, if_neg hdup⟩
  | waiting taken key l todo => exact absurd ⟨_, hc, taken, l, todo, rfl⟩ (hw key)
  | leaving taken key l => exact ⟨_, by simp only [Stage.run, hmu]; rfl⟩
  | holding taken => exact ⟨_, rfl⟩
  | releasing rest failed =>
    cases rest with
    | nil => exact ⟨_, rfl⟩
    | cons p rest =>
      have hp : p ∈ tokens (.releasing (p :: rest) failed) := List.mem_cons_self
      have hl := hs.held_of_token hmem hp
      have hfull := (hs.full_iff hl).mpr ⟨i, _, hc, List.mem_map.mpr ⟨p, hp, rfl⟩⟩
      exact ⟨_, by simp only [Stage.run, hmu, hl, hfull]; rfl⟩
  | dropping rest key l failed => exact ⟨_, rfl⟩
  | returned failed => exact absurd rfl (hr failed)

/-! ## Cancelled waiters -/

/-- A call that gave up waiting for the key: it only lets go of what it has. -/
def GaveUp (key : String) : Stage → Prop
  | .leaving taken _ _ => key ∉ taken.map (·.1)
  | .releasing rest failed => failed = true ∧ key ∉ rest.map (·.1)
  | .dropping rest _ _ failed => failed = true ∧ key ∉ rest.map (·.1)
  | .returned failed => failed = true
  | _ => False

theorem moves_gaveUp {k' : KeyLocks} {st' : Stage} (h : GaveUp key st) (hm : Moves k st k' st') :
    GaveUp key st' := by
  cases hm with
  | leave =>
    refine ⟨rfl, ?_⟩
    rw [List.map_reverse, List.mem_reverse]
    exact h
  | «return» => exact h.1
  | receive => exact ⟨h.1, fun hmem => h.2 (List.mem_cons_of_mem _ hmem)⟩
  | drop => exact h
  | _ => exact h.elim

theorem not_holds_of_gaveUp (h : GaveUp key st) : key ∉ (tokens st).map (·.1) := by
  cases st with
  | leaving taken key' l => exact h
  | releasing rest failed => exact h.2
  | dropping rest key' l failed => exact h.2
  | returned failed => exact List.not_mem_nil
  | _ => exact h.elim

/-- What happens to one call in a step. -/
theorem acts_call {e : LockEvent} (h : Acts s e s') (hc : s.calls[i]? = some c) :
    s'.calls[i]? = some c ∨
      (∃ st, Moves s.locks c.stage s'.locks st ∧ s'.calls[i]? = some ⟨c.owner, st⟩) ∨
      ∃ taken key l todo, c.stage = .waiting taken key l todo ∧
        s'.calls[i]? = some ⟨c.owner, .leaving taken key l⟩ := by
  have hmiddle : ∀ {pre post : List Call} {d d' : Call}, s.calls = pre ++ d :: post → i ≠ pre.length →
      (pre ++ d' :: post)[i]? = some c := by
    intro pre post d d' hcalls hi
    rw [hcalls] at hc
    rcases Nat.lt_or_gt_of_ne hi with hlt | hgt
    · rw [List.getElem?_append_left hlt] at hc ⊢
      exact hc
    · rw [List.getElem?_append_right (Nat.le_of_lt hgt)] at hc ⊢
      obtain ⟨n, hn⟩ : ∃ n, i - pre.length = n + 1 := ⟨i - pre.length - 1, by omega⟩
      rw [hn] at hc ⊢
      exact hc
  cases h with
  | call => exact .inl (by rw [List.getElem?_append_left (List.getElem?_eq_some_iff.mp hc).1, hc])
  | @run pre d post k st hcalls hm =>
    by_cases hi : i = pre.length
    · subst hi
      rw [hcalls, List.getElem?_append_right (Nat.le_refl _), Nat.sub_self] at hc
      cases hc
      exact .inr (.inl ⟨st, hm, by simp⟩)
    · exact .inl (hmiddle hcalls hi)
  | @cancel pre owner taken key l todo post hcalls =>
    by_cases hi : i = pre.length
    · subst hi
      rw [hcalls, List.getElem?_append_right (Nat.le_refl _), Nat.sub_self] at hc
      cases hc
      exact .inr (.inr ⟨taken, key, l, todo, rfl, by simp⟩)
    · exact .inl (hmiddle hcalls hi)

theorem exec_gaveUp {es : List LockEvent} (h : Locks.sys.exec s es = some s')
    (hi : ∃ c ∈ s.calls[i]?, GaveUp key c.stage) : ∃ c ∈ s'.calls[i]?, GaveUp key c.stage := by
  induction es generalizing s with
  | nil =>
    cases h
    exact hi
  | cons e es ih =>
    obtain ⟨t, hstep, h⟩ := Option.bind_eq_some_iff.mp h
    obtain ⟨c, hc, hgave⟩ := hi
    refine ih h ?_
    rcases acts_call (acts_of_step hstep) hc with hsame | ⟨st, hm, hnew⟩ | ⟨taken, k, l, todo, hst, -⟩
    · exact ⟨c, hsame, hgave⟩
    · exact ⟨_, hnew, moves_gaveUp hgave hm⟩
    · rw [hst] at hgave
      exact hgave.elim

/-- A cancelled waiter never has the key, whatever happens next. -/
theorem cancelled_never_holds (hs : Inv s) (hw : Waits s i key) {es : List LockEvent}
    (h : Locks.sys.exec s (.cancel i :: es) = some s') : ¬ Holds s' i key := by
  obtain ⟨⟨owner, st⟩, hc, taken, l, todo, rfl⟩ := hw
  obtain ⟨t, hstep, h⟩ := Option.bind_eq_some_iff.mp h
  have hfresh : key ∉ taken.map (·.1) := hs.fresh _ (List.mem_of_getElem? hc)
  have hnew : t.calls[i]? = some ⟨owner, .leaving taken key l⟩ := by
    have hcancel : Locks.sys.step s (.cancel i) = some (s.setStage i (.leaving taken key l)) := by
      show s.calls[i]?.bind _ = _
      rw [hc]
      rfl
    rw [hcancel] at hstep
    cases hstep
    exact setStage_getElem? hc _
  rintro ⟨d, hd, hkey⟩
  obtain ⟨d', hd', hgave⟩ := exec_gaveUp h ⟨_, hnew, hfresh⟩
  have hdd : d = d' := Option.some.inj (hd.symm.trans hd')
  rw [hdd] at hkey
  exact not_holds_of_gaveUp hgave hkey

/-! ## One order of the keys -/

/-- In the part of `Lock` that takes keys. -/
def acquiring : Stage → Bool
  | .locking .. => true
  | .waiting .. => true
  | _ => false

/-- A goroutine takes one key after the other, each above those it has. -/
def InOrder (r : String → String → Prop) (s : Locks) : LockEvent → Prop
  | .call owner _ => ∀ c ∈ s.calls, c.owner = owner → acquiring c.stage = false
  | .run i => ∀ c ∈ s.calls[i]?, ∀ taken key todo, c.stage = .locking taken (key :: todo) →
      key ∉ taken.map (·.1) → ∀ d ∈ s.calls, d.owner = c.owner → ∀ p ∈ tokens d.stage, r p.1 key
  | .cancel _ => True

/-- A goroutine waits for a key another one has. -/
def WaitsFor (s : Locks) (g g' : Nat) : Prop :=
  ∃ c ∈ s.calls, ∃ d ∈ s.calls, c.owner = g ∧ d.owner = g' ∧ ∃ taken key l todo,
    c.stage = .waiting taken key l todo ∧ key ∈ (tokens d.stage).map (·.1)

/-- The goroutines that are taking keys. -/
def acquirers (cs : List Call) : List Nat := (cs.filter (acquiring ·.stage)).map (·.owner)

structure Ordered (r : String → String → Prop) (s : Locks) : Prop where
  one : (acquirers s.calls).Nodup
  above : ∀ c ∈ s.calls, ∀ taken key l todo, c.stage = .waiting taken key l todo →
    ∀ d ∈ s.calls, d.owner = c.owner → ∀ p ∈ tokens d.stage, r p.1 key

theorem moves_acquiring {k' : KeyLocks} {st' : Stage} (hm : Moves k st k' st')
    (h : acquiring st' = true) : acquiring st = true := by
  cases hm <;> first | rfl | cases h

@[simp] theorem acquirers_append (cs ds : List Call) :
    acquirers (cs ++ ds) = acquirers cs ++ acquirers ds := by
  simp [acquirers]

theorem acquirers_cons (c : Call) (cs : List Call) : acquirers (c :: cs) =
    if acquiring c.stage = true then c.owner :: acquirers cs else acquirers cs := by
  unfold acquirers
  rw [List.filter_cons]
  split <;> rfl

theorem acquirers_middle_sublist {pre post : List Call} {c' : Call} (howner : c'.owner = c.owner)
    (h : acquiring c'.stage = true → acquiring c.stage = true) :
    (acquirers (pre ++ c' :: post)).Sublist (acquirers (pre ++ c :: post)) := by
  rw [acquirers_append, acquirers_append, acquirers_cons, acquirers_cons]
  refine List.Sublist.append_left ?_ _
  by_cases hc' : acquiring c'.stage = true
  · simp [hc', h hc', howner]
  · rw [if_neg hc']
    split
    · exact List.sublist_cons_self ..
    · exact List.Sublist.refl _

/-- Two calls of one goroutine do not both take keys. -/
theorem not_acquiring {pre post : List Call} {d : Call} (h : (acquirers (pre ++ c :: post)).Nodup)
    (hc : acquiring c.stage = true) (hd : d ∈ pre ++ post) (howner : d.owner = c.owner) :
    acquiring d.stage = false := by
  by_contra hacq
  have hacq : acquiring d.stage = true := by simpa using hacq
  rw [acquirers_append, acquirers_cons, if_pos hc] at h
  have hnodup := List.perm_middle.nodup_iff.mp h
  rw [← acquirers_append] at hnodup
  exact (List.nodup_cons.mp hnodup).1
    (List.mem_map.mpr ⟨d, List.mem_filter.mpr ⟨hd, hacq⟩, howner⟩)

section Order

variable {r : String → String → Prop} {s s' : Locks} {key : String}

/-- A step gives a call no new token, but the key it waited for. -/
theorem moves_tokens {k k' : KeyLocks} {st st' : Stage} (hm : Moves k st k' st') :
    (∀ p ∈ tokens st', p ∈ tokens st) ∨
      ∃ taken key l todo, st = .waiting taken key l todo ∧ st' = .locking (taken ++ [(key, l)]) todo := by
  cases hm with
  | send => exact .inr ⟨_, _, _, _, rfl, rfl⟩
  | leave => exact .inl fun p hp => List.mem_reverse.mp hp
  | unlock => exact .inl fun p hp => List.mem_reverse.mp hp
  | «return» => exact .inl fun p hp => hp
  | receive => exact .inl fun p hp => List.mem_cons_of_mem _ hp
  | _ => exact .inl fun p hp => hp

theorem moves_waiting {k k' : KeyLocks} {st : Stage} {taken : List (String × Nat)} {l : Nat}
    {todo : List String} (hm : Moves k st k' (.waiting taken key l todo)) :
    st = .locking taken (key :: todo) ∧ key ∉ taken.map (·.1) := by
  generalize hst' : Stage.waiting taken key l todo = st' at hm
  cases hm with
  | look hnew =>
    cases hst'
    exact ⟨rfl, hnew⟩
  | _ => cases hst'

theorem step_ordered {e : LockEvent} (hs : Ordered r s) (hok : InOrder r s e) (h : Acts s e s') :
    Ordered r s' := by
  cases h with
  | @call owner keys =>
    refine ⟨?_, ?_⟩
    · dsimp only
      rw [acquirers_append]
      refine List.nodup_append.mpr ⟨hs.one, by simp [acquirers, acquiring], ?_⟩
      intro g hg g' hg'
      rintro rfl
      obtain ⟨c, hc, rfl⟩ := List.mem_map.mp hg
      obtain ⟨hc, hacq⟩ := List.mem_filter.mp hc
      rw [hok c hc (List.mem_singleton.mp hg')] at hacq
      cases hacq
    · intro c hc taken key l todo hst d hd howner p hp
      rcases List.mem_append.mp hc with hc | hc
      · rcases List.mem_append.mp hd with hd | hd
        · exact hs.above c hc taken key l todo hst d hd howner p hp
        · rw [List.mem_singleton.mp hd] at hp
          cases hp
      · rw [List.mem_singleton.mp hc] at hst
        cases hst
  | @run pre c post k st hcalls hm =>
    have hone := hs.one
    have habove := hs.above
    have hcond := hok c (by rw [hcalls]; simp)
    rw [hcalls] at hone habove hcond
    have hsub : (acquirers (pre ++ ⟨c.owner, st⟩ :: post)).Sublist (acquirers (pre ++ c :: post)) :=
      acquirers_middle_sublist rfl (moves_acquiring hm)
    refine ⟨hone.sublist hsub, ?_⟩
    intro a ha taken key l todo hst d hd howner p hp
    rcases Lists.mem_middle.mp ha with rfl | ha'
    · -- the call that moves is the one that waits: it has just looked the key up
      dsimp only at hst howner
      rw [hst] at hm
      obtain ⟨hlook, hnew⟩ := moves_waiting hm
      rcases Lists.mem_middle.mp hd with rfl | hd'
      · rw [hst] at hp
        exact hcond taken key todo hlook hnew c (Lists.mem_middle.mpr (.inl rfl)) rfl p (by rw [hlook]; exact hp)
      · exact hcond taken key todo hlook hnew d (Lists.mem_middle.mpr (.inr hd')) howner p hp
    · rcases Lists.mem_middle.mp hd with rfl | hd'
      · dsimp only at howner hp
        rcases moves_tokens hm with hsub | ⟨taken', key', l', todo', hst', rfl⟩
        · exact habove a (Lists.mem_middle.mpr (.inr ha')) taken key l todo hst c (Lists.mem_middle.mpr (.inl rfl))
            howner p (hsub p hp)
        · -- the waiting call and the one that takes a key are of one goroutine
          have hfree := not_acquiring hone (by rw [hst']; rfl) ha' howner.symm
          rw [hst] at hfree
          cases hfree
      · exact habove a (Lists.mem_middle.mpr (.inr ha')) taken key l todo hst d (Lists.mem_middle.mpr (.inr hd'))
          howner p hp
  | @cancel pre owner taken key l todo post hcalls =>
    have hone := hs.one
    have habove := hs.above
    rw [hcalls] at hone habove
    have hsub : (acquirers (pre ++ ⟨owner, .leaving taken key l⟩ :: post)).Sublist
        (acquirers (pre ++ ⟨owner, .waiting taken key l todo⟩ :: post)) :=
      acquirers_middle_sublist rfl fun _ => rfl
    refine ⟨hone.sublist hsub, ?_⟩
    intro a ha taken' key' l' todo' hst d hd howner p hp
    rcases Lists.mem_middle.mp ha with rfl | ha'
    · cases hst
    · have hkeep := habove a (Lists.mem_middle.mpr (.inr ha')) taken' key' l' todo' hst
      rcases Lists.mem_middle.mp hd with rfl | hd'
      · exact hkeep ⟨owner, .waiting taken key l todo⟩ (Lists.mem_middle.mpr (.inl rfl)) howner p hp
      · exact hkeep d (Lists.mem_middle.mpr (.inr hd')) howner p hp

theorem reach_ordered (h : Sys.Reach Locks.sys (InOrder r) s) : Ordered r s := by
  refine Sys.Reach.inv ?_ (fun _ _ _ hs hok hstep => step_ordered hs hok (acts_of_step hstep)) h
  rintro _ rfl
  exact ⟨List.nodup_nil, fun c hc => by cases hc⟩

/-- The goroutine waits for the key. -/
def Wants (s : Locks) (g : Nat) (key : String) : Prop :=
  ∃ c ∈ s.calls, c.owner = g ∧ ∃ taken l todo, c.stage = .waiting taken key l todo

/-- A goroutine waits for one key at a time. -/
theorem wants_unique (hs : Ordered r s) {g : Nat} {key' : String} (h : Wants s g key)
    (h' : Wants s g key') : key = key' := by
  obtain ⟨c, hc, howner, taken, l, todo, hst⟩ := h
  obtain ⟨d, hd, howner', taken', l', todo', hst'⟩ := h'
  obtain ⟨pre, post, hcalls⟩ := List.append_of_mem hc
  have hone := hs.one
  rw [hcalls] at hone hd
  rcases Lists.mem_middle.mp hd with rfl | hd
  · rw [hst] at hst'
    cases hst'
    rfl
  · have hfree := not_acquiring hone (by rw [hst]; rfl) hd (howner'.trans howner.symm)
    rw [hst'] at hfree
    cases hfree

/-- Along the waiting goroutines the keys they wait for go up. -/
theorem wants_below (hr : ∀ a b c, r a b → r b c → r a c) (hs : Ordered r s) {g g' : Nat}
    (h : Relation.TransGen (WaitsFor s) g g') (hkey : Wants s g' key) :
    ∃ key', Wants s g key' ∧ r key' key := by
  have hedge : ∀ {a b : Nat} {k : String}, WaitsFor s a b → Wants s b k → ∃ k', Wants s a k' ∧ r k' k := by
    rintro a b k ⟨c, hc, d, hd, hca, hdb, taken, k', l, todo, hst, hk'⟩ ⟨w, hw, hwb, taken', l', todo', hst'⟩
    obtain ⟨p, hp, rfl⟩ := List.mem_map.mp hk'
    exact ⟨p.1, ⟨c, hc, hca, taken, l, todo, hst⟩,
      hs.above w hw taken' k l' todo' hst' d hd (hdb.trans hwb.symm) p hp⟩
  induction h generalizing key with
  | single h => exact hedge h hkey
  | tail _ h ih =>
    obtain ⟨k, hk, hlt⟩ := hedge h hkey
    obtain ⟨k', hk', hlt'⟩ := ih hk
    exact ⟨k', hk', hr _ _ _ hlt' hlt⟩

theorem no_circle (hr : ∀ a b c, r a b → r b c → r a c) (hirr : ∀ a, ¬ r a a) (hs : Ordered r s) (g : Nat) :
    ¬ Relation.TransGen (WaitsFor s) g g := by
  intro h
  have hwants : ∃ key, Wants s g key := by
    obtain ⟨_, ⟨c, hc, d, hd, hcg, -, taken, key, l, todo, hst, -⟩, -⟩ := Relation.TransGen.head'_iff.mp h
    exact ⟨key, c, hc, hcg, taken, l, todo, hst⟩
  obtain ⟨key, hkey⟩ := hwants
  obtain ⟨key', hkey', hlt⟩ := wants_below hr hs h hkey
  rw [wants_unique hs hkey' hkey] at hlt
  exact hirr key hlt

end Order

/-! ## The locks -/

/-- What the locks guarantee in a state. -/
structure Excludes (s : Locks) : Prop where
  /-- At most one call holds a key. -/
  one_holder : ∀ key i j, Holds s i key → Holds s j key → i = j
  /-- Whoever uses a key uses the entry that the map has for it. -/
  one_entry : ∀ key i l, Uses s i key l → s.locks.held key = some l
  /-- A token is in a channel only for its holder. -/
  token : ∀ key l, s.locks.held key = some l → (s.locks.full l = true ↔ ∃ i, Holds s i key)
  /-- A cancelled waiter never holds the key, whatever happens. -/
  cancelled : ∀ key i, Waits s i key → ∀ es s', Locks.sys.exec s (.cancel i :: es) = some s' →
    ¬ Holds s' i key
  /-- A key that nobody holds goes to whoever waits for it next. -/
  handed_over : ∀ key i, Waits s i key → (∀ j, ¬ Holds s j key) →
    ∃ s', Locks.sys.step s (.run i) = some s' ∧ Holds s' i key
  /-- The mutex is given back by whoever has it. -/
  mutex_freed : s.locks.mu = true → ∃ i s', Locks.sys.step s (.run i) = some s' ∧ s'.locks.mu = false
  /-- With the mutex free no call blocks but those that wait for a key: neither an unlock nor a call
  that was cancelled does. -/
  unblocked : s.locks.mu = false → ∀ i c, s.calls[i]? = some c → (∀ key, ¬ Waits s i key) →
    (∀ failed, c.stage ≠ .returned failed) → CanRun s i
  /-- A call that failed holds nothing. -/
  failed : ∀ i c, s.calls[i]? = some c → c.stage = .returned true → ∀ key, ¬ Holds s i key
  /-- The entry of a key that nobody uses is gone. -/
  gone : ∀ key, (∀ i l, ¬ Uses s i key l) → s.locks.held key = none

theorem excludes_of_inv (hs : Inv s) : Excludes s where
  one_holder _ _ _ hi hj := hs.holder_unique hi hj
  one_entry _ _ _ h := by
    obtain ⟨c, hc, hp⟩ := h
    exact hs.held_of_uses (List.mem_of_getElem? hc) hp
  token _ _ hl := hs.full_iff hl
  cancelled _ _ hw _ _ h := cancelled_never_holds hs hw h
  handed_over _ _ hw hnone := waits_takes hs hw hnone
  mutex_freed := mutex_freed hs
  unblocked hmu _ _ hc hw hr := canRun_of_not_waits hs hmu hc hw hr
  failed i c hc hst key h := by
    obtain ⟨d, hd, hkey⟩ := h
    rw [Option.some.inj (hd.symm.trans hc), hst] at hkey
    cases hkey
  gone key h := by
    rcases hl : s.locks.held key with _ | l
    · rfl
    · obtain ⟨e, -, -, hpos, -⟩ := hs.good.counted key l hl
      obtain ⟨c, hc, hp⟩ := List.mem_flatMap.mp (List.count_pos_iff.mp hpos)
      obtain ⟨i, hi⟩ := List.mem_iff_getElem?.mp hc
      exact absurd ⟨c, hi, hp⟩ (h i l)

/-- **Key locks exclude, hand over and clean up**, and callers that take their keys in one order never
wait for each other in a circle. -/
theorem key_locks_exclude {s : Locks} (h : Sys.Reach Locks.sys Sys.Any s) :
    Excludes s ∧ ∀ r : String → String → Prop, (∀ a, ¬ r a a) → (∀ a b c, r a b → r b c → r a c) →
      Sys.Reach Locks.sys (InOrder r) s → ∀ g, ¬ Relation.TransGen (WaitsFor s) g g :=
  ⟨excludes_of_inv (reach_inv h), fun _ hirr htrans hord g =>
    no_circle htrans hirr (reach_ordered hord) g⟩

/-- The deletions of one job wait for each other; the archive of the first is locked after it. -/
def deletions : List LockEvent :=
  [.call 0 [deletionKey "job" "" "", archiveKey "target" "key"], .call 1 [deletionKey "job" "" ""],
    .run 0, .run 1, .run 0, .run 0, .run 0, .run 0]

/-- Deletions lock their job before an archive. -/
abbrev JobFirst (a b : String) : Prop := a = deletionKey "job" "" "" ∧ b = archiveKey "target" "key"

/-- `InOrder`, decided. -/
def inOrder (r : String → String → Prop) [DecidableRel r] (s : Locks) : LockEvent → Bool
  | .call owner _ => s.calls.all fun c => c.owner != owner || !acquiring c.stage
  | .run i => s.calls[i]?.all fun c =>
      match c.stage with
      | .locking taken (key :: _) => (taken.map (·.1)).contains key ||
          s.calls.all fun d => d.owner != c.owner || (tokens d.stage).all fun p => r p.1 key
      | _ => true
  | .cancel _ => true

theorem inOrder_of_test [DecidableRel r] (s : Locks) (e : LockEvent) (h : inOrder r s e = true) :
    InOrder r s e := by
  cases e with
  | call owner keys =>
    intro c hc howner
    have hall := List.all_eq_true.mp h c hc
    simpa [howner] using hall
  | run i =>
    intro c hc taken key todo hstage hkey d hd howner p hp
    rw [Option.mem_def] at hc
    simp only [inOrder, hc, Option.all_some, hstage] at h
    have hall := List.all_eq_true.mp ((Bool.or_eq_true _ _ ▸ h).resolve_left (by simpa using hkey)) d hd
    have hr := List.all_eq_true.mp ((Bool.or_eq_true _ _ ▸ hall).resolve_left (by simp [howner])) p hp
    exact of_decide_eq_true hr
  | cancel i => trivial

theorem key_locks_exclude_deletions : ∃ s, Locks.sys.exec {} deletions = some s ∧
    Holds s 0 (archiveKey "target" "key") ∧ Waits s 1 (deletionKey "job" "" "") ∧ Excludes s ∧
      ∀ g, ¬ Relation.TransGen (WaitsFor s) g g := by
  obtain ⟨s, hs, htest⟩ := Sys.exists_exec (M := Locks.sys) {} deletions
    (fun s => decide (s.calls = [⟨0, .holding [("delete:job:job", 0), (archiveKey "target" "key", 1)]⟩,
      ⟨1, .waiting [] "delete:job:job" 0 []⟩])) (by decide +kernel)
  have hcalls := of_decide_eq_true htest
  have hord : Locks.sys.Along (InOrder JobFirst) {} deletions :=
    Sys.along_of_meets (inOrder JobFirst) inOrder_of_test (by decide +kernel)
  obtain ⟨hexcludes, hcircle⟩ :=
    key_locks_exclude (Sys.reach_of_exec (.init rfl) (Sys.along_any _ _) hs)
  refine ⟨s, hs, ?_, ?_, hexcludes, hcircle JobFirst ?_ ?_ (Sys.reach_of_exec (.init rfl) hord hs)⟩
  · exact ⟨_, by rw [hcalls]; rfl, by simp [tokens]⟩
  · exact ⟨_, by rw [hcalls]; rfl, _, _, _, rfl⟩
  · rintro a ⟨rfl, h⟩
    exact absurd h (by decide)
  · rintro a b c ⟨rfl, rfl⟩ ⟨h, rfl⟩
    exact absurd h (by decide)

end MongoRescue.Runs.Proof
