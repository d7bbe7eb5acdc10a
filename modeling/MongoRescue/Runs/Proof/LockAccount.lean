import MongoRescue.Lib.Lists
import MongoRescue.Runs.Locks
import Mathlib.Data.List.Count
import Mathlib.Data.List.Flatten

/-!
# The account of the entries

The calls together account for the shared state (`Good`): every entry in the map counts the calls that
use it, and its channel is full exactly when one call has its token. Each operation on an entry keeps
that for the lists of uses and tokens it changes (`Good.enter`, `Good.send`, `Good.receive`,
`Good.drop`), so every step of a call does (`moves_good`), and with it every run (`reach_inv`). `Moves`
lists the steps of a call, `Acts` those of the system.
-/

namespace MongoRescue.Runs.Proof

open Trans

/-! ## Uses and tokens -/

/-- The entries a call is counted in. -/
def uses : Stage → List (String × Nat)
  | .locking taken _ => taken
  | .waiting taken key l _ => (key, l) :: taken
  | .leaving taken key l => (key, l) :: taken
  | .holding taken => taken
  | .releasing rest _ => rest
  | .dropping rest key l _ => (key, l) :: rest
  | .returned _ => []

/-- The entries whose token is the call's. -/
def tokens : Stage → List (String × Nat)
  | .locking taken _ => taken
  | .waiting taken _ _ _ => taken
  | .leaving taken _ _ => taken
  | .holding taken => taken
  | .releasing rest _ => rest
  | .dropping rest _ _ _ => rest
  | .returned _ => []

theorem tokens_sublist_uses (st : Stage) : (tokens st).Sublist (uses st) := by
  cases st <;> simp [tokens, uses]

def allUses (cs : List Call) : List (String × Nat) := cs.flatMap fun c => uses c.stage

def allTokens (cs : List Call) : List (String × Nat) := cs.flatMap fun c => tokens c.stage

theorem count_tokens_le (cs : List Call) (p : String × Nat) :
    (allTokens cs).count p ≤ (allUses cs).count p := by
  induction cs with
  | nil => exact Nat.le_refl _
  | cons c cs ih =>
    have hc := (tokens_sublist_uses c.stage).count_le p
    simp only [allTokens, allUses, List.flatMap_cons, List.count_append] at ih ⊢
    omega

/-! ## Entries -/

/-- **The entries account for the calls**: whoever uses a key uses the entry of the map, whose counter
counts the uses and whose channel holds the one token. -/
structure Good (k : KeyLocks) (U T : List (String × Nat)) : Prop where
  located : ∀ p ∈ U, k.held p.1 = some p.2
  counted : ∀ key l, k.held key = some l → ∃ e, k.heap[l]? = some e ∧ e.refs = U.count (key, l) ∧
    0 < U.count (key, l) ∧ T.count (key, l) = e.full.toNat
  inj : ∀ key key' l, k.held key = some l → k.held key' = some l → key = key'

section Entries

variable {k : KeyLocks} {U T : List (String × Nat)} {key : String} {l : Nat}

theorem Good.perm {U' T' : List (String × Nat)} (h : Good k U T) (hU : U.Perm U') (hT : T.Perm T') :
    Good k U' T' := by
  refine ⟨fun p hp => h.located p (hU.mem_iff.mpr hp), fun key l hl => ?_, h.inj⟩
  obtain ⟨e, he, hrefs, hpos, hfull⟩ := h.counted key l hl
  refine ⟨e, he, ?_, ?_, ?_⟩
  · rw [hrefs, hU.count_eq]
  · rw [← hU.count_eq]
    exact hpos
  · rw [← hT.count_eq, hfull]

theorem Good.lt (h : Good k U T) (hl : k.held key = some l) : l < k.heap.length := by
  obtain ⟨e, he, -⟩ := h.counted key l hl
  exact (List.getElem?_eq_some_iff.mp he).1

theorem Good.full_eq (h : Good k U T) (hl : k.held key = some l) :
    (k.full l).toNat = T.count (key, l) := by
  obtain ⟨e, he, -, -, hfull⟩ := h.counted key l hl
  rw [KeyLocks.full, he, hfull]
  rfl

/-- An entry of another key is another entry. -/
theorem Good.ne_of_ne (h : Good k U T) {key' : String} {l' : Nat} (hl : k.held key = some l)
    (hl' : k.held key' = some l') (hne : key' ≠ key) : l ≠ l' := by
  intro heq
  rw [heq] at hl
  exact hne (h.inj key' key l' hl' hl)

/-- A new caller of a key. -/
theorem Good.enter (h : Good k U T) (hT : ∀ p ∈ T, p ∈ U) :
    Good (k.enter key).1 ((key, (k.enter key).2) :: U) T := by
  rcases hl : k.held key with _ | l
  · -- the key has no entry: nobody uses it
    have hunused : ∀ l', (key, l') ∉ U := by
      intro l' hmem
      have := h.located _ hmem
      rw [hl] at this
      cases this
    simp only [KeyLocks.enter, hl]
    refine ⟨?_, ?_, ?_⟩
    · intro p hp
      rcases List.mem_cons.mp hp with rfl | hp
      · exact Function.update_self ..
      · have hne : p.1 ≠ key := by
          intro heq
          exact hunused p.2 (heq ▸ hp)
        dsimp only
        rw [Function.update_of_ne hne]
        exact h.located p hp
    · intro key' l' hl'
      dsimp only at hl'
      by_cases hk : key' = key
      · subst hk
        rw [Function.update_self] at hl'
        cases hl'
        refine ⟨{ refs := 1 }, by simp, ?_, ?_, ?_⟩
        · rw [List.count_cons_self, List.count_eq_zero.mpr (hunused _)]
          rfl
        · rw [List.count_cons_self]
          exact Nat.succ_pos _
        · exact List.count_eq_zero.mpr fun hmem => hunused _ (hT _ hmem)
      · rw [Function.update_of_ne hk] at hl'
        obtain ⟨e, he, hrest⟩ := h.counted key' l' hl'
        refine ⟨e, ?_, ?_⟩
        · dsimp only
          rw [List.getElem?_append_left (h.lt hl'), he]
        · rwa [List.count_cons_of_ne fun heq => hk (congrArg Prod.fst heq).symm]
    · intro k₁ k₂ l' h₁ h₂
      dsimp only at h₁ h₂
      by_cases hk₁ : k₁ = key <;> by_cases hk₂ : k₂ = key
      · rw [hk₁, hk₂]
      · rw [hk₁, Function.update_self] at h₁
        rw [Function.update_of_ne hk₂] at h₂
        cases h₁
        exact absurd (h.lt h₂) (Nat.lt_irrefl _)
      · rw [hk₂, Function.update_self] at h₂
        rw [Function.update_of_ne hk₁] at h₁
        cases h₂
        exact absurd (h.lt h₁) (Nat.lt_irrefl _)
      · rw [Function.update_of_ne hk₁] at h₁
        rw [Function.update_of_ne hk₂] at h₂
        exact h.inj k₁ k₂ l' h₁ h₂
  · simp only [KeyLocks.enter, hl]
    refine ⟨?_, ?_, h.inj⟩
    · intro p hp
      rcases List.mem_cons.mp hp with rfl | hp
      · exact hl
      · exact h.located p hp
    · intro key' l' hl'
      obtain ⟨e, he, hrefs, hpos, hfull⟩ := h.counted key' l' hl'
      by_cases hk : key' = key
      · subst hk
        have hll : l = l' := by
          rw [hl] at hl'
          exact Option.some.inj hl'
        subst hll
        refine ⟨_, Lists.getElem?_modify_self _ he, ?_, ?_, hfull⟩
        · rw [List.count_cons_self, hrefs]
          push_cast
          rfl
        · rw [List.count_cons_self]
          exact Nat.succ_pos _
      · refine ⟨e, ?_, ?_, ?_, hfull⟩
        · dsimp only
          rw [Lists.getElem?_modify_ne _ (h.ne_of_ne hl hl' hk), he]
        · rwa [List.count_cons_of_ne fun heq => hk (congrArg Prod.fst heq).symm]
        · rwa [List.count_cons_of_ne fun heq => hk (congrArg Prod.fst heq).symm]

/-- The channel of a used entry takes or gives the token. -/
theorem Good.setFull (h : Good k U T) (hl : k.held key = some l) {b : Bool} {T' : List (String × Nat)}
    (hself : T'.count (key, l) = b.toNat)
    (hother : ∀ p, p ≠ (key, l) → T'.count p = T.count p) : Good (k.setFull l b) U T' := by
  refine ⟨h.located, fun key' l' hl' => ?_, h.inj⟩
  obtain ⟨e, he, hrefs, hpos, hfull⟩ := h.counted key' l' hl'
  by_cases hk : key' = key
  · subst hk
    obtain rfl : l = l' := Option.some.inj (hl.symm.trans hl')
    exact ⟨_, Lists.getElem?_modify_self _ he, hrefs, hpos, hself⟩
  · refine ⟨e, ?_, hrefs, hpos, ?_⟩
    · dsimp only [KeyLocks.setFull]
      rw [Lists.getElem?_modify_ne _ (h.ne_of_ne hl hl' hk), he]
    · rw [hother _ fun heq => hk (congrArg Prod.fst heq), hfull]

theorem Good.send (h : Good k U T) (hl : k.held key = some l) (hfree : k.full l = false) :
    Good (k.setFull l true) U ((key, l) :: T) := by
  have h0 := h.full_eq hl
  rw [hfree] at h0
  refine h.setFull hl ?_ fun p hp => List.count_cons_of_ne (Ne.symm hp)
  rw [List.count_cons_self, ← h0]
  rfl

theorem Good.receive (h : Good k U ((key, l) :: T)) (hl : k.held key = some l) :
    Good (k.setFull l false) U T := by
  refine h.setFull hl ?_ fun p hp => (List.count_cons_of_ne (Ne.symm hp)).symm
  have hone := h.full_eq hl
  rw [List.count_cons_self] at hone
  have hle : (k.full l).toNat ≤ 1 := Bool.toNat_le _
  have : (false).toNat = 0 := rfl
  omega

/-- A user of a key leaves; the last one takes the entry with it. -/
theorem Good.drop (h : Good k ((key, l) :: U) T) (hT : T.count (key, l) ≤ U.count (key, l)) :
    Good (k.drop key l) U T := by
  have hl := h.located _ List.mem_cons_self
  obtain ⟨e, he, hrefs, -, hfull⟩ := h.counted key l hl
  rw [List.count_cons_self] at hrefs
  have hnew := Lists.getElem?_modify_self (fun e : KeyLock => { e with refs := e.refs - 1 }) he
  have hother : ∀ key' l', k.held key' = some l' → key' ≠ key →
      ∃ e, (k.heap.modify l fun e => { e with refs := e.refs - 1 })[l']? = some e ∧
        e.refs = U.count (key', l') ∧ 0 < U.count (key', l') ∧ T.count (key', l') = e.full.toNat := by
    intro key' l' hl' hk
    obtain ⟨e', he', hrefs', hpos', hfull'⟩ := h.counted key' l' hl'
    rw [List.count_cons_of_ne fun heq => hk (congrArg Prod.fst heq).symm] at hrefs' hpos'
    exact ⟨e', by rw [Lists.getElem?_modify_ne _ (h.ne_of_ne hl hl' hk), he'], hrefs', hpos', hfull'⟩
  unfold KeyLocks.drop
  dsimp only
  rw [hnew]
  by_cases hlast : U.count (key, l) = 0
  · have hzero : (some { e with refs := e.refs - 1 }).map (·.refs) = some (0 : Int) := by
      rw [Option.map_some, hrefs, hlast]
      rfl
    rw [if_pos hzero]
    refine ⟨?_, ?_, ?_⟩
    · intro p hp
      have hne : p.1 ≠ key := by
        intro heq
        have hp2 := h.located p (List.mem_cons_of_mem _ hp)
        rw [heq, hl] at hp2
        have hpeq : p = (key, l) := Prod.ext heq (Option.some.inj hp2).symm
        exact List.count_eq_zero.mp hlast (hpeq ▸ hp)
      dsimp only
      rw [Function.update_of_ne hne]
      exact h.located p (List.mem_cons_of_mem _ hp)
    · intro key' l' hl'
      dsimp only at hl'
      by_cases hk : key' = key
      · subst hk
        rw [Function.update_self] at hl'
        cases hl'
      · rw [Function.update_of_ne hk] at hl'
        exact hother key' l' hl' hk
    · intro k₁ k₂ l' h₁ h₂
      have hne : ∀ k', Function.update k.held key none k' = some l' → k.held k' = some l' := by
        intro k' hk'
        by_cases hk : k' = key
        · rw [hk, Function.update_self] at hk'
          cases hk'
        · rwa [Function.update_of_ne hk] at hk'
      exact h.inj k₁ k₂ l' (hne _ h₁) (hne _ h₂)
  · have hnonzero : ¬ (some { e with refs := e.refs - 1 }).map (·.refs) = some (0 : Int) := by
      rw [Option.map_some, hrefs]
      intro heq
      have := Option.some.inj heq
      push_cast at this
      omega
    rw [if_neg hnonzero]
    refine ⟨fun p hp => h.located p (List.mem_cons_of_mem _ hp), ?_, h.inj⟩
    intro key' l' hl'
    by_cases hk : key' = key
    · subst hk
      obtain rfl : l = l' := Option.some.inj (hl.symm.trans hl')
      refine ⟨_, hnew, ?_, Nat.pos_of_ne_zero hlast, hfull⟩
      dsimp only
      rw [hrefs]
      push_cast
      omega
    · exact hother key' l' hl' hk

theorem Good.mu (h : Good k U T) (b : Bool) : Good { k with mu := b } U T :=
  ⟨h.located, h.counted, h.inj⟩

end Entries

/-! ## Steps of a call -/

def isDropping : Stage → Bool
  | .dropping .. => true
  | _ => false

/-- A call never waits for a key it has. -/
def Fresh : Stage → Prop
  | .waiting taken key _ _ => key ∉ taken.map (·.1)
  | .leaving taken key _ => key ∉ taken.map (·.1)
  | _ => True

/-- The steps of a call. -/
inductive Moves (k : KeyLocks) : Stage → KeyLocks → Stage → Prop
  | done {taken} : Moves k (.locking taken []) k (.holding taken)
  | skip {taken key todo} : key ∈ taken.map (·.1) →
      Moves k (.locking taken (key :: todo)) k (.locking taken todo)
  | look {taken key todo} : key ∉ taken.map (·.1) → k.mu = false →
      Moves k (.locking taken (key :: todo)) (k.enter key).1 (.waiting taken key (k.enter key).2 todo)
  | send {taken key l todo} : k.full l = false →
      Moves k (.waiting taken key l todo) (k.setFull l true) (.locking (taken ++ [(key, l)]) todo)
  | leave {taken key l} : k.mu = false →
      Moves k (.leaving taken key l) (k.drop key l) (.releasing taken.reverse true)
  | unlock {taken} : Moves k (.holding taken) k (.releasing taken.reverse false)
  | «return» {failed} : Moves k (.releasing [] failed) k (.returned failed)
  | receive {key l' rest failed l} : k.mu = false → k.held key = some l → k.full l = true →
      Moves k (.releasing ((key, l') :: rest) failed) { k.setFull l false with mu := true }
        (.dropping rest key l failed)
  | drop {rest key l failed} :
      Moves k (.dropping rest key l failed) { k.drop key l with mu := false } (.releasing rest failed)

section Steps

variable {k k' : KeyLocks} {st st' : Stage} {U T : List (String × Nat)}

theorem moves_of_run (h : st.run k = some (k', st')) : Moves k st k' st' := by
  have hmu : ∀ {α : Type} {x y : α}, (if k.mu = true then none else some x) = some y →
      k.mu = false ∧ x = y := by
    intro α x y hif
    by_cases hmu : k.mu = true
    · rw [if_pos hmu] at hif
      cases hif
    · rw [if_neg hmu] at hif
      exact ⟨by simpa using hmu, Option.some.inj hif⟩
  cases st with
  | locking taken todo =>
    cases todo with
    | nil =>
      cases h
      exact .done
    | cons key todo =>
      simp only [Stage.run] at h
      by_cases hdup : key ∈ taken.map (·.1)
      · rw [if_pos hdup] at h
        cases h
        exact .skip hdup
      · rw [if_neg hdup] at h
        obtain ⟨hfree, h⟩ := hmu h
        cases h
        exact .look hdup hfree
  | waiting taken key l todo =>
    simp only [Stage.run] at h
    by_cases hfull : k.full l = true
    · rw [if_pos hfull] at h
      cases h
    · rw [if_neg hfull] at h
      cases h
      exact .send (by simpa using hfull)
  | leaving taken key l =>
    obtain ⟨hfree, h⟩ := hmu h
    cases h
    exact .leave hfree
  | holding taken =>
    cases h
    exact .unlock
  | releasing rest failed =>
    cases rest with
    | nil =>
      cases h
      exact .return
    | cons p rest =>
      obtain ⟨key, l'⟩ := p
      simp only [Stage.run] at h
      by_cases hfree : k.mu = true
      · rw [if_pos hfree] at h
        cases h
      · rw [if_neg hfree] at h
        rcases hl : k.held key with _ | l
        · rw [hl] at h
          cases h
        · rw [hl] at h
          dsimp only at h
          by_cases hfull : k.full l = true
          · rw [if_pos hfull] at h
            cases h
            exact .receive (by simpa using hfree) hl hfull
          · rw [if_neg hfull] at h
            cases h
  | dropping rest key l failed =>
    cases h
    exact .drop
  | returned failed => cases h

/-- **A step of a call keeps the account** with the calls of the others. -/
theorem moves_good (h : Good k (uses st ++ U) (tokens st ++ T)) (hTU : ∀ p, T.count p ≤ U.count p)
    (hm : Moves k st k' st') : Good k' (uses st' ++ U) (tokens st' ++ T) := by
  have hle : ∀ (taken : List (String × Nat)) p, (taken ++ T).count p ≤ (taken ++ U).count p := by
    intro taken p
    rw [List.count_append, List.count_append]
    exact Nat.add_le_add_left (hTU p) _
  have hreverse : ∀ taken W : List (String × Nat), (taken ++ W).Perm (taken.reverse ++ W) :=
    fun taken W => (List.reverse_perm taken).symm.append_right W
  cases hm with
  | done => exact h
  | skip => exact h
  | look =>
    refine h.enter fun p hp => List.count_pos_iff.mp ?_
    exact Nat.lt_of_lt_of_le (List.count_pos_iff.mpr hp) (hle _ p)
  | send hfull =>
    have hl := h.located _ List.mem_cons_self
    refine (h.send hl hfull).perm ?_ ?_ <;>
      exact (List.perm_append_singleton _ _).symm.append_right _
  | leave => exact (Good.drop h (hle _ _)).perm (hreverse _ _) (hreverse _ _)
  | unlock => exact h.perm (hreverse _ _) (hreverse _ _)
  | «return» => exact h
  | @receive key l' rest failed l _ hl _ =>
    have hll : l' = l := Option.some.inj ((h.located (key, l') List.mem_cons_self).symm.trans hl)
    subst hll
    exact (Good.receive h hl).mu true
  | drop => exact (Good.drop h (hle _ _)).mu false

/-- The mutex is held by the call that drops an entry. -/
theorem moves_mutex {n : Nat} (h : n + (isDropping st).toNat = k.mu.toNat)
    (hm : Moves k st k' st') : n + (isDropping st').toNat = k'.mu.toNat := by
  have hdrop : ∀ key l, (k.drop key l).mu = k.mu := by
    intro key l
    unfold KeyLocks.drop
    dsimp only
    split <;> rfl
  have henter : ∀ key, (k.enter key).1.mu = k.mu := by
    intro key
    unfold KeyLocks.enter
    split <;> rfl
  cases hm with
  | done => exact h
  | skip => exact h
  | look =>
    rw [henter]
    exact h
  | send => exact h
  | leave =>
    rw [hdrop]
    exact h
  | unlock => exact h
  | «return» => exact h
  | receive hmu =>
    rw [hmu] at h
    have : n = 0 := h
    rw [this]
    rfl
  | drop =>
    have hle := Bool.toNat_le k.mu
    have : n + 1 = k.mu.toNat := h
    have : n = 0 := by omega
    rw [this]
    rfl

theorem moves_fresh (hm : Moves k st k' st') : Fresh st' := by
  cases hm with
  | look hnew => exact hnew
  | _ => trivial

end Steps

/-! ## Runs -/

/-- What one event does to the calls. -/
inductive Acts (s : Locks) : LockEvent → Locks → Prop
  | call {owner keys} :
      Acts s (.call owner keys) { s with calls := s.calls ++ [⟨owner, .locking [] keys⟩] }
  | run {pre c post k st} : s.calls = pre ++ c :: post → Moves s.locks c.stage k st →
      Acts s (.run pre.length) ⟨k, pre ++ ⟨c.owner, st⟩ :: post⟩
  | cancel {pre owner taken key l todo post} :
      s.calls = pre ++ ⟨owner, .waiting taken key l todo⟩ :: post →
      Acts s (.cancel pre.length) ⟨s.locks, pre ++ ⟨owner, .leaving taken key l⟩ :: post⟩

theorem acts_of_step {s s' : Locks} {e : LockEvent} (h : Locks.sys.step s e = some s') : Acts s e s' := by
  cases e with
  | call owner keys =>
    cases h
    exact .call
  | run i =>
    obtain ⟨c, hc, h⟩ := Option.bind_eq_some_iff.mp h
    obtain ⟨⟨k, st⟩, hrun, rfl⟩ := Option.map_eq_some_iff.mp h
    obtain ⟨pre, post, hcalls, rfl, hmod⟩ :=
      Lists.exists_of_getElem? hc fun c => { c with stage := st }
    have heq : { s.setStage pre.length st with locks := k } =
        (⟨k, pre ++ ⟨c.owner, st⟩ :: post⟩ : Locks) := by
      rw [Locks.setStage, hmod]
    rw [heq]
    exact .run hcalls (moves_of_run hrun)
  | cancel i =>
    obtain ⟨⟨owner, st⟩, hc, h⟩ := Option.bind_eq_some_iff.mp h
    obtain ⟨st', hcancel, rfl⟩ := Option.map_eq_some_iff.mp h
    obtain ⟨pre, post, hcalls, rfl, hmod⟩ :=
      Lists.exists_of_getElem? hc fun c => { c with stage := st' }
    cases st with
    | waiting taken key l todo =>
      cases hcancel
      rw [Locks.setStage, hmod]
      exact .cancel hcalls
    | _ => cases hcancel

structure Inv (s : Locks) : Prop where
  good : Good s.locks (allUses s.calls) (allTokens s.calls)
  mutex : s.calls.countP (isDropping ·.stage) = s.locks.mu.toNat
  fresh : ∀ c ∈ s.calls, Fresh c.stage

theorem allUses_perm (pre : List Call) (c : Call) (post : List Call) :
    (allUses (pre ++ c :: post)).Perm (uses c.stage ++ allUses (pre ++ post)) := by
  simp only [allUses, List.flatMap_append, List.flatMap_cons]
  exact List.perm_append_comm_assoc _ _ _

theorem allTokens_perm (pre : List Call) (c : Call) (post : List Call) :
    (allTokens (pre ++ c :: post)).Perm (tokens c.stage ++ allTokens (pre ++ post)) := by
  simp only [allTokens, List.flatMap_append, List.flatMap_cons]
  exact List.perm_append_comm_assoc _ _ _

theorem countP_middle (pre : List Call) (c : Call) (post : List Call) :
    (pre ++ c :: post).countP (isDropping ·.stage) =
      (pre ++ post).countP (isDropping ·.stage) + (isDropping c.stage).toNat := by
  rw [List.countP_append, List.countP_append, List.countP_cons]
  cases isDropping c.stage
  · simp
  · simp
    omega

theorem step_inv {s s' : Locks} {e : LockEvent} (hs : Inv s) (h : Acts s e s') : Inv s' := by
  cases h with
  | call =>
    refine ⟨?_, ?_, ?_⟩
    · simpa [allUses, allTokens, uses, tokens] using hs.good
    · simpa [isDropping] using hs.mutex
    · intro c hc
      rcases List.mem_append.mp hc with hc | hc
      · exact hs.fresh c hc
      · rw [List.mem_singleton.mp hc]
        trivial
  | @run pre c post k st hcalls hm =>
    obtain ⟨hgood, hmutex, hfresh⟩ := hs
    rw [hcalls] at hgood hmutex hfresh
    refine ⟨?_, ?_, ?_⟩
    · have hgood' := hgood.perm (allUses_perm pre c post) (allTokens_perm pre c post)
      exact (moves_good hgood' (count_tokens_le _) hm).perm (allUses_perm pre ⟨c.owner, st⟩ post).symm
        (allTokens_perm pre ⟨c.owner, st⟩ post).symm
    · rw [countP_middle] at hmutex ⊢
      exact moves_mutex hmutex hm
    · intro d hd
      rcases List.mem_append.mp hd with hd | hd
      · exact hfresh d (List.mem_append_left _ hd)
      · rcases List.mem_cons.mp hd with rfl | hd
        · exact moves_fresh hm
        · exact hfresh d (List.mem_append_right _ (List.mem_cons_of_mem _ hd))
  | @cancel pre owner taken key l todo post hcalls =>
    obtain ⟨hgood, hmutex, hfresh⟩ := hs
    rw [hcalls] at hgood hmutex hfresh
    refine ⟨?_, ?_, ?_⟩
    · simpa [allUses, allTokens, uses, tokens] using hgood
    · simpa [isDropping] using hmutex
    · intro d hd
      rcases List.mem_append.mp hd with hd | hd
      · exact hfresh d (List.mem_append_left _ hd)
      · rcases List.mem_cons.mp hd with rfl | hd
        · exact hfresh ⟨owner, .waiting taken key l todo⟩ (by simp)
        · exact hfresh d (List.mem_append_right _ (List.mem_cons_of_mem _ hd))

theorem init_inv : Inv {} := by
  refine ⟨⟨?_, ?_, ?_⟩, rfl, ?_⟩
  · intro p hp
    cases hp
  · intro key l hl
    cases hl
  · intro key key' l hl
    cases hl
  · intro c hc
    cases hc

theorem reach_inv {s : Locks} {ok : Locks → LockEvent → Prop} (h : Sys.Reach Locks.sys ok s) : Inv s :=
  Sys.Reach.inv (fun _ hinit => hinit ▸ init_inv) (fun _ _ _ hs _ hstep => step_inv hs (acts_of_step hstep)) h

end MongoRescue.Runs.Proof
