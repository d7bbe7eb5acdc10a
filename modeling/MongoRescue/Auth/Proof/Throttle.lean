import MongoRescue.Auth.Throttle
import MongoRescue.Lib.Lists
import Mathlib.Tactic.Positivity

/-!
# Login throttling counts correctly

`PairOk` says what the entry of a pair knows: its outstanding attempts, and as long as they are not
forgotten its failures and their lockout. Every change of an entry keeps it (`PairOk.stale`,
`PairOk.fail`, …), every call changes the entries of its two keys only, and a full map loses only what
is forgotten anyway (`prune_entry`). So it holds in every run with few keys (`reach_throttled`).
-/

namespace MongoRescue.Auth.Proof

open Trans

/-! ## Times and lockouts -/

theorem timeSub_pos {t u : Int} : 0 < Go.timeSub t u ↔ u < t := by
  unfold Go.timeSub Go.minInt64 Go.maxInt64
  omega

theorem lt_sub_of_lt_timeSub {t u : Int} (h : forgetAfter < Go.timeSub t u) : forgetAfter < t - u := by
  unfold Go.timeSub Go.minInt64 Go.maxInt64 at h
  have : (0 : Int) < forgetAfter := by decide
  omega

/-- What a pair waits after its `k`-th failure, at least. -/
def lockout (k : Nat) : Int := min (lockoutBase * 2 ^ (k - freeAttempts)) maxLockout

theorem lockoutFor_eq (k : Nat) : lockoutFor k = min (lockoutBase * 2 ^ k) maxLockout := by
  unfold lockoutFor
  split
  · have h16 : (2 : Int) ^ 16 ≤ 2 ^ k := by
      gcongr
      omega
    have hbase : maxLockout ≤ lockoutBase * 2 ^ 16 := by decide
    have hpos : (0 : Int) < lockoutBase := by decide
    refine (min_eq_right (hbase.trans ?_)).symm
    gcongr
  · rfl

theorem lockout_le (k : Nat) {budget : Nat} (h : budget ≤ freeAttempts) : lockout k ≤ lockoutFor (k - budget) := by
  rw [lockoutFor_eq, lockout]
  have hpos : (0 : Int) < lockoutBase := by decide
  gcongr
  · decide

theorem lockout_lt (k : Nat) : lockout k ≤ forgetAfter :=
  (min_le_right _ _).trans (by decide)

/-! ## The entry of a pair -/

/-- Failures closer together than `forgetAfter`, newest first. -/
def Close (fails : List Int) : Prop := fails.IsChain fun t u => t - u < forgetAfter

/-- What an entry remembers of the newest failure and those before it. -/
structure Remembers (t : Int) (rest : List Int) (e : ThrottleEntry) : Prop where
  failures : e.failures = rest.length + 1
  lastFailure : e.lastFailure = t
  locked : freeAttempts ≤ rest.length + 1 → t + lockout (rest.length + 1) ≤ e.lockedUntil

/-- The entry of a pair with `n` outstanding attempts, after the failures `fails`. -/
structure PairOk (now : Int) (fails : List Int) (n : Nat) (e : ThrottleEntry) : Prop where
  inFlight : e.inFlight = n
  one : n ≤ 1
  locked : now < e.lockedUntil → 0 < e.failures
  clean : fails = [] → e.failures = 0
  past : ∀ t ∈ fails, t ≤ now
  remembers : ∀ t rest, fails = t :: rest → Close fails → now - t ≤ forgetAfter → Remembers t rest e

section Entry

variable {now : Int} {fails : List Int} {n : Nat} {e : ThrottleEntry}

section
variable (h : PairOk now fails n e)
include h

theorem PairOk.tick {now' : Int} (hle : now ≤ now') : PairOk now' fails n e :=
  ⟨h.inFlight, h.one, fun hl => h.locked (by omega), h.clean, fun t ht => (h.past t ht).trans hle,
    fun t rest hf hc ht => h.remembers t rest hf hc (by omega)⟩

/-- An entry that is dropped. -/
theorem PairOk.stale (hz : Go.zeroTime ≤ now)
    (hs : Throttle.stale e now = true) : PairOk now fails n {} := by
  simp only [Throttle.stale, Throttle.idle, Bool.and_eq_true, decide_eq_true_eq] at hs
  obtain ⟨⟨hidle, -⟩, hold⟩ := hs
  refine ⟨?_, h.one, fun hl => absurd hl (Int.not_lt.mpr hz), fun _ => rfl, h.past, ?_⟩
  · rw [← h.inFlight, hidle]
  · intro t rest hf hc ht
    have hlast := (h.remembers t rest hf hc ht).lastFailure
    rw [hlast] at hold
    have := lt_sub_of_lt_timeSub hold
    omega

theorem PairOk.forget : PairOk now fails n (forgetStale e now) := by
  unfold forgetStale
  split
  · rename_i hs
    obtain ⟨-, hunlocked, hold⟩ := hs
    refine ⟨h.inFlight, h.one, fun hl => absurd hl hunlocked, fun _ => rfl, h.past, ?_⟩
    intro t rest hf hc ht
    have hlast := (h.remembers t rest hf hc ht).lastFailure
    rw [hlast] at hold
    have := lt_sub_of_lt_timeSub hold
    omega
  · exact h

theorem PairOk.setInFlight {m : Nat} (hm : m ≤ 1) : PairOk now fails m { e with inFlight := m } :=
  ⟨rfl, hm, h.locked, h.clean, h.past, fun t rest hf hc ht =>
    let hr := h.remembers t rest hf hc ht
    ⟨hr.failures, hr.lastFailure, hr.locked⟩⟩

/-- A failure is remembered with those before it. -/
theorem PairOk.fail {budget : Nat} (hb : budget ≤ freeAttempts) :
    PairOk now (now :: fails) n (Throttle.failPair e now budget) := by
  have hfields : (Throttle.failPair e now budget).failures = e.failures + 1 ∧
      (Throttle.failPair e now budget).lastFailure = now ∧
      (Throttle.failPair e now budget).inFlight = e.inFlight := by
    unfold Throttle.failPair
    dsimp only
    split <;> exact ⟨rfl, rfl, rfl⟩
  obtain ⟨hfailures, hlast, hflight⟩ := hfields
  refine ⟨hflight.trans h.inFlight, h.one, fun _ => by omega, (fun hnil => by cases hnil), ?_, ?_⟩
  · intro t ht
    rcases List.mem_cons.mp ht with rfl | ht
    · exact le_rfl
    · exact h.past t ht
  · rintro t rest hf hc -
    obtain ⟨rfl, rfl⟩ := List.cons.inj hf
    have hcount : e.failures = fails.length := by
      rcases fails with _ | ⟨t, rest⟩
      · exact h.clean rfl
      · obtain ⟨hgap, hclose⟩ := List.isChain_cons_cons.mp hc
        exact (h.remembers t rest rfl hclose (by omega)).failures
    refine ⟨by rw [hfailures, hcount], hlast, fun hk => ?_⟩
    unfold Throttle.failPair
    dsimp only
    rw [hcount, if_pos (hb.trans hk)]
    have := lockout_le (fails.length + 1) hb
    dsimp only
    omega

end

end Entry

/-! ## Entries of the map -/

section Map

variable {t : Throttle} {key key' : String} {k : String} {keys : List String}

theorem entry_modify (t : Throttle) (key key' : String) (f : ThrottleEntry → ThrottleEntry) :
    (t.modify key f).entry key' = if key = key' then f (t.entry key) else t.entry key' := by
  unfold Throttle.modify Throttle.entry
  dsimp only
  rw [Table.get_put]
  dsimp only
  split <;> rfl

@[simp] theorem entry_modify_self (t : Throttle) (key : String) (f : ThrottleEntry → ThrottleEntry) :
    (t.modify key f).entry key = f (t.entry key) := by
  rw [entry_modify, if_pos rfl]

theorem entry_modify_ne (t : Throttle) (h : key ≠ key') (f : ThrottleEntry → ThrottleEntry) :
    (t.modify key f).entry key' = t.entry key' := by
  rw [entry_modify, if_neg h]

theorem entry_delete_self (t : Throttle) (key : String) : (t.delete key).entry key = {} := by
  unfold Throttle.delete Throttle.entry
  dsimp only
  rw [Table.get_erase_self]
  rfl

theorem entry_delete_ne (t : Throttle) (h : key ≠ key') : (t.delete key).entry key' = t.entry key' := by
  unfold Throttle.delete Throttle.entry
  dsimp only
  rw [Table.get_erase_ne _ h]

/-- A counter goes down by one if there is an attempt. -/
theorem entry_release (t : Throttle) (key key' : String) : (t.release key).entry key' =
    if key = key' then { t.entry key with inFlight := (t.entry key).inFlight - 1 } else t.entry key' := by
  unfold Throttle.release
  by_cases hany : ((t.entries.get key).any fun e => decide (0 < e.2.inFlight)) = true
  · rw [if_pos hany, entry_modify]
  · rw [if_neg hany]
    have hzero : (t.entry key).inFlight = 0 := by
      unfold Throttle.entry
      rcases hg : t.entries.get key with _ | e
      · rfl
      · rw [hg] at hany
        simpa using hany
    split
    · rename_i hkey
      rw [← hkey]
      rcases he : t.entry key with ⟨failures, inFlight, lockedUntil, lastFailure⟩
      rw [he] at hzero
      dsimp only at hzero ⊢
      rw [hzero]
    · rfl

/-- The keys that have an entry. -/
def tracked (t : Throttle) : List String := t.entries.rows.map (·.1)

theorem mem_tracked_modify {f : ThrottleEntry → ThrottleEntry} (h : k ∈ tracked (t.modify key f)) :
    k = key ∨ k ∈ tracked t := by
  obtain ⟨e, he, rfl⟩ := List.mem_map.mp h
  rcases Table.mem_put.mp he with rfl | ⟨he, -⟩
  · exact .inl rfl
  · exact .inr (List.mem_map_of_mem he)

theorem modify_tracked (hkey : key ∈ keys) (ht : ∀ k ∈ tracked t, k ∈ keys)
    (f : ThrottleEntry → ThrottleEntry) : ∀ k ∈ tracked (t.modify key f), k ∈ keys := by
  intro k hk
  rcases mem_tracked_modify hk with rfl | hk
  · exact hkey
  · exact ht k hk

theorem inFlight_tracked (hkey : key ∈ keys) (ht : ∀ k ∈ tracked t, k ∈ keys) :
    ∀ k ∈ tracked (t.inFlight key), k ∈ keys := by
  unfold Throttle.inFlight
  exact modify_tracked hkey ht _

theorem mem_tracked_filter {p : String × ThrottleEntry → Bool}
    (h : k ∈ tracked { t with entries := t.entries.filter p }) : k ∈ tracked t := by
  obtain ⟨e, he, rfl⟩ := List.mem_map.mp h
  exact List.mem_map_of_mem (List.mem_filter.mp he).1

theorem mem_tracked_release (h : k ∈ tracked (t.release key)) : k ∈ tracked t := by
  unfold Throttle.release at h
  split at h
  · rename_i hany
    rcases mem_tracked_modify h with rfl | h
    · rcases hg : t.entries.get k with _ | e
      · rw [hg] at hany
        cases hany
      · have hkey : e.1 = k := Table.key_of_get hg
        exact hkey ▸ List.mem_map_of_mem (Table.mem_of_get hg)
    · exact h
  · exact h

theorem mem_tracked_releaseLocked {pairKey ipKey : String}
    (h : k ∈ tracked (t.releaseLocked pairKey ipKey)) : k ∈ tracked t := by
  unfold Throttle.releaseLocked at h
  dsimp only at h
  split at h
  · exact mem_tracked_release (mem_tracked_release h)
  · exact mem_tracked_release h

/-- Fewer keys than may be tracked: only stale entries are dropped. -/
theorem prune_entry (hkeys : ∀ k ∈ tracked t, k ∈ keys) (hfew : keys.length < maxTrackedKeys)
    (now : Int) (order : List String) : (∀ k ∈ tracked (t.pruneLocked now order), k ∈ tracked t) ∧
      ∀ key, (t.pruneLocked now order).entry key = t.entry key ∨
        (Throttle.stale (t.entry key) now = true ∧ (t.pruneLocked now order).entry key = {}) := by
  unfold Throttle.pruneLocked
  by_cases hlen : t.len < maxTrackedKeys / 2
  · rw [if_pos hlen]
    exact ⟨fun _ h => h, fun _ => .inl rfl⟩
  rw [if_neg hlen]
  dsimp only
  have hle : t.len ≤ keys.length := by
    have hsub := (List.subperm_of_subset t.entries.nodup (fun k hk => hkeys k hk)).length_le
    rwa [List.length_map] at hsub
  have hfilter : Throttle.len { t with entries := t.entries.filter fun e => !Throttle.stale e.2 now } ≤ t.len :=
    List.length_filter_le _ _
  rw [if_pos (by omega)]
  refine ⟨fun _ h => mem_tracked_filter h, fun key => ?_⟩
  unfold Throttle.entry
  dsimp only
  rw [Table.get_filter]
  rcases t.entries.get key with _ | e
  · exact .inl rfl
  · cases hstale : Throttle.stale e.2 now with
    | true =>
      refine .inr ⟨hstale, ?_⟩
      rw [Option.filter_some_neg (by simp [hstale])]
      rfl
    | false =>
      left
      rw [Option.filter_some_pos (by simp [hstale])]

end Map

/-! ## All entries -/

/-- The entries of pairs and of IPs, with `n` and `m` outstanding attempts. -/
structure Entries (isPair : String → Bool) (now : Int) (fails : String → List Int) (n m : String → Nat)
    (t : Throttle) : Prop where
  pairs : ∀ key, isPair key = true → PairOk now (fails key) (n key) (t.entry key)
  ips : ∀ key, isPair key = false → (t.entry key).inFlight = m key

section Ops

variable {isPair : String → Bool} {now : Int} {fails : String → List Int} {n m : String → Nat} {t : Throttle}
  {key pairKey ipKey : String}

variable {keys : List String}

section
variable (h : Entries isPair now fails n m t)
include h

theorem Entries.prune (hz : Go.zeroTime ≤ now)
    (hkeys : ∀ k ∈ tracked t, k ∈ keys) (hfew : keys.length < maxTrackedKeys) (order : List String) :
    Entries isPair now fails n m (t.pruneLocked now order) := by
  have hentry := (prune_entry hkeys hfew now order).2
  refine ⟨fun key hp => ?_, fun key hp => ?_⟩
  · rcases hentry key with heq | ⟨hstale, heq⟩
    · rw [heq]
      exact h.pairs key hp
    · rw [heq]
      exact (h.pairs key hp).stale hz hstale
  · rcases hentry key with heq | ⟨hstale, heq⟩
    · rw [heq]
      exact h.ips key hp
    · rw [heq, ← h.ips key hp]
      simp only [Throttle.stale, Throttle.idle, Bool.and_eq_true, decide_eq_true_eq] at hstale
      exact hstale.1.1.symm

theorem Entries.changePair {t' : Throttle} (hp : isPair key = true)
    {fails' : List Int} {n' : Nat} (hself : PairOk now fails' n' (t'.entry key))
    (hother : ∀ key', key ≠ key' → t'.entry key' = t.entry key') :
    Entries isPair now (Function.update fails key fails') (Function.update n key n') m t' := by
  refine ⟨fun key' hp' => ?_, fun key' hp' => ?_⟩
  · by_cases hk : key' = key
    · subst hk
      rw [Function.update_self, Function.update_self]
      exact hself
    · rw [Function.update_of_ne hk, Function.update_of_ne hk, hother key' (Ne.symm hk)]
      exact h.pairs key' hp'
  · have hk : key ≠ key' := by
      rintro rfl
      rw [hp] at hp'
      cases hp'
    rw [hother key' hk]
    exact h.ips key' hp'

theorem Entries.changeIP {t' : Throttle} (hp : isPair key = false)
    {m' : Nat} (hself : (t'.entry key).inFlight = m')
    (hother : ∀ key', key ≠ key' → t'.entry key' = t.entry key') :
    Entries isPair now fails n (Function.update m key m') t' := by
  refine ⟨fun key' hp' => ?_, fun key' hp' => ?_⟩
  · have hk : key ≠ key' := by
      rintro rfl
      rw [hp] at hp'
      cases hp'
    rw [hother key' hk]
    exact h.pairs key' hp'
  · by_cases hk : key' = key
    · subst hk
      rw [Function.update_self]
      exact hself
    · rw [Function.update_of_ne hk, hother key' (Ne.symm hk)]
      exact h.ips key' hp'

theorem Entries.modifyPair (hp : isPair key = true)
    {f : ThrottleEntry → ThrottleEntry} {fails' : List Int} {n' : Nat}
    (hf : PairOk now fails' n' (f (t.entry key))) :
    Entries isPair now (Function.update fails key fails') (Function.update n key n') m (t.modify key f) :=
  h.changePair hp (by rw [entry_modify_self]; exact hf) fun _ hk => entry_modify_ne _ hk _

theorem Entries.modifyIP (hp : isPair key = false)
    {f : ThrottleEntry → ThrottleEntry} {m' : Nat} (hf : (f (t.entry key)).inFlight = m') :
    Entries isPair now fails n (Function.update m key m') (t.modify key f) :=
  h.changeIP hp (by rw [entry_modify_self]; exact hf) fun _ hk => entry_modify_ne _ hk _

end

theorem forgetStale_inFlight (e : ThrottleEntry) (now : Int) : (forgetStale e now).inFlight = e.inFlight := by
  unfold forgetStale
  split <;> rfl

/-- The outcomes of `Reserve`, from the map after it dropped and forgot what is stale. -/
inductive Reserved (t : Throttle) (now : Int) (pairKey ipKey : String) : Throttle × Option Int → Prop
  | locked {wait : Int} : now < (t.entry pairKey).lockedUntil → Reserved t now pairKey ipKey (t, some wait)
  | busy {wait : Int} : 0 < (t.entry pairKey).inFlight → Reserved t now pairKey ipKey (t, some wait)
  | busyIP {wait : Int} : ipKey ≠ "" → 0 < ((t.modify ipKey (forgetStale · now)).entry pairKey).failures →
      Reserved t now pairKey ipKey (t.modify ipKey (forgetStale · now), some wait)
  | pair : (t.entry pairKey).lockedUntil ≤ now → (t.entry pairKey).inFlight = 0 → ipKey = "" →
      Reserved t now pairKey ipKey (t.inFlight pairKey, none)
  | both : (t.entry pairKey).lockedUntil ≤ now → (t.entry pairKey).inFlight = 0 → ipKey ≠ "" →
      Reserved t now pairKey ipKey
        (((t.modify ipKey (forgetStale · now)).inFlight ipKey).inFlight pairKey, none)

theorem reserve_reserved (t : Throttle) (now : Int) (order : List String) (pairKey ipKey : String) :
    Reserved ((t.pruneLocked now order).modify pairKey (forgetStale · now)) now pairKey ipKey
      (t.reserve now order pairKey ipKey) := by
  unfold Throttle.reserve
  dsimp only
  generalize (t.pruneLocked now order).modify pairKey (forgetStale · now) = t'
  by_cases hlocked : 0 < Go.timeSub (t'.entry pairKey).lockedUntil now
  · rw [if_pos hlocked]
    exact .locked (timeSub_pos.mp hlocked)
  have hfree : (t'.entry pairKey).lockedUntil ≤ now := Int.not_lt.mp fun h => hlocked (timeSub_pos.mpr h)
  rw [if_neg hlocked]
  by_cases hbusy : maxInFlightPerPair ≤ (t'.entry pairKey).inFlight
  · rw [if_pos hbusy]
    exact .busy hbusy
  have hzero : (t'.entry pairKey).inFlight = 0 := by
    unfold maxInFlightPerPair at hbusy
    omega
  rw [if_neg hbusy]
  unfold Throttle.reserveIP
  by_cases hip : ipKey ≠ ""
  · rw [if_pos hip]
    dsimp only
    split
    · rename_i hcap
      exact .busyIP hip hcap.1
    · exact .both hfree hzero hip
  · rw [if_neg hip]
    exact .pair hfree hzero (not_not.mp hip)

section
variable (h : Entries isPair now fails n m t)
include h

/-- The map after `Reserve` dropped and forgot what is stale. -/
theorem Entries.freshen (hz : Go.zeroTime ≤ now)
    (hkeys : ∀ k ∈ tracked t, k ∈ keys) (hfew : keys.length < maxTrackedKeys)
    (hp : isPair pairKey = true) (order : List String) :
    Entries isPair now fails n m ((t.pruneLocked now order).modify pairKey (forgetStale · now)) := by
  have hpruned := h.prune hz hkeys hfew order
  have hpair := hpruned.modifyPair hp (f := (forgetStale · now)) ((hpruned.pairs _ hp).forget)
  rwa [Function.update_eq_self, Function.update_eq_self] at hpair

/-- `Reserve` of an attempt: a refused one changes no counter. -/
theorem Entries.reserve (hz : Go.zeroTime ≤ now)
    (hkeys : ∀ k ∈ tracked t, k ∈ keys) (hfew : keys.length < maxTrackedKeys)
    (hp : isPair pairKey = true) (hip : ipKey ≠ "" → isPair ipKey = false) (order : List String) :
    Entries isPair now fails
      (if (t.reserve now order pairKey ipKey).2 = none then Function.update n pairKey (n pairKey + 1) else n)
      (if (t.reserve now order pairKey ipKey).2 = none ∧ ipKey ≠ "" then Function.update m ipKey (m ipKey + 1)
        else m)
      (t.reserve now order pairKey ipKey).1 := by
  have hpair := h.freshen hz hkeys hfew hp order
  have htake : ∀ {m : String → Nat} {t : Throttle}, Entries isPair now fails n m t →
      (t.entry pairKey).inFlight = 0 →
      Entries isPair now fails (Function.update n pairKey (n pairKey + 1)) m (t.inFlight pairKey) := by
    intro m t ht hzero
    have hok := ht.pairs _ hp
    have hn : n pairKey = 0 := hok.inFlight.symm.trans hzero
    have htaken : PairOk now (fails pairKey) (n pairKey + 1)
        { t.entry pairKey with inFlight := (t.entry pairKey).inFlight + 1 } := by
      rw [hzero, hn]
      exact hok.setInFlight (m := 1) (Nat.le_refl 1)
    have hnew := ht.modifyPair hp (f := fun e => { e with inFlight := e.inFlight + 1 }) htaken
    rwa [Function.update_eq_self] at hnew
  have hforgetIP : isPair ipKey = false → Entries isPair now fails n m
      (((t.pruneLocked now order).modify pairKey (forgetStale · now)).modify ipKey (forgetStale · now)) := by
    intro hp'
    have hnew := hpair.modifyIP hp' (f := (forgetStale · now))
      ((forgetStale_inFlight _ _).trans (hpair.ips _ hp'))
    rwa [Function.update_eq_self] at hnew
  have hres := reserve_reserved t now order pairKey ipKey
  generalize t.reserve now order pairKey ipKey = r at hres ⊢
  cases hres with
  | locked => exact hpair
  | busy => exact hpair
  | busyIP hne => exact hforgetIP (hip hne)
  | pair _ hzero hempty =>
    rw [if_pos rfl, if_neg fun hand => hand.2 hempty]
    exact htake hpair hzero
  | both _ hzero hne =>
    rw [if_pos rfl, if_pos ⟨rfl, hne⟩]
    have hp' := hip hne
    have hpairNe : ipKey ≠ pairKey := by
      rintro rfl
      rw [hp] at hp'
      cases hp'
    have hforget := hforgetIP hp'
    have hflight := hforget.modifyIP hp' (f := fun e => { e with inFlight := e.inFlight + 1 })
      (congrArg (· + 1) (hforget.ips _ hp'))
    refine htake hflight ?_
    unfold Throttle.inFlight
    rw [entry_modify_ne _ hpairNe, entry_modify_ne _ hpairNe]
    exact hzero

/-- One outstanding attempt less. -/
theorem Entries.releaseLocked (hp : isPair pairKey = true)
    (hip : ipKey ≠ "" → isPair ipKey = false) :
    Entries isPair now fails (Function.update n pairKey (n pairKey - 1))
      (if ipKey ≠ "" then Function.update m ipKey (m ipKey - 1) else m) (t.releaseLocked pairKey ipKey) := by
  have hok := h.pairs _ hp
  have hentry : ∀ (t : Throttle) (key : String), (t.release key).entry key =
      { t.entry key with inFlight := (t.entry key).inFlight - 1 } := fun t key => by
    rw [entry_release, if_pos rfl]
  have hother : ∀ (t : Throttle) (key key' : String), key ≠ key' → (t.release key).entry key' = t.entry key' :=
    fun t key key' hk => by rw [entry_release, if_neg hk]
  have hpair : Entries isPair now fails (Function.update n pairKey (n pairKey - 1)) m (t.release pairKey) := by
    have hself : PairOk now (fails pairKey) (n pairKey - 1) ((t.release pairKey).entry pairKey) := by
      rw [hentry, hok.inFlight]
      exact hok.setInFlight ((Nat.sub_le _ _).trans hok.one)
    have hnew := h.changePair hp hself (hother t pairKey)
    rwa [Function.update_eq_self] at hnew
  unfold Throttle.releaseLocked
  dsimp only
  by_cases hne : ipKey ≠ ""
  · rw [if_pos hne, if_pos hne]
    have hp' := hip hne
    refine hpair.changeIP hp' ?_ (hother _ ipKey)
    rw [hentry, hpair.ips _ hp']
  · rw [if_neg hne, if_neg hne]
    exact hpair

theorem Entries.succeeded (hz : Go.zeroTime ≤ now)
    (hp : isPair pairKey = true) (hip : ipKey ≠ "" → isPair ipKey = false) :
    Entries isPair now (Function.update fails pairKey []) (Function.update n pairKey (n pairKey - 1))
      (if ipKey ≠ "" then Function.update m ipKey (m ipKey - 1) else m) (t.succeeded pairKey ipKey) := by
  have hreleased := h.releaseLocked hp hip
  have hone := (h.pairs _ hp).one
  have hzero : n pairKey - 1 = 0 := by omega
  have hempty : PairOk now [] (n pairKey - 1) {} :=
    ⟨hzero.symm, by omega, fun hl => absurd hl (Int.not_lt.mpr hz), fun _ => rfl,
      fun _ ht => (List.not_mem_nil ht).elim, fun _ _ hf => by cases hf⟩
  have hself : PairOk now [] (n pairKey - 1) ((t.succeeded pairKey ipKey).entry pairKey) := by
    unfold Throttle.succeeded
    rw [entry_delete_self]
    exact hempty
  have hnew := hreleased.changePair hp hself fun key' hk => entry_delete_ne _ hk
  rwa [Function.update_idem] at hnew

theorem Entries.failed (hp : isPair pairKey = true) (hip : ipKey ≠ "" → isPair ipKey = false) :
    Entries isPair now (Function.update fails pairKey (now :: fails pairKey))
      (Function.update n pairKey (n pairKey - 1))
      (if ipKey ≠ "" then Function.update m ipKey (m ipKey - 1) else m) (t.failed now pairKey ipKey) := by
  have hreleased := h.releaseLocked hp hip
  unfold Throttle.failed
  dsimp only
  generalize (t.releaseLocked pairKey ipKey) = t₁ at hreleased ⊢
  have hbudget : (t₁.failIP now ipKey).2 ≤ freeAttempts := by
    unfold Throttle.failIP
    split
    · dsimp only
      split
      · decide
      · exact Nat.le_refl _
    · exact Nat.le_refl _
  have hfailIP : Entries isPair now fails (Function.update n pairKey (n pairKey - 1))
      (if ipKey ≠ "" then Function.update m ipKey (m ipKey - 1) else m) (t₁.failIP now ipKey).1 := by
    unfold Throttle.failIP
    by_cases hne : ipKey ≠ ""
    · rw [if_pos hne] at hreleased
      rw [if_pos hne, if_pos hne]
      have hnew := hreleased.modifyIP (hip hne)
        (f := fun e => { e with failures := e.failures + 1, lastFailure := now })
        (hreleased.ips _ (hip hne))
      rwa [Function.update_eq_self] at hnew
    · rw [if_neg hne] at hreleased
      rw [if_neg hne, if_neg hne]
      exact hreleased
  have hnew := hfailIP.modifyPair hp (f := (Throttle.failPair · now (t₁.failIP now ipKey).2))
    ((hfailIP.pairs _ hp).fail hbudget)
  rwa [Function.update_eq_self] at hnew

end

end Ops

/-! ## Attempts -/

/-- The outstanding attempts of a pair. -/
def pairOut (as : List Attempt) (key : String) : Nat := as.countP fun a => !a.settled && a.pairKey = key

/-- The outstanding attempts of an IP. -/
def ipOut (as : List Attempt) (key : String) : Nat :=
  as.countP fun a => !a.settled && (a.ipKey = key && a.ipKey ≠ "")

section Attempts

variable {as : List Attempt} {i : Nat} {a : Attempt}

theorem pairOut_add (as : List Attempt) (pairKey ipKey : String) :
    pairOut (as ++ [⟨pairKey, ipKey, false⟩]) = Function.update (pairOut as) pairKey (pairOut as pairKey + 1) := by
  funext key
  by_cases hk : key = pairKey
  · subst hk
    rw [Function.update_self]
    simp [pairOut]
  · rw [Function.update_of_ne hk]
    simp [pairOut, Ne.symm hk]

theorem ipOut_add (as : List Attempt) (pairKey ipKey : String) :
    ipOut (as ++ [⟨pairKey, ipKey, false⟩]) =
      if ipKey ≠ "" then Function.update (ipOut as) ipKey (ipOut as ipKey + 1) else ipOut as := by
  funext key
  split
  · rename_i hne
    by_cases hk : key = ipKey
    · subst hk
      rw [Function.update_self]
      simp [ipOut, hne]
    · rw [Function.update_of_ne hk]
      simp [ipOut, Ne.symm hk]
  · rename_i hne
    simp [ipOut, not_not.mp hne]

theorem pairOut_settle (ha : as[i]? = some a) (hs : a.settled = false) :
    pairOut (as.modify i fun a => { a with settled := true }) =
      Function.update (pairOut as) a.pairKey (pairOut as a.pairKey - 1) := by
  obtain ⟨pre, post, rfl, rfl, hmod⟩ := Lists.exists_of_getElem? ha fun a => { a with settled := true }
  rw [hmod]
  funext key
  by_cases hk : key = a.pairKey
  · subst hk
    rw [Function.update_self]
    simp only [pairOut, List.countP_append, List.countP_cons, hs]
    simp
  · rw [Function.update_of_ne hk]
    simp [pairOut, List.countP_append, Ne.symm hk]

theorem ipOut_settle (ha : as[i]? = some a) (hs : a.settled = false) :
    ipOut (as.modify i fun a => { a with settled := true }) =
      if a.ipKey ≠ "" then Function.update (ipOut as) a.ipKey (ipOut as a.ipKey - 1) else ipOut as := by
  obtain ⟨pre, post, rfl, rfl, hmod⟩ := Lists.exists_of_getElem? ha fun a => { a with settled := true }
  rw [hmod]
  funext key
  split
  · rename_i hne
    by_cases hk : key = a.ipKey
    · subst hk
      rw [Function.update_self]
      simp [ipOut, List.countP_append, hs, hne]
    · rw [Function.update_of_ne hk]
      simp [ipOut, List.countP_append, Ne.symm hk]
  · rename_i hne
    simp [ipOut, List.countP_append, not_not.mp hne]

end Attempts

/-! ## Runs -/

/-- The keys of an attempt: a pair and an IP, of which there are few. -/
structure KeysOk (isPair : String → Bool) (keys : List String) (pairKey ipKey : String) : Prop where
  pair : isPair pairKey = true
  pairMem : pairKey ∈ keys
  ip : ipKey ≠ "" → isPair ipKey = false
  ipMem : ipKey ≠ "" → ipKey ∈ keys

/-- Pair and IP keys are disjoint, and all of them are among `keys`. -/
def Allowed (isPair : String → Bool) (keys : List String) (_ : Logins) : LoginEvent → Prop
  | .reserve pairKey ipKey _ => KeysOk isPair keys pairKey ipKey
  | _ => True

structure Throttled (isPair : String → Bool) (keys : List String) (s : Logins) : Prop where
  clock : Go.zeroTime ≤ s.now
  tracked : ∀ k ∈ tracked s.throttle, k ∈ keys
  attempts : ∀ a ∈ s.attempts, KeysOk isPair keys a.pairKey a.ipKey
  entries : Entries isPair s.now s.fails (pairOut s.attempts) (ipOut s.attempts) s.throttle

section Runs

variable {isPair : String → Bool} {keys : List String} {s s' : Logins}
  {pairKey ipKey key : String} {i n : Nat} {a : Attempt} {e : LoginEvent} {es : List LoginEvent}

theorem reserve_throttled (hfew : keys.length < maxTrackedKeys) (hs : Throttled isPair keys s)
    (hok : KeysOk isPair keys pairKey ipKey) (order : List String) :
    Throttled isPair keys (s.reserve pairKey ipKey order) := by
  have hentries := hs.entries.reserve hs.clock hs.tracked hfew hok.pair hok.ip order
  have htracked : ∀ k ∈ tracked (s.throttle.reserve s.now order pairKey ipKey).1, k ∈ keys := by
    have hpruned : ∀ k ∈ tracked ((s.throttle.pruneLocked s.now order).modify pairKey (forgetStale · s.now)),
        k ∈ keys :=
      modify_tracked hok.pairMem
        (fun k hk => hs.tracked k ((prune_entry hs.tracked hfew s.now order).1 k hk)) _
    have hres := reserve_reserved s.throttle s.now order pairKey ipKey
    generalize s.throttle.reserve s.now order pairKey ipKey = r at hres ⊢
    cases hres with
    | locked => exact hpruned
    | busy => exact hpruned
    | busyIP hne => exact modify_tracked (hok.ipMem hne) hpruned _
    | pair => exact inFlight_tracked hok.pairMem hpruned
    | both _ _ hne =>
      have hip := hok.ipMem hne
      exact inFlight_tracked hok.pairMem (inFlight_tracked hip (modify_tracked hip hpruned _))
  unfold Logins.reserve
  dsimp only
  by_cases hnone : (s.throttle.reserve s.now order pairKey ipKey).2 = none
  · rw [if_pos hnone] at hentries
    rw [if_pos hnone]
    refine ⟨hs.clock, htracked, fun a ha => ?_, ?_⟩
    · rcases List.mem_append.mp ha with ha | ha
      · exact hs.attempts a ha
      · rw [List.mem_singleton.mp ha]
        exact hok
    · dsimp only
      rw [pairOut_add, ipOut_add]
      simpa only [hnone, true_and] using hentries
  · rw [if_neg hnone, if_neg fun hand => hnone hand.1] at hentries
    rw [if_neg hnone]
    exact ⟨hs.clock, htracked, hs.attempts, hentries⟩

theorem settle_throttled (hs : Throttled isPair keys s) (ha : s.attempts[i]? = some a) (how : Settling) :
    Throttled isPair keys (s.settle i a how) := by
  have hok := hs.attempts a (List.mem_of_getElem? ha)
  unfold Logins.settle
  cases hsettled : a.settled with
  | true => exact hs
  | false =>
    rw [if_neg (by decide)]
    have hattempts : ∀ b ∈ s.attempts.modify i fun a => { a with settled := true },
        KeysOk isPair keys b.pairKey b.ipKey := by
      intro b hb
      obtain ⟨pre, post, hcs, rfl, hmod⟩ := Lists.exists_of_getElem? ha fun a => { a with settled := true }
      rw [hmod] at hb
      rcases Lists.mem_middle.mp hb with rfl | hb
      · exact hok
      · exact hs.attempts b (hcs ▸ Lists.mem_middle.mpr (.inr hb))
    have hreleased : ∀ k ∈ tracked (s.throttle.releaseLocked a.pairKey a.ipKey), k ∈ keys :=
      fun k hk => hs.tracked k (mem_tracked_releaseLocked hk)
    dsimp only
    cases how with
    | succeeded =>
      refine ⟨hs.clock, fun k hk => hreleased k (mem_tracked_filter hk), hattempts, ?_⟩
      dsimp only
      rw [pairOut_settle ha hsettled, ipOut_settle ha hsettled]
      exact hs.entries.succeeded hs.clock hok.pair hok.ip
    | failed =>
      refine ⟨hs.clock, fun k hk => ?_, hattempts, ?_⟩
      · rcases mem_tracked_modify hk with rfl | hk
        · exact hok.pairMem
        · unfold Throttle.failIP at hk
          split at hk
          · rename_i hne
            rcases mem_tracked_modify hk with rfl | hk
            · exact hok.ipMem hne
            · exact hreleased k hk
          · exact hreleased k hk
      · dsimp only
        rw [pairOut_settle ha hsettled, ipOut_settle ha hsettled]
        exact hs.entries.failed hok.pair hok.ip
    | released =>
      refine ⟨hs.clock, hreleased, hattempts, ?_⟩
      dsimp only
      rw [pairOut_settle ha hsettled, ipOut_settle ha hsettled]
      exact hs.entries.releaseLocked hok.pair hok.ip

theorem step_throttled (hfew : keys.length < maxTrackedKeys) (hs : Throttled isPair keys s)
    (hok : Allowed isPair keys s e) (h : Logins.sys.step s e = some s') : Throttled isPair keys s' := by
  cases e with
  | tick now =>
    obtain ⟨hle, h⟩ := Option.ite_none_right_eq_some.mp h
    cases h
    exact ⟨hs.clock.trans hle, hs.tracked, hs.attempts,
      ⟨fun key hp => (hs.entries.pairs key hp).tick hle, hs.entries.ips⟩⟩
  | reserve pairKey ipKey order =>
    cases h
    exact reserve_throttled hfew hs hok order
  | settle i how =>
    obtain ⟨a, ha, rfl⟩ := Option.map_eq_some_iff.mp h
    exact settle_throttled hs ha how

theorem reach_throttled (hfew : keys.length < maxTrackedKeys)
    (h : Sys.Reach Logins.sys (Allowed isPair keys) s) : Throttled isPair keys s := by
  refine Sys.Reach.inv ?_ (fun _ _ _ hs hok hstep => step_throttled hfew hs hok hstep) h
  rintro _ ⟨now, hz, rfl⟩
  refine ⟨hz, fun k hk => (List.not_mem_nil hk).elim, fun a ha => (List.not_mem_nil ha).elim,
    ⟨fun key _ => ?_, fun key _ => rfl⟩⟩
  exact ⟨rfl, Nat.zero_le 1, fun hl => absurd hl (Int.not_lt.mpr hz), fun _ => rfl,
    fun _ ht => (List.not_mem_nil ht).elim, fun _ _ hf => by cases hf⟩

/-! ## Refusals -/

/-- A pair without failures and without an outstanding attempt is not refused. -/
theorem not_refused (hfew : keys.length < maxTrackedKeys) (hs : Throttled isPair keys s)
    (hok : KeysOk isPair keys pairKey ipKey) (hclean : s.fails pairKey = [])
    (hout : pairOut s.attempts pairKey = 0) (order : List String) :
    (s.throttle.reserve s.now order pairKey ipKey).2 = none := by
  have hpair := (hs.entries.freshen hs.clock hs.tracked hfew hok.pair order).pairs _ hok.pair
  have hzero := hpair.clean hclean
  have hres := reserve_reserved s.throttle s.now order pairKey ipKey
  generalize s.throttle.reserve s.now order pairKey ipKey = r at hres ⊢
  cases hres with
  | locked hl =>
    have := hpair.locked hl
    omega
  | busy hb =>
    rw [hpair.inFlight, hout] at hb
    exact absurd hb (Nat.lt_irrefl 0)
  | busyIP hne hf =>
    have hkeys : ipKey ≠ pairKey := by
      rintro rfl
      have := hok.ip hne
      rw [hok.pair] at this
      cases this
    rw [entry_modify_ne _ hkeys, hzero] at hf
    exact absurd hf (Nat.lt_irrefl 0)
  | pair => rfl
  | both => rfl

/-- The pair waits for its newest failure. -/
structure LockedOut (key : String) (s : Logins) : Prop where
  close : Close (s.fails key)
  many : freeAttempts ≤ (s.fails key).length
  recent : ∀ t ∈ (s.fails key).head?, s.now < t + lockout (s.fails key).length

theorem refused_of_lockedOut (hfew : keys.length < maxTrackedKeys) (hs : Throttled isPair keys s)
    (hp : isPair pairKey = true) (hl : LockedOut pairKey s) (order : List String) :
    (s.throttle.reserve s.now order pairKey ipKey).2 ≠ none := by
  have hpair := (hs.entries.freshen hs.clock hs.tracked hfew hp order).pairs _ hp
  obtain ⟨hclose, hmany, hrecent⟩ := hl
  rcases hf : s.fails pairKey with _ | ⟨t, rest⟩
  · rw [hf] at hmany
    cases hmany
  · rw [hf, List.length_cons] at hmany hrecent
    have hnow := hrecent t rfl
    have hmem := hpair.remembers t rest hf hclose (by have := lockout_lt (rest.length + 1); omega)
    have huntil := hmem.locked hmany
    have hres := reserve_reserved s.throttle s.now order pairKey ipKey
    generalize s.throttle.reserve s.now order pairKey ipKey = r at hres ⊢
    cases hres with
    | locked => exact fun h => by cases h
    | busy => exact fun h => by cases h
    | busyIP => exact fun h => by cases h
    | pair hle => omega
    | both hle => omega

/-- The attempts of the pair so far. -/
def reserved (s : Logins) (key : String) : Nat := s.attempts.countP (·.pairKey = key)

/-- Nothing happens to the pair: no attempt is reserved or outstanding. -/
structure Quiet (key : String) (fails : List Int) (n : Nat) (s : Logins) : Prop where
  fails : s.fails key = fails
  out : pairOut s.attempts key = 0
  reserved : reserved s key = n

theorem step_clock (h : Logins.sys.step s e = some s') : s.now ≤ s'.now := by
  cases e with
  | tick now =>
    obtain ⟨hle, h⟩ := Option.ite_none_right_eq_some.mp h
    cases h
    exact hle
  | reserve pairKey ipKey order =>
    cases h
    exact le_rfl
  | settle i how =>
    obtain ⟨a, -, rfl⟩ := Option.map_eq_some_iff.mp h
    unfold Logins.settle
    split
    · exact le_rfl
    · cases how <;> exact le_rfl

theorem exec_clock (h : Logins.sys.exec s es = some s') : s.now ≤ s'.now := by
  induction es generalizing s with
  | nil =>
    cases h
    exact le_rfl
  | cons e es ih =>
    obtain ⟨u, hstep, h⟩ := Option.bind_eq_some_iff.mp h
    exact (step_clock hstep).trans (ih h)

theorem settle_quiet {fails : List Int} (hq : Quiet key fails n s) (ha : s.attempts[i]? = some a)
    (how : Settling) : Quiet key fails n (s.settle i a how) := by
  unfold Logins.settle
  cases hsettled : a.settled with
  | true => exact hq
  | false =>
    have hne : key ≠ a.pairKey := by
      rintro rfl
      have hpos : 0 < pairOut s.attempts a.pairKey :=
        List.countP_pos_iff.mpr ⟨a, List.mem_of_getElem? ha, by simp [hsettled]⟩
      have := hq.out
      omega
    have hout : pairOut (s.attempts.modify i fun a => { a with settled := true }) key = 0 := by
      rw [pairOut_settle ha hsettled, Function.update_of_ne hne]
      exact hq.out
    have hreserved : (s.attempts.modify i fun a => { a with settled := true }).countP (·.pairKey = key) = n := by
      rw [← hq.reserved, reserved]
      obtain ⟨pre, post, hcs, rfl, hmod⟩ := Lists.exists_of_getElem? ha fun a => { a with settled := true }
      rw [hmod, hcs]
      simp [List.countP_append, List.countP_cons]
    rw [if_neg (by decide)]
    dsimp only
    cases how with
    | succeeded => exact ⟨(Function.update_of_ne hne _ _).trans hq.fails, hout, hreserved⟩
    | failed => exact ⟨(Function.update_of_ne hne _ _).trans hq.fails, hout, hreserved⟩
    | released => exact ⟨hq.fails, hout, hreserved⟩

theorem step_quiet (hfew : keys.length < maxTrackedKeys) (hs : Throttled isPair keys s)
    (hp : isPair key = true) (hl : LockedOut key s) {fails : List Int} (hq : Quiet key fails n s)
    (h : Logins.sys.step s e = some s') : Quiet key fails n s' := by
  cases e with
  | tick now =>
    obtain ⟨-, h⟩ := Option.ite_none_right_eq_some.mp h
    cases h
    exact ⟨hq.fails, hq.out, hq.reserved⟩
  | reserve pairKey ipKey order =>
    cases h
    unfold Logins.reserve
    dsimp only
    by_cases hk : key = pairKey
    · subst hk
      rw [if_neg (refused_of_lockedOut hfew hs hp hl order)]
      exact ⟨hq.fails, hq.out, hq.reserved⟩
    · split
      · refine ⟨hq.fails, ?_, ?_⟩
        · dsimp only
          rw [pairOut_add, Function.update_of_ne hk]
          exact hq.out
        · have hnew := hq.reserved
          unfold reserved at hnew ⊢
          simp [hnew, Ne.symm hk]
      · exact ⟨hq.fails, hq.out, hq.reserved⟩
  | settle i how =>
    obtain ⟨a, ha, rfl⟩ := Option.map_eq_some_iff.mp h
    exact settle_quiet hq ha how

/-- No attempt of a locked pair is reserved before its lockout ends. -/
theorem exec_quiet (hfew : keys.length < maxTrackedKeys) (hs : Throttled isPair keys s)
    (hp : isPair key = true) {t : Int} {rest : List Int} (hq : Quiet key (t :: rest) n s)
    (hclose : Close (t :: rest)) (hmany : freeAttempts ≤ rest.length + 1)
    (halong : Logins.sys.Along (Allowed isPair keys) s es) (h : Logins.sys.exec s es = some s')
    (hend : s'.now < t + lockout (rest.length + 1)) : Quiet key (t :: rest) n s' := by
  induction es generalizing s with
  | nil =>
    cases h
    exact hq
  | cons e es ih =>
    obtain ⟨u, hstep, hexec⟩ := Option.bind_eq_some_iff.mp h
    obtain ⟨hok, halong⟩ := halong
    have hnow : s.now < t + lockout (rest.length + 1) :=
      ((step_clock hstep).trans (exec_clock hexec)).trans_lt hend
    have hl : LockedOut key s := by
      refine ⟨by rw [hq.fails]; exact hclose, by rw [hq.fails]; exact hmany, ?_⟩
      rw [hq.fails]
      intro v hv
      cases hv
      exact hnow
    exact ih (step_throttled hfew hs hok hstep) (step_quiet hfew hs hp hl hq hstep) (halong u hstep) hexec

theorem failed_quiet (hs : Throttled isPair keys s) (ha : s.attempts[i]? = some a)
    (hsettled : a.settled = false) :
    Quiet a.pairKey (s.now :: s.fails a.pairKey) (reserved (s.settle i a .failed) a.pairKey)
      (s.settle i a .failed) := by
  have hone := (hs.entries.pairs _ (hs.attempts a (List.mem_of_getElem? ha)).pair).one
  refine ⟨?_, ?_, rfl⟩
  · unfold Logins.settle
    rw [if_neg (by rw [hsettled]; decide)]
    exact Function.update_self ..
  · have hattempts : (s.settle i a .failed).attempts = s.attempts.modify i fun a => { a with settled := true } := by
      unfold Logins.settle
      rw [if_neg (by rw [hsettled]; decide)]
    rw [hattempts, pairOut_settle ha hsettled, Function.update_self]
    omega

/-- **Login throttling counts correctly**, with disjoint keys of pairs and IPs and fewer than
`maxTrackedKeys` of them: a pair has at most one outstanding attempt, every counter counts the
outstanding attempts of its key, the `k`-th failure of a pair locks it for its lockout, and a pair
without failures and without an outstanding attempt is never refused. -/
theorem login_throttled (hfew : keys.length < maxTrackedKeys)
    (h : Sys.Reach Logins.sys (Allowed isPair keys) s) :
    (∀ key, isPair key = true → pairOut s.attempts key ≤ 1) ∧
      (∀ key, (s.throttle.entry key).inFlight =
        if isPair key = true then pairOut s.attempts key else ipOut s.attempts key) ∧
      (∀ i a s₁, s.attempts[i]? = some a → a.settled = false →
        Logins.sys.step s (.settle i .failed) = some s₁ → Close (s₁.fails a.pairKey) →
        freeAttempts ≤ (s₁.fails a.pairKey).length →
        ∀ es s', Logins.sys.Along (Allowed isPair keys) s₁ es → Logins.sys.exec s₁ es = some s' →
          s'.now < s.now +
            min (lockoutBase * 2 ^ ((s₁.fails a.pairKey).length - freeAttempts)) maxLockout →
          reserved s' a.pairKey = reserved s₁ a.pairKey) ∧
      ∀ pairKey ipKey order, KeysOk isPair keys pairKey ipKey → s.fails pairKey = [] →
        pairOut s.attempts pairKey = 0 → (s.throttle.reserve s.now order pairKey ipKey).2 = none := by
  have hs := reach_throttled hfew h
  refine ⟨fun key hp => (hs.entries.pairs key hp).one, fun key => ?_, ?_, ?_⟩
  · by_cases hp : isPair key = true
    · rw [if_pos hp]
      exact (hs.entries.pairs key hp).inFlight
    · rw [if_neg hp]
      exact hs.entries.ips key (by simpa using hp)
  · intro i a s₁ ha hsettled hstep hclose hmany es s' halong hexec hend
    obtain ⟨b, hb, rfl⟩ := Option.map_eq_some_iff.mp hstep
    have hab : b = a := Option.some.inj (hb.symm.trans ha)
    subst hab
    have hq := failed_quiet hs ha hsettled
    rw [hq.fails] at hclose hmany hend
    have hp := (hs.attempts b (List.mem_of_getElem? ha)).pair
    exact (exec_quiet hfew (settle_throttled hs ha .failed) hp hq hclose hmany halong hexec hend).reserved
  · intro pairKey ipKey order hok hclean hout
    exact not_refused hfew hs hok hclean hout order

/-- Four failures of a pair and a fifth attempt. -/
def fiveAttempts : List LoginEvent :=
  [.reserve "pair" "" [], .settle 0 .failed, .reserve "pair" "" [], .settle 1 .failed, .reserve "pair" "" [],
    .settle 2 .failed, .reserve "pair" "" [], .settle 3 .failed, .reserve "pair" "" []]

/-- Half a minute passes, and the pair tries again. -/
def sixthAttempt : List LoginEvent := [.tick (29 * Go.second), .reserve "pair" "" []]

/-- Attempts of one pair, without an IP. -/
def ofPair : LoginEvent → Bool
  | .reserve pairKey ipKey _ => pairKey = "pair" && ipKey = ""
  | _ => true

theorem along_pair (h : es.all ofPair = true) (s : Logins) :
    Logins.sys.Along (Allowed (fun _ => true) ["pair"]) s es := by
  refine Sys.along_of_all (fun e he t => ?_) s
  have hpair := List.all_eq_true.mp h e he
  cases e with
  | reserve pairKey ipKey order =>
    obtain ⟨rfl, rfl⟩ : pairKey = "pair" ∧ ipKey = "" := by simpa [ofPair] using hpair
    exact ⟨rfl, List.mem_singleton_self _, fun h => absurd rfl h, fun h => absurd rfl h⟩
  | _ => trivial

/-- The state before the fifth failure, after it, and after the sixth attempt. -/
def fifthTest (s : Logins) : Bool :=
  decide (s.attempts[4]? = some ⟨"pair", "", false⟩ ∧ s.now = 0) &&
    (Logins.sys.step s (.settle 4 .failed)).any fun s₁ : Logins =>
      decide (s₁.fails "pair" = [0, 0, 0, 0, 0] ∧ reserved s₁ "pair" = 5) &&
        (Logins.sys.exec s₁ sixthAttempt).any fun s' : Logins => decide (s'.now = 29 * Go.second)

/-- The fifth failure locks the pair. -/
theorem login_throttled_fifth : ∃ s s₁ s', Logins.sys.exec { now := 0 } fiveAttempts = some s ∧
    Logins.sys.step s (.settle 4 .failed) = some s₁ ∧ Logins.sys.exec s₁ sixthAttempt = some s' ∧
    reserved s₁ "pair" = 5 ∧ reserved s' "pair" = 5 := by
  obtain ⟨s, hs, htest⟩ := Sys.exists_exec (M := Logins.sys) { now := 0 } fiveAttempts fifthTest
    (by decide +kernel)
  obtain ⟨hat, htest⟩ := Bool.and_eq_true_iff.mp htest
  obtain ⟨s₁, hstep, htest⟩ := (Option.any_eq_true _ _).mp htest
  obtain ⟨hfails, htest⟩ := Bool.and_eq_true_iff.mp htest
  obtain ⟨s', hexec, hend⟩ := (Option.any_eq_true _ _).mp htest
  obtain ⟨hattempt, hnow⟩ := of_decide_eq_true hat
  obtain ⟨hfails, hfive⟩ := of_decide_eq_true hfails
  have hend := of_decide_eq_true hend
  have hreach : Sys.Reach Logins.sys (Allowed (fun _ => true) ["pair"]) s :=
    Sys.reach_of_exec (.init ⟨0, by decide, rfl⟩) (along_pair (by decide) _) hs
  have hlocked := (login_throttled (by decide) hreach).2.2.1 4 _ s₁ hattempt rfl hstep
    (by rw [hfails]; unfold Close; decide) (by rw [hfails]; decide) sixthAttempt s' (along_pair (by decide) _) hexec
    (by rw [hfails, hend, hnow]; decide)
  exact ⟨s, s₁, s', hs, hstep, hexec, hfive, hlocked.trans hfive⟩

end Runs

end MongoRescue.Auth.Proof
