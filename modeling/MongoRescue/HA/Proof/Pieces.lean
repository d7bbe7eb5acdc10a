import MongoRescue.HA.Cluster

/-!
# What the pieces of the lease operations do

One lemma for each piece of an operation of the manager, with everything that decides who may hold
the lease: the role, the held lease with its version and the moment it was sent, the lease it
replaced, and the observed version with the moment it was observed and the highest epoch seen.
`Same m m'`: the two managers agree on these.
-/

namespace MongoRescue.HA.Proof

open Go (Bytes)
open Manager (Acquire Acquisition Renewal)

/-! ## Timing -/

theorem validate_ok {c : Config} (h : c.validate = .ok ()) : c.instanceID ≠ "" ∧
    validateCluster c.cluster = .ok () ∧ validateTiming c.ttl c.renew = .ok () := by
  revert h
  fun_cases Config.validate c <;> simp_all

theorem validate_timing {c : Config} (h : c.validate = .ok ()) :
    c.instanceID ≠ "" ∧ minTTL ≤ c.ttl ∧ c.ttl ≤ maxTTL ∧ minRenew ≤ c.renew := by
  obtain ⟨hid, -, ht⟩ := validate_ok h
  revert ht
  fun_cases validateTiming c.ttl c.renew <;> intro ht <;> cases ht
  exact ⟨hid, by omega, by omega, by omega⟩

/-- The TTL a lease names, in whole seconds, is longer than its holder's claim on it. -/
theorem hold_le_ttl {c : Config} (h : c.validate = .ok ()) {l : Lease}
    (hl : l.ttlSeconds = c.ttl.tdiv Go.second) : c.ttl - c.renew ≤ l.ttl := by
  obtain ⟨_, h1, h2, h3⟩ := validate_timing h
  have hd : c.ttl.tdiv Go.second = c.ttl / Go.second :=
    Int.tdiv_eq_ediv_of_nonneg (by unfold minTTL Go.second at h1; omega)
  unfold Lease.ttl
  rw [hl, hd]
  unfold minTTL maxTTL minRenew Go.second at *
  rw [Go.wrap64_of_bounds (by unfold Go.minInt64; omega) (by unfold Go.maxInt64; omega)]
  omega

/-! ## The manager's part of the protocol -/

/-- The managers agree on the held and the observed lease. -/
structure Same (m m' : Manager) : Prop where
  cfg : m'.cfg = m.cfg
  role : m'.role = m.role
  cluster : m'.lease.cluster = m.lease.cluster
  holder : m'.lease.holder = m.lease.holder
  epoch : m'.lease.epoch = m.lease.epoch
  ttlSeconds : m'.lease.ttlSeconds = m.lease.ttlSeconds
  version : m'.version = m.version
  sentAt : m'.sentAt = m.sentAt
  pred : m'.pred = m.pred
  seenVersion : m'.seenVersion = m.seenVersion
  seenAt : m'.seenAt = m.seenAt
  seenEpoch : m'.seenEpoch = m.seenEpoch
  seenMark : m'.seenMark = m.seenMark

theorem Same.refl (m : Manager) : Same m m := by constructor <;> rfl

/-- `m'` gave the lease of `m` up: it observes what it last wrote. -/
structure Stepped (m m' : Manager) : Prop where
  was : m.role = .active
  cfg : m'.cfg = m.cfg
  role : m'.role = .standby
  seenVersion : m'.seenVersion = m.version
  seenAt : m'.seenAt = m.sentAt
  seenEpoch : m'.seenEpoch = m.seenEpoch
  seenMark : m'.seenMark = m.seenMark

/-- `m'` holds the lease `next`, sent at `sent`, under the version `v`. -/
structure Holds (m m' : Manager) (next : Lease) (v : Version) (sent : Int) : Prop where
  cfg : m'.cfg = m.cfg
  lease : m'.lease = next
  version : m'.version = some v
  sentAt : m'.sentAt = sent
  seenMark : m'.seenMark = m.seenMark

theorem recordError_same (m : Manager) (e : LeaseErr) : Same m (m.recordError e) := by
  constructor <;> rfl

/-- Stepping down, also after changes that leave the protocol's part alone. -/
theorem stepDown_spec {m m' : Manager} (h : Same m m') (b : Bool) (t : Int) :
    Same m (m'.stepDown b t) ∨ Stepped m (m'.stepDown b t) := by
  unfold Manager.stepDown
  split
  · exact .inl h
  · rename_i hr
    exact .inr ⟨h.role.symm.trans (not_not.mp hr), h.cfg, rfl, h.version, h.sentAt,
      h.seenEpoch, h.seenMark⟩

section
variable (hmac : Bytes → String → Bytes) (m : Manager)

theorem noteAuthentic_eq (l : Lease) : ∃ b, m.noteAuthentic hmac l = { m with noted := b } := by
  unfold Manager.noteAuthentic
  split
  · exact ⟨_, rfl⟩
  · split <;> exact ⟨_, rfl⟩

theorem noteAuthentic_same (l : Lease) : Same m (m.noteAuthentic hmac l) := by
  obtain ⟨b, hb⟩ := noteAuthentic_eq hmac m l
  rw [hb]
  constructor <;> rfl

variable {hmac}

theorem encode_spec {m : Manager} {l : Lease} {s : Bool} {c : Content}
    (h : m.encode hmac l s = some c) : ∃ mac, c = .json { l with mac := mac } := by
  unfold Manager.encode at h
  split at h
  · exact ⟨_, Lease.encode_eq_some h⟩
  · exact ⟨_, Lease.encode_eq_some h⟩

/-! ## Renewing -/

variable (hmac) in
theorem renewSend_spec (c : Clocks) :
    (∃ m', m.renewSend hmac c = (m', none) ∧ (Same m m' ∨ Stepped m m')) ∨
    ∃ r mac, m.renewSend hmac c = (m, some (r, .json { r.next with mac := mac })) ∧
      r.now = c.now ∧ r.next.cluster = m.lease.cluster ∧ r.next.holder = m.lease.holder ∧
      r.next.epoch = m.lease.epoch ∧ r.next.ttlSeconds = m.lease.ttlSeconds := by
  unfold Manager.renewSend
  split
  · exact .inl ⟨_, rfl, stepDown_spec (.refl m) _ _⟩
  · dsimp only
    split
    · exact .inl ⟨_, rfl, .inl (recordError_same _ _)⟩
    · rename_i data hd
      obtain ⟨mac, rfl⟩ := encode_spec hd
      exact .inr ⟨_, mac, rfl, rfl, rfl, rfl, rfl, rfl⟩

theorem renewAnswer_spec (r : Renewal) (ans : WriteAnswer) (c : Clocks) :
    (∃ v, ans = .ok v ∧ Holds m (m.renewAnswer r ans c) r.next v r.now ∧
      (m.renewAnswer r ans c).role = m.role ∧ (m.renewAnswer r ans c).pred = m.pred ∧
      (m.renewAnswer r ans c).seenVersion = m.seenVersion ∧
      (m.renewAnswer r ans c).seenAt = m.seenAt ∧
      (m.renewAnswer r ans c).seenEpoch = m.seenEpoch) ∨
    Same m (m.renewAnswer r ans c) ∨ Stepped m (m.renewAnswer r ans c) := by
  cases ans with
  | ok v => exact .inl ⟨v, rfl, ⟨rfl, rfl, rfl, rfl, rfl⟩, rfl, rfl, rfl, rfl, rfl⟩
  | preconditionFailed => exact .inr (stepDown_spec (recordError_same m _) _ _)
  | failed =>
    refine .inr ?_
    unfold Manager.renewAnswer
    dsimp only
    split
    · refine stepDown_spec ?_ _ _
      constructor <;> rfl
    · exact .inl (by constructor <;> rfl)

theorem afterRenew_same (after : After) (c : Clocks) : Same m (afterRenew hmac m after c) := by
  unfold afterRenew
  split
  · exact .refl m
  · split
    · rename_i held m' h
      unfold Manager.confirmEnd at h
      split at h
      · cases h
      · cases h
        exact .refl m
      · cases h
        exact noteAuthentic_same _ _ _
    · exact .refl m

theorem confirmBegin_spec {m m' : Manager} {mark : SnapshotMark}
    (h : m.confirmBegin mark = .ok m') : m'.role = .active ∧ Same m m' := by
  unfold Manager.confirmBegin at h
  split at h
  · cases h
  · rename_i hr
    cases h
    exact ⟨not_not.mp hr, by constructor <;> rfl⟩

theorem recordBegin_spec {m m' : Manager} {mark : SnapshotMark}
    (h : m.recordBegin mark = some m') : m'.role = .active ∧ Same m m' := by
  unfold Manager.recordBegin at h
  split at h
  · cases h
  · rename_i hr
    cases h
    exact ⟨not_not.mp fun hne => hr (.inl hne), by constructor <;> rfl⟩

/-! ## Observing and acquiring -/

variable (hmac) in
/-- `m'` observed the lease `data` under version `v` at `now`. -/
structure Observed (m m' : Manager) (data : Content) (v : Version) (now : Int) : Prop where
  cfg : m'.cfg = m.cfg
  role : m'.role = m.role
  lease : m'.lease = m.lease
  version : m'.version = m.version
  sentAt : m'.sentAt = m.sentAt
  pred : m'.pred = m.pred
  seen : (m'.seenVersion = m.seenVersion ∧ m'.seenAt = m.seenAt) ∨
    (m'.seenVersion = some v ∧ m'.seenAt = now)
  seenEpoch : m'.seenEpoch = m.seenEpoch ∨
    ∃ l, decodeLease data = some l ∧ m'.seenEpoch = l.epoch
  /-- An authentic lease raises the mark, unless it names another key. -/
  seenMark : (decodeLease data = none ∧ m'.seenMark = m.seenMark) ∨
    ∃ l, decodeLease data = some l ∧ m'.seenMark =
      if m.authentic hmac l ∧ ¬ (l.keyID ≠ "" ∧ m.cfg.keyID ≠ "" ∧ l.keyID ≠ m.cfg.keyID)
      then laterMark m.seenMark l.snapshotMark else m.seenMark

variable (hmac) in
/-- `observe` after the read of a lease `data` under `version`: unless the keys differ, the version
is observed since now or for as long as before; the lease is acquired when it was observed for a
TTL, or names no holder. -/
theorem observeFound_spec (data : Content) (version : Version) (now : Int) :
    ∃ m' acq, m.observeFound hmac data version now = (m', acq) ∧ Observed hmac m m' data version now ∧
      ∀ a, acq = some a → a.prev = some (data, version) ∧ m'.seenVersion = some version ∧
        a.epoch = m'.seenEpoch + 1 ∧ (∀ l, decodeLease data = some l → l.epoch ≤ m'.seenEpoch) ∧
        ((∃ l, decodeLease data = some l ∧ l.holder = "") ∨
          Go.timeSub now m'.seenAt ≥ max m.cfg.ttl ((decodeLease data).getD {}).ttl) := by
  unfold Manager.observeFound
  extract_lets m1 lease m2 m3 m4 m5 cooling released expired
  have h1 : ∃ b e, m1 = { m with noted := b, healthy := true, lastErr := e } := by
    simp only [m1]
    split
    · obtain ⟨b, hb⟩ := noteAuthentic_eq hmac m ‹_›
      exact ⟨b, _, by rw [hb]⟩
    · exact ⟨_, _, rfl⟩
  obtain ⟨b, e, h1⟩ := h1
  split
  · rename_i hkey
    rw [h1] at hkey ⊢
    refine ⟨_, _, rfl, ⟨rfl, rfl, rfl, rfl, rfl, rfl, .inl ⟨rfl, rfl⟩, .inl rfl, ?_⟩,
      fun a ha => by cases ha⟩
    rcases hd : decodeLease data with _ | l
    · exact .inl ⟨rfl, rfl⟩
    · simp only [lease, hd, Option.getD_some] at hkey
      exact .inr ⟨l, rfl, (if_neg fun hn => hn.2 hkey).symm⟩
  rename_i hkey
  have h3 : ∃ k, m3 =
      { m with noted := b, healthy := true, lastErr := e, keyMismatch := false, seenMark := k } ∧
      ((decodeLease data = none ∧ k = m.seenMark) ∨ ∃ l, decodeLease data = some l ∧ k =
        if m.authentic hmac l ∧ ¬ (l.keyID ≠ "" ∧ m.cfg.keyID ≠ "" ∧ l.keyID ≠ m.cfg.keyID)
        then laterMark m.seenMark l.snapshotMark else m.seenMark) := by
    rw [h1] at hkey
    rcases hd : decodeLease data with _ | l
    · refine ⟨m.seenMark, ?_, .inl ⟨rfl, rfl⟩⟩
      simp only [m3, m2, h1, hd]
      rfl
    · simp only [lease, hd, Option.getD_some] at hkey
      refine ⟨_, ?_, .inr ⟨l, rfl, rfl⟩⟩
      simp only [m3, m2, h1, lease, hd, Option.getD_some, Option.isSome_some, Bool.true_and,
        hkey, not_false_eq_true, and_true]
      rw [show Manager.authentic hmac { m with
        noted := b, healthy := true, lastErr := e, keyMismatch := false } l =
          m.authentic hmac l from rfl]
      split <;> rfl
  obtain ⟨k, h3, hk⟩ := h3
  -- the version is new, or was observed before
  have h4 : ∃ s t, m4 = { m3 with seen := s, seenVersion := some version, seenAt := t } ∧
      (t = m.seenAt ∧ m.seenVersion = some version ∨ t = now) := by
    simp only [m4]
    split
    · exact ⟨_, _, rfl, .inr rfl⟩
    · rename_i hv
      have hv : m.seenVersion = some version := by
        rw [h3] at hv
        exact (not_not.mp hv).symm
      refine ⟨m3.seen, m3.seenAt, ?_, .inl ⟨by rw [h3], hv⟩⟩
      rw [h3, ← hv]
  obtain ⟨s, t, h4, ht⟩ := h4
  have h5 : ∃ x, m5 = { m4 with seenEpoch := x } ∧ lease.epoch ≤ x ∧
      (x = m.seenEpoch ∨ ∃ l, decodeLease data = some l ∧ x = l.epoch) := by
    simp only [m5]
    split
    · refine ⟨_, rfl, UInt64.le_refl _, ?_⟩
      rename_i hgt
      rcases hd : decodeLease data with _ | l
      · simp [lease, hd, h4, h3] at hgt
      · exact .inr ⟨l, rfl, by simp [lease, hd]⟩
    · rename_i hle
      exact ⟨m4.seenEpoch, rfl, UInt64.not_lt.mp hle, .inl (by rw [h4, h3])⟩
  obtain ⟨x, h5, hx, hxor⟩ := h5
  have hobs : Observed hmac m m5 data version now := by
    rw [h5, h4, h3]
    exact ⟨rfl, rfl, rfl, rfl, rfl, rfl, ht.imp (fun h => ⟨h.2.symm, h.1⟩) (fun h => ⟨rfl, h⟩),
      hxor, hk⟩
  split
  · exact ⟨_, _, rfl, hobs, fun a ha => by cases ha⟩
  rename_i hexp
  refine ⟨_, _, rfl, hobs, fun a ha => ?_⟩
  cases ha
  refine ⟨rfl, by rw [h5, h4], rfl, fun l hl => ?_, ?_⟩
  · simpa [lease, hl, h5] using hx
  · simp only [Bool.or_eq_true, Bool.not_eq_true', not_or, Bool.not_eq_false] at hexp
    have he : released = true ∨ decide (Go.timeSub now m5.seenAt ≥ max m5.cfg.ttl lease.ttl) :=
      by simpa only [expired, Bool.or_eq_true] using hexp.2
    rcases he with hr | hd
    · refine .inl ?_
      simp only [released, lease, Bool.and_eq_true, Option.isSome_iff_exists] at hr
      obtain ⟨⟨l, hl⟩, hh⟩ := hr
      refine ⟨l, hl, ?_⟩
      simpa [hl, Lease.released] using hh
    · refine .inr ?_
      rw [← hobs.cfg]
      simpa using hd

variable (hmac) in
/-- The acquisition that `acquire` sends under the epoch `x` to replace what `a` read. -/
structure Acquires (m : Manager) (a : Acquire) (x : UInt64) (c : Clocks) (acq : Acquisition) :
    Prop where
  sent : acq.sent = c.now
  epoch : acq.epoch = x
  pred : acq.pred = m.assess hmac (a.prev.map (·.1))
  nextCluster : acq.next.cluster = m.cfg.cluster
  nextHolder : acq.next.holder = m.cfg.instanceID
  nextEpoch : acq.next.epoch = x
  nextTTL : acq.next.ttlSeconds = m.cfg.ttl.tdiv Go.second

/-- The epoch under which `acquire` writes, raised above the floor. -/
def raised (epoch : UInt64) : FloorAnswer → UInt64
  | .ok f => max epoch (f + 1)
  | _ => epoch

variable (hmac) in
theorem acquireSend_spec (a : Acquire) (floor : FloorAnswer) (c : Clocks) :
    (∃ m', m.acquireSend hmac a floor c = (m', none) ∧ Same m m') ∨
    ∃ acq mac, m.acquireSend hmac a floor c = (m, some (acq, .json { acq.next with mac := mac })) ∧
      Acquires hmac m a (raised a.epoch floor) c acq := by
  have hsend : ∀ e, (∃ m', m.acquireWrite hmac a e c = (m', none) ∧ Same m m') ∨
      ∃ acq mac, m.acquireWrite hmac a e c = (m, some (acq, .json { acq.next with mac := mac })) ∧
        Acquires hmac m a e c acq := by
    intro e
    unfold Manager.acquireWrite
    dsimp only
    split
    · exact .inl ⟨_, rfl, recordError_same _ _⟩
    · rename_i data hd
      obtain ⟨mac, rfl⟩ := encode_spec hd
      exact .inr ⟨_, mac, rfl, rfl, rfl, rfl, rfl, rfl, rfl, rfl⟩
  cases floor with
  | unset => exact hsend _
  | failed => exact .inl ⟨_, rfl, recordError_same _ _⟩
  | ok f => exact hsend _

variable (hmac) in
theorem acquireAnswer_spec (a : Acquisition) (ans : WriteAnswer) :
    (∃ v, ans = .ok v ∧ Holds m (m.acquireAnswer hmac a ans) a.next v a.sent ∧
      (m.acquireAnswer hmac a ans).pred = a.pred ∧
      (m.acquireAnswer hmac a ans).seenVersion = some v ∧
      (m.acquireAnswer hmac a ans).seenEpoch = a.epoch) ∨
    Same m (m.acquireAnswer hmac a ans) := by
  cases ans with
  | preconditionFailed => exact .inr (.refl m)
  | failed => exact .inr (recordError_same _ _)
  | ok v =>
    refine .inl ⟨v, rfl, ?_⟩
    unfold Manager.acquireAnswer
    dsimp only
    split
    · rw [(noteAuthentic_eq hmac _ _).choose_spec]
      exact ⟨⟨rfl, rfl, rfl, rfl, rfl⟩, rfl, rfl, rfl⟩
    · exact ⟨⟨rfl, rfl, rfl, rfl, rfl⟩, rfl, rfl, rfl⟩

/-! ## Releasing -/

theorem releaseSend_spec {m : Manager} {c : Clocks} {next : Lease} {data : Content}
    (h : m.releaseSend hmac c = some (next, data)) :
    ∃ mac, data = .json { next with mac := mac } ∧ m.role = .active ∧
      next.cluster = m.lease.cluster ∧ next.holder = "" ∧ next.epoch = m.lease.epoch ∧
      next.ttlSeconds = m.lease.ttlSeconds := by
  unfold Manager.releaseSend at h
  split at h
  · cases h
  · rename_i hr
    simp only [Option.map_eq_some_iff, Prod.mk.injEq] at h
    obtain ⟨d, hd, rfl, rfl⟩ := h
    obtain ⟨mac, rfl⟩ := encode_spec hd
    exact ⟨mac, rfl, not_not.mp hr, rfl, rfl, rfl, rfl⟩

/-- A release that its store answered leaves the role: with success, the released lease is held as
if it had been renewed at this moment. -/
theorem releaseAnswer_spec (next : Lease) (ans : WriteAnswer) (c : Clocks) :
    (∃ v, ans = .ok v ∧ m.releaseAnswer next ans c = { m with
      lease := next, version := some v, sentAt := c.now, sentWall := c.wall }) ∨
    Same m (m.releaseAnswer next ans c) := by
  cases ans with
  | ok v => exact .inl ⟨v, rfl, rfl⟩
  | preconditionFailed => exact .inr (recordError_same _ _)
  | failed => exact .inr (recordError_same _ _)

end

end MongoRescue.HA.Proof
