import MongoRescue.Scheduler.Retention
import MongoRescue.Lib.Stable
import Mathlib.Algebra.BigOperators.Group.List.Lemmas

/-!
# Retention plans respect the floors

`newer` orders the considered backups of a database: by start time, equal ones in the order of the list.
`planDatabase` sorts by it (`newestFirst_pairwise`), so the number of backups that are newer says whether
one is beyond the floor (`mem_beyondFloor`). With that, `mem_delete_iff` says exactly what a plan deletes,
and every part of the theorem is read off it; planning again only makes fewer backups newer.
-/

namespace MongoRescue.Scheduler.Proof

open Backup (Record)

/-! ## The order of a database's backups -/

section
variable (records : List Record)

/-- Where the record stands in the list. -/
def position (r : Record) : Nat := (records.map (·.id)).idxOf r.id

/-- `x` started after `r`, or together with it and stands before it in the list. -/
def newer (x r : Record) : Bool :=
  r.startedAt < x.startedAt || (x.startedAt = r.startedAt && position records x < position records r)

/-- The considered backups of the database of `r` that are newer. -/
def ahead (r : Record) : List Record := (ofDatabase records r.database).filter (newer records · r)

/-- `r` is the newest considered backup of its database that passed verification. -/
def NewestVerified (r : Record) : Prop :=
  r.verification = .ok ∧ ∀ x ∈ ahead records r, x.verification ≠ .ok

variable {records} {r : Record} {name : String}

theorem newer_asymm (a b : Record) (h : newer records a b = true) : newer records b a = false := by
  simp only [newer, Bool.or_eq_true, decide_eq_true_eq, Bool.and_eq_true] at h
  simp only [newer, Bool.or_eq_false_iff, decide_eq_false_iff_not, Bool.and_eq_false_iff]
  omega

/-- Records with distinct IDs stand one after the other. -/
theorem pairwise_position (hid : (records.map (·.id)).Nodup) :
    records.Pairwise fun x y => position records x < position records y := by
  have hpos : ∀ i (hi : i < records.length), position records records[i] = i := by
    intro i hi
    have h := hid.idxOf_getElem i (by simpa using hi)
    simpa [position] using h
  refine List.pairwise_iff_getElem.mpr fun i j hi hj hij => ?_
  rw [hpos i hi, hpos j hj]
  exact hij

instance : Std.Total fun a b : Record => b.startedAt ≤ a.startedAt := ⟨fun _ _ => le_total _ _⟩

instance : IsTrans Record fun a b => b.startedAt ≤ a.startedAt := ⟨fun _ _ _ h h' => le_trans h' h⟩

/-- **`planDatabase` sorts newest first.** -/
theorem newestFirst_pairwise (hid : (records.map (·.id)).Nodup) (name : String) :
    (newestFirst (ofDatabase records name)).Pairwise fun x y => newer records x y = true := by
  have h := (pairwise_position hid).sublist (List.filter_sublist (p := fun r =>
    considers r && r.database = name))
  refine (Stable.insertionSort_stable (r := fun a b : Record => b.startedAt ≤ a.startedAt) h).imp
    fun {x y} hxy => ?_
  simp only [newer, Bool.or_eq_true, decide_eq_true_eq, Bool.and_eq_true]
  rcases hxy.1.lt_or_eq with hlt | heq
  · exact .inl hlt
  · exact .inr ⟨heq.symm, hxy.2 heq.ge⟩

theorem mem_newestFirst {l : List Record} : r ∈ newestFirst l ↔ r ∈ l :=
  List.mem_insertionSort _

theorem mem_ofDatabase :
    r ∈ ofDatabase records name ↔ r ∈ records ∧ considers r = true ∧ r.database = name := by
  simp [ofDatabase]

/-- **Beyond the floor** are the backups with as many newer ones. -/
theorem mem_beyondFloor (hid : (records.map (·.id)).Nodup) (count : Int) :
    r ∈ beyondFloor count (ofDatabase records name) ↔
      r ∈ ofDatabase records name ∧ max count 1 ≤ (ahead records r).length := by
  have hlen : r ∈ ofDatabase records name → ((newestFirst (ofDatabase records name)).filter
      (newer records · r)).length = (ahead records r).length := by
    intro hr
    rw [ahead, (mem_ofDatabase.mp hr).2.2]
    exact ((List.perm_insertionSort _ _).filter _).length_eq
  constructor
  · intro h
    have hr : r ∈ ofDatabase records name := mem_newestFirst.mp (List.mem_of_mem_drop h)
    refine ⟨hr, ?_⟩
    have hk := (Stable.mem_drop_iff newer_asymm (newestFirst_pairwise hid name) _
      (mem_newestFirst.mpr hr)).mp h
    rw [hlen hr] at hk
    omega
  · rintro ⟨hr, hk⟩
    refine (Stable.mem_drop_iff newer_asymm (newestFirst_pairwise hid name) _
      (mem_newestFirst.mpr hr)).mpr ?_
    rw [hlen hr]
    omega

theorem eq_of_id_eq (hid : (records.map (·.id)).Nodup) {x y : Record} (hx : x ∈ records)
    (hy : y ∈ records) (h : x.id = y.id) : x = y :=
  List.inj_on_of_nodup_map hid hx hy h

/-- The ID that `planDatabase` protects is that of the newest verified backup. -/
theorem id_eq_lastVerified (hid : (records.map (·.id)).Nodup) (hne : ∀ r ∈ records, r.id ≠ "")
    (hr : r ∈ ofDatabase records name) :
    r.id = lastVerified (newestFirst (ofDatabase records name)) ↔ NewestVerified records r := by
  obtain ⟨hrec, hcons, hdb⟩ := mem_ofDatabase.mp hr
  have hpair := newestFirst_pairwise hid name
  rcases hf : (newestFirst (ofDatabase records name)).find? (·.verification = .ok) with _ | x
  · have hnone := List.find?_eq_none.mp hf r (mem_newestFirst.mpr hr)
    simp only [lastVerified, hf]
    exact ⟨fun h => absurd h (hne r hrec), fun h => absurd h.1 (by simpa using hnone)⟩
  obtain ⟨hok, pre, post, hl, hpre⟩ := List.find?_eq_some_iff_append.mp hf
  have hx : x ∈ ofDatabase records name := mem_newestFirst.mp (by rw [hl]; simp)
  simp only [lastVerified, hf, Option.map_some, Option.getD_some]
  rw [hl] at hpair
  constructor
  · intro h
    obtain rfl := eq_of_id_eq hid hrec (mem_ofDatabase.mp hx).1 h
    refine ⟨by simpa using hok, fun y hy => ?_⟩
    -- the newer ones stand before it, and none of them passed
    rw [ahead, hdb, List.mem_filter] at hy
    have hy' : y ∈ pre := by
      rw [← Stable.before_eq_filter newer_asymm hpair, ← hl]
      exact List.mem_filter.mpr ⟨mem_newestFirst.mpr hy.1, hy.2⟩
    simpa using hpre y hy'
  · intro h
    have hmem : r ∈ pre ++ x :: post := hl ▸ mem_newestFirst.mpr hr
    rcases List.mem_append.mp hmem with hm | hm
    · exact absurd h.1 (by simpa using hpre r hm)
    · rcases List.mem_cons.mp hm with rfl | hm
      · rfl
      · have hn : newer records x r = true :=
          (List.pairwise_cons.mp (List.pairwise_append.mp hpair).2.1).1 r hm
        refine absurd (by simpa using hok) (h.2 x ?_)
        rw [ahead, hdb]
        exact List.mem_filter.mpr ⟨hx, hn⟩

end

/-! ## What a plan deletes -/

section
variable {now days count : Int} {records : List Record}
  {r : Record} {d : RetentionDecision} {name : String}

theorem select_backup (h : select now days count r = some d) : d.backup = r := by
  unfold select at h
  split at h
  · cases h
    rfl
  · split at h
    · cases h
      rfl
    · cases h

/-- A policy without a positive limit selects nothing. -/
theorem select_positive (h : select now days count r = some d) : ¬(days ≤ 0 ∧ count ≤ 0) := by
  intro hn
  unfold select at h
  rw [if_neg (by omega), if_neg (by omega)] at h
  cases h

theorem deletes_eq_some {verified : String} : deletes now days count verified r = some d ↔
      r.pinned = false ∧ r.id ≠ verified ∧ select now days count r = some d := by
  unfold deletes protection
  cases hp : r.pinned <;> by_cases hv : r.id = verified <;> simp [hv]

theorem mem_databaseNames :
    name ∈ databaseNames records ↔ ∃ r ∈ records, considers r = true ∧ r.database = name := by
  simp [databaseNames, and_assoc]

/-- The plan of a policy with a positive limit. -/
theorem planRetention_pos (h : ¬(days ≤ 0 ∧ count ≤ 0)) : planRetention now days count records =
      { delete := ((databaseNames records).flatMap fun name =>
          (planDatabase now days count (ofDatabase records name)).1).insertionSort
          fun a b => a.backup.startedAt ≤ b.backup.startedAt
        protect := (databaseNames records).flatMap fun name =>
          (planDatabase now days count (ofDatabase records name)).2
        considered := ((databaseNames records).map fun name => (ofDatabase records name).length).sum
        databases := (databaseNames records).map (databaseRetention now days count records) } := by
  rw [planRetention, if_neg h]
  simp only [List.flatMap_map]

/-- **What a plan deletes**: a considered backup beyond the floor that a rule selects, unless it is pinned
or the newest verified one. -/
theorem mem_delete_iff (hid : (records.map (·.id)).Nodup) (hne : ∀ r ∈ records, r.id ≠ "") :
    d ∈ (planRetention now days count records).delete ↔
      d.backup ∈ records ∧ considers d.backup = true ∧ max count 1 ≤ (ahead records d.backup).length ∧
      d.backup.pinned = false ∧ ¬NewestVerified records d.backup ∧
      select now days count d.backup = some d := by
  have hdb : ∀ name, d ∈ (planDatabase now days count (ofDatabase records name)).1 ↔
      d.backup ∈ ofDatabase records name ∧ max count 1 ≤ (ahead records d.backup).length ∧
      d.backup.pinned = false ∧ ¬NewestVerified records d.backup ∧
      select now days count d.backup = some d := by
    intro name
    simp only [planDatabase, List.mem_reverse, List.mem_filterMap, deletes_eq_some]
    constructor
    · rintro ⟨r, hr, hp, hv, hs⟩
      obtain rfl := select_backup hs
      obtain ⟨hr, hk⟩ := (mem_beyondFloor hid count).mp hr
      exact ⟨hr, hk, hp, fun h => hv ((id_eq_lastVerified hid hne hr).mpr h), hs⟩
    · rintro ⟨hr, hk, hp, hv, hs⟩
      exact ⟨d.backup, (mem_beyondFloor hid count).mpr ⟨hr, hk⟩, hp,
        fun h => hv ((id_eq_lastVerified hid hne hr).mp h), hs⟩
  by_cases hpos : days ≤ 0 ∧ count ≤ 0
  · rw [planRetention, if_pos hpos]
    exact ⟨fun h => (by cases h), fun h => absurd hpos (select_positive h.2.2.2.2.2)⟩
  rw [planRetention_pos hpos]
  simp only [List.mem_insertionSort, List.mem_flatMap, hdb, mem_ofDatabase]
  constructor
  · rintro ⟨name, _, ⟨hr, hc, _⟩, h⟩
    exact ⟨hr, hc, h⟩
  · rintro ⟨hr, hc, h⟩
    exact ⟨d.backup.database, mem_databaseNames.mpr ⟨d.backup, hr, hc, rfl⟩, ⟨hr, hc, rfl⟩, h⟩

/-! ## Order and counts -/

instance : Std.Total fun a b : RetentionDecision => a.backup.startedAt ≤ b.backup.startedAt :=
  ⟨fun _ _ => le_total _ _⟩

instance : IsTrans RetentionDecision fun a b => a.backup.startedAt ≤ b.backup.startedAt :=
  ⟨fun _ _ _ => le_trans⟩

theorem delete_oldestFirst : (planRetention now days count records).delete.Pairwise
    fun a b => a.backup.startedAt ≤ b.backup.startedAt := by
  rw [planRetention]
  split
  · exact List.Pairwise.nil
  · exact List.pairwise_insertionSort _ _

theorem databaseNames_nodup : (databaseNames records).Nodup :=
  (List.perm_insertionSort _ _).nodup_iff.mpr (List.nodup_dedup _)

theorem map_backup_filterMap (verified : String) (l : List Record) :
    (l.filterMap (deletes now days count verified)).map (·.backup) =
      l.filter fun r => (deletes now days count verified r).isSome := by
  induction l with
  | nil => rfl
  | cons r l ih =>
    rcases hd : deletes now days count verified r with _ | d
    · rw [List.filterMap_cons_none hd, List.filter_cons_of_neg (by simp [hd]), ih]
    · rw [List.filterMap_cons_some hd, List.filter_cons_of_pos (by simp [hd]), List.map_cons, ih,
        select_backup (deletes_eq_some.mp hd).2.2]

variable (now days count records) in
theorem planDatabase_subperm (name : String) :
    ((planDatabase now days count (ofDatabase records name)).1.map (·.backup)).Subperm
      (ofDatabase records name) := by
  simp only [planDatabase, List.map_reverse]
  rw [map_backup_filterMap]
  exact (List.reverse_perm _).subperm.trans ((List.filter_sublist.trans (List.drop_sublist _ _)).subperm.trans
    (List.perm_insertionSort _ _).subperm)

theorem planDatabase_mem (h : d ∈ (planDatabase now days count (ofDatabase records name)).1) :
    d.backup ∈ ofDatabase records name :=
  (planDatabase_subperm now days count records name).subset (List.mem_map_of_mem h)

theorem planDatabase_ids_nodup (hid : (records.map (·.id)).Nodup) (name : String) :
    ((planDatabase now days count (ofDatabase records name)).1.map (·.backup.id)).Nodup := by
  obtain ⟨l, hl, hsub⟩ := planDatabase_subperm now days count records name
  have hids : (l.map (·.id)).Nodup := hid.sublist ((hsub.trans List.filter_sublist).map _)
  have hperm := (hl.map (·.id)).nodup_iff.mp hids
  rwa [List.map_map] at hperm

/-- No record is listed twice. -/
theorem delete_nodup (hid : (records.map (·.id)).Nodup) :
    ((planRetention now days count records).delete.map (·.backup.id)).Nodup := by
  by_cases hpos : days ≤ 0 ∧ count ≤ 0
  · rw [planRetention, if_pos hpos]
    exact List.nodup_nil
  rw [planRetention_pos hpos]
  refine ((List.perm_insertionSort _ _).map _).nodup_iff.mpr ?_
  rw [List.map_flatMap, List.nodup_flatMap]
  refine ⟨fun name _ => planDatabase_ids_nodup hid name, databaseNames_nodup.imp fun {a b} hab => ?_⟩
  intro id ha hb
  obtain ⟨x, hx, rfl⟩ := List.mem_map.mp ha
  obtain ⟨y, hy, hxy⟩ := List.mem_map.mp hb
  -- records of two databases are different, and so are their IDs
  have hxm := mem_ofDatabase.mp (planDatabase_mem hx)
  have hym := mem_ofDatabase.mp (planDatabase_mem hy)
  have heq := eq_of_id_eq hid hym.1 hxm.1 hxy
  exact hab (hxm.2.2.symm.trans ((congrArg Record.database heq).symm.trans hym.2.2))

theorem flatMap_one {β : Type} {names : List String} (h : names.Nodup) (hn : name ∈ names)
    (f : String → List β) : (names.flatMap fun n => if n = name then f n else []) = f name := by
  obtain ⟨pre, post, rfl⟩ := List.append_of_mem hn
  have hne := List.nodup_middle.mp h
  have hout : ∀ l : List String, name ∉ l → (l.flatMap fun n => if n = name then f n else []) = [] := by
    intro l hl
    rw [List.flatMap_eq_nil_iff]
    exact fun n hnl => if_neg fun he : n = name => hl (he ▸ hnl)
  have hnot := (List.nodup_cons.mp hne).1
  rw [List.flatMap_append, List.flatMap_cons, hout pre (fun h => hnot (List.mem_append_left _ h)),
    hout post (fun h => hnot (List.mem_append_right _ h))]
  simp

/-- The deletions of a database are those that the plan lists for it. -/
theorem delete_database (h : ¬(days ≤ 0 ∧ count ≤ 0)) (hn : name ∈ databaseNames records) :
    (planDatabase now days count (ofDatabase records name)).1.length =
      ((planRetention now days count records).delete.filter (·.backup.database = name)).length := by
  rw [planRetention_pos h]
  rw [((List.perm_insertionSort _ _).filter _).length_eq, List.filter_flatMap]
  have hpart : ∀ n, (planDatabase now days count (ofDatabase records n)).1.filter
      (fun d => d.backup.database = name) =
      if n = name then (planDatabase now days count (ofDatabase records n)).1 else [] := by
    intro n
    split
    · rename_i hname
      refine List.filter_eq_self.mpr fun d hd => ?_
      simpa [← hname] using (mem_ofDatabase.mp (planDatabase_mem hd)).2.2
    · rename_i hname
      refine List.filter_eq_nil_iff.mpr fun d hd => ?_
      simpa [(mem_ofDatabase.mp (planDatabase_mem hd)).2.2] using hname
  simp only [hpart]
  rw [flatMap_one databaseNames_nodup hn]

/-- Every considered backup belongs to one of the databases. -/
theorem sum_considered : ((databaseNames records).map fun name => (ofDatabase records name).length).sum =
    (records.filter considers).length := by
  have hcount : ∀ name, (ofDatabase records name).length =
      ((records.filter considers).map (·.database)).count name := by
    intro name
    rw [List.count_eq_countP, List.countP_map, List.countP_filter, ofDatabase, ← List.countP_eq_length_filter]
    refine List.countP_congr fun r _ => ?_
    simp [and_comm]
  simp only [hcount, databaseNames]
  rw [((List.perm_insertionSort _ _).map _).sum_eq, List.sum_map_count_dedup_eq_length, List.length_map]

/-! ## Planning again -/

/-- The records once the backups with an ID in `ids` are marked deleted. -/
def markAll (ids : List String) (now purgeAfter : Int) (records : List Record) : List Record :=
  records.map fun r => if r.id ∈ ids then r.markDeleted now purgeAfter else r

theorem map_id_markAll (ids : List String) (at' purgeAfter : Int) :
    (markAll ids at' purgeAfter records).map (·.id) = records.map (·.id) := by
  rw [markAll, List.map_map]
  refine List.map_congr_left fun r _ => ?_
  simp only [Function.comp_apply]
  split <;> rfl

/-- A marked backup is no longer considered, and the others are as they were. -/
theorem ofDatabase_markAll (ids : List String) (at' purgeAfter : Int) (name : String) :
    ofDatabase (markAll ids at' purgeAfter records) name =
      (ofDatabase records name).filter fun r => r.id ∉ ids := by
  induction records with
  | nil => rfl
  | cons r records ih =>
    simp only [ofDatabase, markAll, List.map_cons] at ih ⊢
    by_cases hr : r.id ∈ ids
    · rw [if_pos hr, List.filter_cons_of_neg (by simp [considers, Record.markDeleted]), ih, List.filter_filter,
        List.filter_filter, List.filter_cons_of_neg (by simp [hr])]
    · rw [if_neg hr, List.filter_cons, List.filter_cons, ih]
      split
      · rw [List.filter_cons_of_pos (by simp [hr])]
      · rfl

theorem ahead_markAll (ids : List String) (at' purgeAfter : Int) (r : Record) :
    (ahead (markAll ids at' purgeAfter records) r).Sublist (ahead records r) := by
  have hnewer : ∀ x, newer (markAll ids at' purgeAfter records) x r = newer records x r := by
    intro x
    have hpos : ∀ y, position (markAll ids at' purgeAfter records) y = position records y := fun y => by
      rw [position, map_id_markAll, position]
    rw [Bool.eq_iff_iff]
    simp [newer, hpos]
  simp only [ahead, ofDatabase_markAll, hnewer]
  exact List.filter_sublist.filter _

/-- **Planning again deletes nothing**: the backups left have at most as many newer ones, so one that was
not deleted the first time is not deleted now. -/
theorem planRetention_again (hid : (records.map (·.id)).Nodup) (hne : ∀ r ∈ records, r.id ≠ "")
    (ids : List String) (hids : ∀ d ∈ (planRetention now days count records).delete, d.backup.id ∈ ids)
    (at' purgeAfter : Int) :
    (planRetention now days count (markAll ids at' purgeAfter records)).delete = [] := by
  have hid' : ((markAll ids at' purgeAfter records).map (·.id)).Nodup := by rwa [map_id_markAll]
  have hne' : ∀ r ∈ markAll ids at' purgeAfter records, r.id ≠ "" := by
    intro r hr
    have hr' := List.mem_map_of_mem (f := (·.id)) hr
    rw [map_id_markAll] at hr'
    obtain ⟨x, hx, he⟩ := List.mem_map.mp hr'
    exact he ▸ hne x hx
  refine List.eq_nil_iff_forall_not_mem.mpr fun d hd => ?_
  obtain ⟨hr, hc, hk, hp, hv, hs⟩ := (mem_delete_iff hid' hne').mp hd
  have hmem := mem_ofDatabase.mpr ⟨hr, hc, rfl⟩
  rw [ofDatabase_markAll, List.mem_filter] at hmem
  obtain ⟨hold, hkept⟩ := hmem
  have hsub : (ahead (markAll ids at' purgeAfter records) d.backup).Sublist (ahead records d.backup) :=
    ahead_markAll ids at' purgeAfter d.backup
  refine (by simpa using hkept : d.backup.id ∉ ids) (hids d ?_)
  refine (mem_delete_iff hid hne).mpr ⟨(mem_ofDatabase.mp hold).1, hc, ?_, hp, fun h => hv ?_, hs⟩
  · have hle := hsub.length_le
    omega
  · exact ⟨h.1, fun x hx => h.2 x (hsub.subset hx)⟩

/-! ## The theorem -/

/-- Older than a number of days. -/
def OlderThan (now days t : Int) : Prop := t < now - days * (86400 * Go.second)

/-- The backup is at least as old as the count rule asks for. -/
def CountAged (now t : Int) : Prop := minCountPruneAge ≤ now - t

theorem countAged_iff (t : Int) : minCountPruneAge ≤ Go.timeSub now t ↔ CountAged now t := by
  constructor
  · exact Go.le_sub_of_le_timeSub (by decide)
  · intro h
    refine le_max_of_le_right (le_min (by decide) h)

/-- A start time before the limit is before the computed one, which does not wrap around. -/
theorem lt_addDays {t : Int} (hnow : Go.Representable now) (ht : Go.Representable t) (hd : 0 < days)
    (h : OlderThan now days t) : t < Go.addDays now (-days) := by
  have hle : t ≤ now + -days * (86400 * Go.second) := by
    unfold OlderThan at h
    linarith
  have hge : now + -days * (86400 * Go.second) ≤ now := by
    have : 0 ≤ days * (86400 * Go.second) := Int.mul_nonneg hd.le (by decide)
    linarith
  rw [Go.addDays_eq ⟨?_, ?_⟩]
  · unfold OlderThan at h
    linarith
  · exact ht.1.trans (Int.add_le_add_right (Int.ediv_le_ediv (by decide) hle) _)
  · exact (Int.add_le_add_right (Int.ediv_le_ediv (by decide) hge) _).trans hnow.2

/-- A plan that respects every floor of a policy, deletes what the policy asks for, and adds up. -/
structure Respects (now days count : Int) (records : List Record) (plan : RetentionPlan) : Prop where
  /-- Only completed scheduled backups of a database are deleted. -/
  only : ∀ d ∈ plan.delete, d.backup ∈ records ∧ d.backup.status = .completed ∧
    d.backup.effectiveTrigger = .scheduled ∧ d.backup.instanceScope = false
  /-- The newest of each database stay. -/
  floor : ∀ d ∈ plan.delete, max count 1 ≤ (ahead records d.backup).length
  pinned : ∀ d ∈ plan.delete, d.backup.pinned = false
  verified : ∀ d ∈ plan.delete, ¬NewestVerified records d.backup
  young : ∀ d ∈ plan.delete, d.reason = .maxCount → CountAged now d.backup.startedAt
  /-- Everything else that a rule covers is deleted. -/
  every : ∀ r ∈ records, considers r = true → max count 1 ≤ (ahead records r).length → r.pinned = false →
    ¬NewestVerified records r →
    (0 < days ∧ OlderThan now days r.startedAt ∨ 0 < count ∧ CountAged now r.startedAt) →
    r ∈ plan.delete.map (·.backup)
  oldestFirst : plan.delete.Pairwise fun a b => a.backup.startedAt ≤ b.backup.startedAt
  once : (plan.delete.map (·.backup.id)).Nodup
  /-- One entry for each database with a considered backup. -/
  names : (plan.databases.map (·.database)).Nodup ∧
    ∀ name, name ∈ plan.databases.map (·.database) ↔ ofDatabase records name ≠ []
  each : ∀ s ∈ plan.databases, s.considered = (ofDatabase records s.database).length ∧
    s.delete = (plan.delete.filter (·.backup.database = s.database)).length ∧
    s.delete + s.kept = s.considered
  considered : plan.considered = (plan.databases.map (·.considered)).sum ∧
    plan.considered = (records.filter considers).length
  deleted : plan.delete.length = (plan.databases.map (·.delete)).sum
  protect : plan.protect.length = (plan.databases.map (·.protect)).sum
  /-- Planning again, once the deleted ones are marked, deletes nothing. -/
  again : ∀ purgeAfter, (planRetention now days count
    (markAll (plan.delete.map (·.backup.id)) now purgeAfter records)).delete = []

theorem considers_iff : considers r = true ↔
    r.status = .completed ∧ r.effectiveTrigger = .scheduled ∧ r.instanceScope = false := by
  simp [considers, and_assoc]

theorem select_isSome
    (h : 0 < days ∧ r.startedAt < Go.addDays now (-days) ∨ 0 < count ∧ CountAged now r.startedAt) :
    ∃ d, select now days count r = some d := by
  unfold select
  split
  · exact ⟨_, rfl⟩
  · rename_i hn
    rw [if_pos ((h.resolve_left hn).imp id (countAged_iff _).mpr)]
    exact ⟨_, rfl⟩

theorem select_young (h : select now days count r = some d) (hr : d.reason = .maxCount) :
    CountAged now r.startedAt := by
  unfold select at h
  split at h
  · cases h
    cases hr
  · split at h
    · rename_i hc
      exact (countAged_iff _).mp hc.2
    · cases h

section
variable (h : ¬(days ≤ 0 ∧ count ≤ 0))
include h

theorem databaseRetention_each (hn : name ∈ databaseNames records) :
    (databaseRetention now days count records name).delete =
      ((planRetention now days count records).delete.filter (·.backup.database = name)).length ∧
    (databaseRetention now days count records name).delete +
      (databaseRetention now days count records name).kept = (ofDatabase records name).length := by
  have hle := (planDatabase_subperm now days count records name).length_le
  rw [List.length_map] at hle
  refine ⟨delete_database h hn, ?_⟩
  simp only [databaseRetention]
  omega

theorem databases_eq : (planRetention now days count records).databases =
    (databaseNames records).map (databaseRetention now days count records) := by
  rw [planRetention_pos h]

theorem databases_names :
    (planRetention now days count records).databases.map (·.database) = databaseNames records := by
  rw [databases_eq h, List.map_map]
  exact List.map_id _

theorem databases_considered : (planRetention now days count records).considered =
    ((planRetention now days count records).databases.map (·.considered)).sum := by
  rw [databases_eq h, planRetention_pos h, List.map_map]
  rfl

theorem databases_delete : (planRetention now days count records).delete.length =
    ((planRetention now days count records).databases.map (·.delete)).sum := by
  rw [databases_eq h, planRetention_pos h, List.length_insertionSort, List.length_flatMap, List.map_map]
  rfl

theorem databases_protect : (planRetention now days count records).protect.length =
      ((planRetention now days count records).databases.map (·.protect)).sum := by
  rw [databases_eq h, planRetention_pos h, List.length_flatMap, List.map_map]
  rfl

end

/-- **Retention plans respect every floor and are stable**, for records with distinct IDs that are not
empty. -/
theorem planRetention_respects {now days count : Int} {records : List Record} (hpos : 0 < days ∨ 0 < count)
    (hid : (records.map (·.id)).Nodup) (hne : ∀ r ∈ records, r.id ≠ "") (hnow : Go.Representable now)
    (htime : ∀ r ∈ records, Go.Representable r.startedAt) :
    Respects now days count records (planRetention now days count records) := by
  have hpos' : ¬(days ≤ 0 ∧ count ≤ 0) := by omega
  have hdel := fun (d : RetentionDecision) (hd : d ∈ (planRetention now days count records).delete) =>
    (mem_delete_iff hid hne).mp hd
  refine
    { only := fun d hd => ⟨(hdel d hd).1, considers_iff.mp (hdel d hd).2.1⟩
      floor := fun d hd => (hdel d hd).2.2.1
      pinned := fun d hd => (hdel d hd).2.2.2.1
      verified := fun d hd => (hdel d hd).2.2.2.2.1
      young := fun d hd => select_young (hdel d hd).2.2.2.2.2
      every := fun r hr hc hk hp hv hrule => ?_
      oldestFirst := delete_oldestFirst
      once := delete_nodup hid
      names := ?_
      each := fun s hs => ?_
      considered := ⟨databases_considered hpos', ?_⟩
      deleted := databases_delete hpos'
      protect := databases_protect hpos'
      again := fun purgeAfter => planRetention_again hid hne _ (fun d hd => ?_) now purgeAfter }
  · obtain ⟨d, hd⟩ : ∃ d, select now days count r = some d := select_isSome (hrule.imp
      (fun h => ⟨h.1, lt_addDays hnow (htime r hr) h.1 h.2⟩) id)
    obtain rfl := select_backup hd
    exact List.mem_map_of_mem ((mem_delete_iff hid hne).mpr ⟨hr, hc, hk, hp, hv, hd⟩)
  · rw [databases_names hpos']
    refine ⟨databaseNames_nodup, fun name => ?_⟩
    rw [mem_databaseNames]
    constructor
    · rintro ⟨r, hr, hc⟩
      exact List.ne_nil_of_mem (mem_ofDatabase.mpr ⟨hr, hc⟩)
    · intro h
      obtain ⟨r, hr⟩ := List.exists_mem_of_ne_nil _ h
      exact ⟨r, mem_ofDatabase.mp hr⟩
  · rw [databases_eq hpos'] at hs
    obtain ⟨name, hn, rfl⟩ := List.mem_map.mp hs
    exact ⟨rfl, databaseRetention_each hpos' hn⟩
  · rw [planRetention_pos hpos']
    exact sum_considered
  · exact List.mem_map.mpr ⟨d, hd, rfl⟩

/-- Three backups of a day each, of which the day limit deletes the oldest but one: it is not verified. -/
def threeBackups : List Record :=
  [{ id := "b1", jobID := "job", database := "shop", startedAt := 0, verification := .ok },
   { id := "b2", jobID := "job", database := "shop", startedAt := 90000 * Go.second },
   { id := "b3", jobID := "job", database := "shop", startedAt := 180000 * Go.second }]

theorem planRetention_respects_three : Respects (1000000 * Go.second) 2 0 threeBackups
      (planRetention (1000000 * Go.second) 2 0 threeBackups) ∧
    (planRetention (1000000 * Go.second) 2 0 threeBackups).delete.map (·.backup.id) = ["b2"] := by
  refine ⟨planRetention_respects (.inl (by decide)) (by decide) (by decide) ⟨by decide, by decide⟩ ?_,
    by decide +kernel⟩
  intro r hr
  simp only [threeBackups, List.mem_cons, List.not_mem_nil, or_false] at hr
  rcases hr with rfl | rfl | rfl <;> exact ⟨by decide, by decide⟩

/-- Without a verified backup the protected ID is empty, and so is that of the older backup here: it stays
although the day limit covers it. -/
def unnamedBackup : List Record :=
  [{ id := "", jobID := "job", database := "shop", startedAt := 0 },
   { id := "b2", jobID := "job", database := "shop", startedAt := 90000 * Go.second }]

theorem unnamed_backup_kept : (unnamedBackup.map (·.id)).Nodup ∧
    (∀ r ∈ unnamedBackup, considers r = true ∧ r.pinned = false ∧ r.verification ≠ .ok ∧
      OlderThan (1000000 * Go.second) 2 r.startedAt) ∧
    (unnamedBackup.map fun r => (ahead unnamedBackup r).length) = [1, 0] ∧
    (planRetention (1000000 * Go.second) 2 0 unnamedBackup).delete = [] := by
  refine ⟨by decide, ?_, by decide +kernel, by decide +kernel⟩
  intro r hr
  simp only [unnamedBackup, List.mem_cons, List.not_mem_nil, or_false] at hr
  rcases hr with rfl | rfl
  · exact ⟨by decide, rfl, by decide, show (_ : Int) < _ by decide⟩
  · exact ⟨by decide, rfl, by decide, show (_ : Int) < _ by decide⟩

end

end MongoRescue.Scheduler.Proof
