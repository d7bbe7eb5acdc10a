import MongoRescue.Selection.Proof.Picks

/-!
# Resolving a selection

For every selection that `Normalize` accepts, every server and every known databases: the included and
the excluded databases partition the server and the named ones, what is included matches, what is new
is what the patterns match and nobody knew, and resolving again with the known databases of the first
time changes nothing (`resolveSelection_agrees`). A database that is named but that the patterns do not
match is never new, and only selections with patterns keep what is known (`named_not_new`).
-/

namespace MongoRescue.Selection.Proof

open Go (Bytes)

/-! ## Accepted selections -/

variable {s : DatabaseSelection}

theorem normalizeFilters_ok {s' : DatabaseSelection} (h : s.normalizeFilters = .ok s') :
    ∃ fs, s' = { s with collectionFilters := fs } := by
  obtain ⟨_, _, h⟩ := Go.bind_ok h
  obtain ⟨out, _, h⟩ := Go.bind_ok h
  obtain ⟨_, _, h⟩ := Go.bind_ok h
  cases h
  exact ⟨_, rfl⟩

theorem check_ok {s' : DatabaseSelection} (h : s.check = .ok s') :
    s'.checkMode = .ok () ∧ s'.checkSystem = .ok () := by
  obtain ⟨_, _, h⟩ := Go.bind_ok h
  obtain ⟨_, _, h⟩ := Go.bind_ok h
  obtain ⟨_, _, h⟩ := Go.bind_ok h
  obtain ⟨_, _, h⟩ := Go.bind_ok h
  obtain ⟨_, _, h⟩ := Go.bind_ok h
  obtain ⟨_, hmode, h⟩ := Go.bind_ok h
  obtain ⟨_, hsystem, h⟩ := Go.bind_ok h
  obtain ⟨fs, rfl⟩ := normalizeFilters_ok h
  exact ⟨hmode, hsystem⟩

/-- An accepted selection has one of the four modes; a single one names one database. -/
theorem checkMode_ok (h : s.checkMode = .ok ()) :
    (s.mode = .single ∧ ∃ d, s.databases = [d]) ∨ s.mode = .list ∨ s.mode = .all ∨ s.mode = .pattern := by
  unfold DatabaseSelection.checkMode at h
  cases hm : s.mode with
  | single =>
    rw [hm] at h
    dsimp only at h
    by_cases hl : s.databases.length ≠ 1
    · rw [if_pos hl] at h
      cases h
    · exact .inl ⟨rfl, List.length_eq_one_iff.mp (not_not.mp hl)⟩
  | list => exact .inr (.inl rfl)
  | all => exact .inr (.inr (.inl rfl))
  | pattern => exact .inr (.inr (.inr rfl))
  | unset =>
    rw [hm] at h
    cases h
  | other text =>
    rw [hm] at h
    cases h

theorem checkSystem_ok (h : s.checkSystem = .ok ()) (hm : s.multi = true) {name : Bytes}
    (hname : name ∈ s.databases) : isSystemDatabase name = false := by
  rw [DatabaseSelection.checkSystem, if_pos hm] at h
  simpa using Go.forM_ok h name hname

/-! ## What a resolution says -/

/-- The names of the excluded databases. -/
def excludedNames (res : DatabaseResolution) : List Bytes := res.excluded.map (·.name)

/-- The patterns of the selection match the database, whether it is named or not. -/
def patternsMatch (sel : DatabaseSelection) (name : Bytes) : Bool :=
  { sel with databases := [] }.matches name

/-- What a resolution says about the server, the selection and the known databases. -/
structure Agrees (sel : DatabaseSelection) (server : List Bytes) (known : Option (List Bytes))
    (res : DatabaseResolution) : Prop where
  apart : ∀ x ∈ res.included, x ∉ excludedNames res
  covers : ∀ x, x ∈ res.included ∨ x ∈ excludedNames res ↔ x ∈ server ∨ x ∈ sel.databases
  single : sel.mode = .single → ∃ d, sel.databases = [d] ∧ res.included = [d]
  included : sel.mode ≠ .single → ∀ x ∈ res.included,
    x ∈ server ∧ sel.matches x = true ∧ isSystemDatabase x = false
  all_matching : sel.mode ≠ .single → known = none ∨ sel.autoIncludeNew = true →
    ∀ x, x ∈ res.included ↔ x ∈ server ∧ sel.matches x = true
  if_known : sel.mode ≠ .single → ∀ ks, known = some ks → sel.autoIncludeNew = false →
    ∀ x ∈ server, sel.matches x = true → x ∉ sel.databases → (x ∈ res.included ↔ x ∈ ks)
  new : ∀ x, x ∈ res.new ↔ sel.discovers = true ∧ x ∈ server ∧ patternsMatch sel x = true ∧
    ∃ ks, known = some ks ∧ x ∉ ks
  known_grows : sel.discovers = true → ∃ ks', res.known = some ks' ∧
    (∀ x ∈ known.getD [], x ∈ ks') ∧
    ∀ x ∈ ks', x ∈ known.getD [] ∨ (x ∈ server ∧ sel.matches x = true)
  not_known : sel.discovers = false → res.known = none
  again : (resolveSelection sel server res.known).included = res.included ∧
    (resolveSelection sel server res.known).known = res.known

section

variable {sel : DatabaseSelection} {server : List Bytes}
  {x : Bytes} {k : Picks} {known : Option (List Bytes)} {names incl : Bytes → Prop}

theorem patternsMatch_iff (hm : sel.mode = .all ∨ sel.mode = .pattern) :
    patternsMatch sel x = true ↔ unmatched sel x = none := by
  rcases hm with hm | hm
  · simp only [patternsMatch, DatabaseSelection.matches, unmatched, hm, List.contains_nil]
    by_cases h1 : isSystemDatabase x = true <;> by_cases h2 : matchesAny sel.exclude x = [] <;>
      simp [h1, h2]
  · simp only [patternsMatch, DatabaseSelection.matches, unmatched, hm, List.contains_nil]
    by_cases h1 : isSystemDatabase x = true <;> by_cases h2 : matchesAny sel.exclude x = [] <;>
      by_cases h3 : matchesAny sel.include x = [] <;> simp [h1, h2, h3]

theorem matches_iff : sel.matches x = true ↔ x ∈ sel.databases ∨ patternsMatch sel x = true := by
  by_cases h : x ∈ sel.databases
  · simp [DatabaseSelection.matches, h]
  · simp [DatabaseSelection.matches, patternsMatch, h]

theorem not_system_of_patternsMatch (h : patternsMatch sel x = true) : isSystemDatabase x = false := by
  rw [patternsMatch, DatabaseSelection.matches] at h
  cases hm : sel.mode <;> simp [hm] at h <;> tauto

theorem mem_excludedNames {new : List Bytes} {notes : List Warning} :
    x ∈ excludedNames (finish sel k new known notes) ↔ x ∈ k.excluded.map (·.name) := by
  simp [excludedNames, finish, List.mem_insertionSort]

theorem apart_finish (k : Picks) (new : List Bytes) (known : Option (List Bytes))
    (notes : List Warning) : ∀ x ∈ (finish sel k new known notes).included,
      x ∉ excludedNames (finish sel k new known notes) := by
  intro x hx hex
  rw [mem_excludedNames, List.mem_map] at hex
  obtain ⟨e, he, rfl⟩ := hex
  exact k.apart e he (mem_sorted.mp hx)

theorem covers_finish (h : Grown .empty k names incl) (new : List Bytes) (known : Option (List Bytes))
    (notes : List Warning) (x : Bytes) :
    (x ∈ (finish sel k new known notes).included ∨ x ∈ excludedNames (finish sel k new known notes)) ↔
      names x := by
  rw [mem_excludedNames]
  simp only [finish, mem_sorted]
  exact (h.covers x).trans (or_iff_left (not_covers_empty x))

theorem mem_included_finish (h : Grown .empty k names incl) {new : List Bytes} {notes : List Warning} :
    x ∈ (finish sel k new known notes).included ↔ incl x := by
  simp only [finish, mem_sorted]
  rw [h.included]
  simp [Picks.empty]

theorem sorted_included {k' : Picks} {names' incl' : Bytes → Prop} (h : Grown .empty k names incl)
    (h' : Grown .empty k' names' incl') (heq : ∀ x, incl x ↔ incl' x) :
    sorted k.included = sorted k'.included := by
  refine sorted_eq_of_perm ((List.perm_ext_iff_of_nodup k.nodup k'.nodup).mpr fun x => ?_)
  rw [h.included, h'.included, heq]

/-! ## Single and list selections -/

theorem agrees_single (hm : sel.mode = .single) {d : Bytes} (hd : sel.databases = [d])
    (known : Option (List Bytes)) :
    Agrees sel server known (resolveSelection sel server known) := by
  have heq (known : Option (List Bytes)) : resolveSelection sel server known =
      finish sel (excludeRest server (sel.databases.foldl .include .empty)) [] none [] := by
    rw [resolveSelection, hm]
  rw [heq]
  have hdiscovers : sel.discovers = false := by simp [DatabaseSelection.discovers, hm]
  refine ⟨apart_finish _ _ _ _, covers_finish picks_single _ _ _, fun _ => ⟨d, hd, ?_⟩,
    fun h => absurd hm h, fun h => absurd hm h, fun h => absurd hm h, fun x => ?_, ?_, fun _ => rfl, ?_⟩
  · refine List.perm_singleton.mp ((List.perm_ext_iff_of_nodup ?_ (List.nodup_singleton d)).mpr ?_)
    · exact (List.perm_insertionSort _ _).nodup_iff.mpr (Picks.nodup _)
    · intro x
      rw [mem_included_finish picks_single, hd]
  · simp [finish, hdiscovers]
  · simp [hdiscovers]
  · rw [heq]
    exact ⟨rfl, rfl⟩

theorem agrees_list (hm : sel.mode = .list) (hsys : ∀ x ∈ sel.databases, isSystemDatabase x = false)
    (known : Option (List Bytes)) :
    Agrees sel server known (resolveSelection sel server known) := by
  have heq (known : Option (List Bytes)) : resolveSelection sel server known =
      finish sel (excludeRest server (includeNamed sel server .empty)) [] none [] := by
    rw [resolveSelection, hm]
  rw [heq]
  have hdiscovers : sel.discovers = false := by simp [DatabaseSelection.discovers, hm]
  have hmatches (x : Bytes) : sel.matches x = true ↔ x ∈ sel.databases := by
    simp [DatabaseSelection.matches, hm]
  refine ⟨apart_finish _ _ _ _, covers_finish picks_named _ _ _, fun h => ?_, fun _ x hx => ?_,
    fun _ _ x => ?_, fun _ _ _ _ x _ hmx hn => absurd ((hmatches x).mp hmx) hn, fun x => ?_, ?_,
    fun _ => rfl, ?_⟩
  · rw [hm] at h
    cases h
  · rw [mem_included_finish picks_named] at hx
    exact ⟨hx.2, (hmatches x).mpr hx.1, hsys x hx.1⟩
  · rw [mem_included_finish picks_named, hmatches, and_comm]
  · simp [finish, hdiscovers]
  · simp [hdiscovers]
  · rw [heq]
    exact ⟨rfl, rfl⟩

/-! ## All and pattern selections -/

/-- The known databases a resolution returns. -/
theorem mem_known_discover : x ∈ compact (sorted (discoverServer sel server known).known) ↔
      (Matched sel server x ∧ Fresh sel known x) ∨ x ∈ known.getD [] := by
  rw [mem_compact, mem_sorted, (discoverServer_spec known).2.2]

section Discover

variable (hm : sel.mode = .all ∨ sel.mode = .pattern)
include hm

theorem resolveSelection_discover (known : Option (List Bytes)) :
    resolveSelection sel server known =
      finish sel (includeNamed sel server (discoverServer sel server known).picks)
        (discoverServer sel server known).new
        (some (compact (sorted (discoverServer sel server known).known))) (warnings sel server) := by
  rcases hm with hm | hm <;> rw [resolveSelection, hm]

theorem mem_included_discover {known : Option (List Bytes)} {x : Bytes} :
    x ∈ (resolveSelection sel server known).included ↔
      (Matched sel server x ∧ Backs sel known x) ∨ (x ∈ sel.databases ∧ x ∈ server) := by
  rw [resolveSelection_discover hm, mem_included_finish (picks_discovered known)]

/-- **Resolving again with the known databases it returned changes neither list.** -/
theorem again_discover (known : Option (List Bytes)) :
    (resolveSelection sel server (resolveSelection sel server known).known).included =
        (resolveSelection sel server known).included ∧
      (resolveSelection sel server (resolveSelection sel server known).known).known =
        (resolveSelection sel server known).known := by
  rw [resolveSelection_discover hm known]
  set ks := compact (sorted (discoverServer sel server known).known) with hks
  have hmem (x : Bytes) : x ∈ ks ↔ (Matched sel server x ∧ Fresh sel known x) ∨ x ∈ known.getD [] :=
    mem_known_discover
  -- a matched database is backed up iff it was before, and none is new to the known ones
  have hbacks (x : Bytes) (hx : Matched sel server x) : Backs sel (some ks) x ↔ Backs sel known x := by
    constructor
    · rintro h ks' rfl
      rcases h ks rfl with hk | ha
      · rcases (hmem x).mp hk with ⟨-, hf⟩ | hk
        · exact hf.1 ks' rfl
        · exact .inl hk
      · exact .inr ha
    · rintro h _ ⟨⟩
      rcases known with _ | ks'
      · exact .inl ((hmem x).mpr (.inl ⟨hx, h, by simp⟩))
      · exact (h ks' rfl).imp_left fun hk => (hmem x).mpr (.inr hk)
  have hfresh (x : Bytes) (hx : Matched sel server x) : ¬ Fresh sel (some ks) x := by
    rintro ⟨hb, hn⟩
    have hknown : ∀ ks', known = some ks' → x ∉ ks' := by
      rintro ks' rfl hk
      exact hn ks rfl ((hmem x).mpr (.inr hk))
    exact hn ks rfl ((hmem x).mpr (.inl ⟨hx, (hbacks x hx).mp hb, hknown⟩))
  change (resolveSelection sel server (some ks)).included = _ ∧
    (resolveSelection sel server (some ks)).known = some ks
  rw [resolveSelection_discover hm (some ks)]
  constructor
  · refine sorted_included (picks_discovered (some ks)) (picks_discovered known) fun x => ?_
    rw [and_congr_right (hbacks x)]
  · refine congrArg some (compact_sorted_congr fun x => ?_)
    rw [(discoverServer_spec (some ks)).2.2, or_iff_right fun h => hfresh x h.1 h.2]
    rw [Option.getD_some, hks, mem_compact, mem_sorted]

theorem agrees_discover (hsys : ∀ x ∈ sel.databases, isSystemDatabase x = false)
    (known : Option (List Bytes)) :
    Agrees sel server known (resolveSelection sel server known) := by
  have hdiscovers : sel.discovers = true := by
    rcases hm with hm | hm <;> simp [DatabaseSelection.discovers, hm]
  have hmatched (x : Bytes) : Matched sel server x ↔ x ∈ server ∧ patternsMatch sel x = true := by
    rw [Matched, patternsMatch_iff hm]
  have heq : resolveSelection sel server known = _ := resolveSelection_discover hm known
  refine ⟨?_, fun x => ?_, fun h => ?_, fun _ x hx => ?_, fun _ hall x => ?_,
    fun _ ks hks hauto x hx hmx hn => ?_, fun x => ?_, fun _ => ?_, fun h => ?_, again_discover hm known⟩
  · rw [heq]
    exact apart_finish _ _ _ _
  · rw [heq]
    exact covers_finish (picks_discovered known) _ _ _ x
  · rcases hm with hm | hm <;> rw [hm] at h <;> cases h
  · rw [mem_included_discover hm, hmatched] at hx
    rcases hx with ⟨⟨hx, hp⟩, -⟩ | ⟨hn, hx⟩
    · exact ⟨hx, matches_iff.mpr (.inr hp), not_system_of_patternsMatch hp⟩
    · exact ⟨hx, matches_iff.mpr (.inl hn), hsys x hn⟩
  · have hbacks : Backs sel known x := by
      rintro ks rfl
      exact .inr (hall.resolve_left (by simp))
    rw [mem_included_discover hm, hmatched, matches_iff]
    tauto
  · have hp : patternsMatch sel x = true := (matches_iff.mp hmx).resolve_left hn
    rw [mem_included_discover hm, hmatched]
    constructor
    · rintro (⟨-, hb⟩ | ⟨h, -⟩)
      · exact (hb ks hks).resolve_right (by simp [hauto])
      · exact absurd h hn
    · intro hk
      refine .inl ⟨⟨hx, hp⟩, fun ks' hks' => .inl ?_⟩
      rw [hks, Option.some.injEq] at hks'
      exact hks' ▸ hk
  · rw [heq]
    dsimp only [finish]
    rw [(discoverServer_spec known).2.1, hmatched]
    simp [hdiscovers, Unknown, and_assoc]
  · rw [heq]
    refine ⟨_, rfl, fun x hx => mem_known_discover.mpr (.inr hx), fun x hx => ?_⟩
    rcases mem_known_discover.mp hx with ⟨hmx, -⟩ | hx
    · obtain ⟨hx, hp⟩ := (hmatched x).mp hmx
      exact .inr ⟨hx, matches_iff.mpr (.inr hp)⟩
    · exact .inl hx
  · rw [hdiscovers] at h
    cases h

end Discover

end

/-- **Every accepted selection, resolved against any server and known databases.** -/
theorem resolveSelection_agrees {raw sel : DatabaseSelection} (h : raw.normalize = .ok sel)
    (server : List Bytes) (known : Option (List Bytes)) :
    Agrees sel server known (resolveSelection sel server known) := by
  obtain ⟨hmode, hsystem⟩ := check_ok h
  have hsys (hm : sel.multi = true) : ∀ x ∈ sel.databases, isSystemDatabase x = false :=
    fun x => checkSystem_ok hsystem hm
  rcases checkMode_ok hmode with ⟨hm, d, hd⟩ | hm | hm
  · exact agrees_single hm hd known
  · exact agrees_list hm (hsys (by simp [DatabaseSelection.multi, hm])) known
  · refine agrees_discover hm (hsys ?_) known
    rcases hm with hm | hm <;> simp [DatabaseSelection.multi, hm]

def namedAndExcluded : DatabaseSelection :=
  { mode := .all, databases := [Go.ascii "a"], collectionFilters := [], «include» := []
    exclude := [Go.ascii "a"], autoIncludeNew := false }

theorem resolveSelection_agrees_named : namedAndExcluded.normalize = .ok namedAndExcluded ∧
      Agrees namedAndExcluded [Go.ascii "a"] (some [])
        (resolveSelection namedAndExcluded [Go.ascii "a"] (some [])) := by
  have h : namedAndExcluded.normalize = .ok namedAndExcluded := by decide +kernel
  exact ⟨h, resolveSelection_agrees h _ _⟩

def namedList : DatabaseSelection := { namedAndExcluded with mode := .list, exclude := [] }

/-- A database that is named, and so matches, but that no pattern matches is not new, known or not; and
the known databases of a list are forgotten. -/
theorem named_not_new : (namedAndExcluded.normalize = .ok namedAndExcluded ∧
      ¬ (∀ x, x ∈ (resolveSelection namedAndExcluded [Go.ascii "a"] (some [])).new ↔
        x ∈ [Go.ascii "a"] ∧ namedAndExcluded.matches x = true ∧ x ∉ ([] : List Bytes))) ∧
    namedList.normalize = .ok namedList ∧
      ¬ ∀ x ∈ [Go.ascii "a"],
        x ∈ (resolveSelection namedList [Go.ascii "a"] (some [Go.ascii "a"])).known.getD [] := by
  refine ⟨⟨by decide +kernel, fun h => ?_⟩, by decide +kernel, by decide +kernel⟩
  have hnew : (resolveSelection namedAndExcluded [Go.ascii "a"] (some [])).new = [] := by decide +kernel
  have := (h (Go.ascii "a")).mpr ⟨by simp, by decide +kernel, by simp⟩
  rw [hnew] at this
  cases this

end MongoRescue.Selection.Proof
