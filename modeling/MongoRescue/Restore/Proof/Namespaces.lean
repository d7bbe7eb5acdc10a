import MongoRescue.Restore.Namespaces

/-!
# The two passes restore the same databases

Escaped names are literal in patterns (`pattern_escape`, `template_escape`). With the values of the flags
in `pitrBaseArgs` (`wholeArgs_flags`, `namedArgs_flags`) pass 1 restores a namespace exactly when the
filter of pass 2 selects its database: `passes_agree`.
-/

namespace MongoRescue.Restore.Proof

open Glob (lits find fill matchesWord)

/-! ## Escaped names -/

/-- A character in a namespace argument. -/
def escapeChar (c : Char) : List Char :=
  if c = '\\' then ['\\', '\\'] else if c = '*' then ['\\', '*'] else [c]

theorem escapeNamespace_toList (s : String) : (escapeNamespace s).toList = s.toList.flatMap escapeChar := by
  rw [escapeNamespace, String.toList_ofList, replaceChar, replaceChar, List.flatMap_assoc]
  refine List.flatMap_congr fun c _ => ?_
  fun_cases escapeChar c <;> simp_all

section Pieces

variable {k : Nat} {rest : List Char}

theorem patternFrom_lit {c : Char} (h1 : c ≠ '\\') (h2 : c ≠ '*') :
    patternFrom k (c :: rest) = .lit c :: patternFrom k rest := by
  rw [patternFrom]
  · rintro d r rfl
    exact absurd rfl h1
  · rintro rfl
    exact h2 rfl

theorem templateFrom_lit {c : Char} (h1 : c ≠ '\\') (h2 : c ≠ '*') (h3 : c ≠ '$') :
    templateFrom k none (c :: rest) = .lit c :: templateFrom k none rest := by
  rw [templateFrom]
  · rintro rfl
    exact h3 rfl
  · rintro d r rfl
    exact absurd rfl h1
  · rintro rfl
    exact h2 rfl

theorem patternFrom_escape (s : List Char) :
    patternFrom k (s.flatMap escapeChar ++ rest) = lits s ++ patternFrom k rest := by
  induction s with
  | nil => rfl
  | cons c s ih =>
    rw [List.flatMap_cons, List.append_assoc]
    fun_cases escapeChar c with
    | case3 h1 h2 =>
      rw [List.singleton_append, patternFrom_lit h1 h2, ih]
      rfl
    | _ => simp only [List.cons_append, List.nil_append, patternFrom, lits, List.map_cons, *]

theorem templateFrom_escape {s : List Char} (hs : '$' ∉ s) :
    templateFrom k none (s.flatMap escapeChar ++ rest) = lits s ++ templateFrom k none rest := by
  induction s with
  | nil => rfl
  | cons c s ih =>
    have ih := ih fun h => hs (List.mem_cons_of_mem _ h)
    have hc : c ≠ '$' := fun h => hs (h ▸ List.mem_cons_self)
    rw [List.flatMap_cons, List.append_assoc]
    fun_cases escapeChar c with
    | case3 h1 h2 =>
      rw [List.singleton_append, templateFrom_lit h1 h2 hc, ih]
      rfl
    | _ => simp only [List.cons_append, List.nil_append, templateFrom, lits, List.map_cons, *]

end Pieces

theorem pattern_database (db : String) :
    pattern (escapeNamespace db ++ ".*") = lits (db.toList ++ ['.']) ++ [.hole "1"] := by
  rw [pattern, String.toList_append, escapeNamespace_toList, patternFrom_escape, lits, lits, List.map_append,
    List.append_assoc]
  rfl

theorem template_database {db : String} (h : '$' ∉ db.toList) :
    template (escapeNamespace db ++ ".*") = lits (db.toList ++ ['.']) ++ [.hole "1"] := by
  rw [template, String.toList_append, escapeNamespace_toList, templateFrom_escape h, lits, lits, List.map_append,
    List.append_assoc]
  rfl

theorem template_suffix {suffix : String} (h : '$' ∉ suffix.toList) :
    template ("$db$" ++ escapeNamespace suffix ++ ".$coll$") =
      .hole "db" :: (lits (suffix.toList ++ ['.']) ++ [.hole "coll"]) := by
  have hdb : ∀ l, templateFrom 1 none ("$db$".toList ++ l) = .hole "db" :: templateFrom 1 none l :=
    fun _ => rfl
  have hcoll : templateFrom 1 none ".$coll$".toList = [.lit '.', .hole "coll"] := rfl
  rw [template, String.toList_append, String.toList_append, escapeNamespace_toList, List.append_assoc, hdb,
    templateFrom_escape h, hcoll, lits, lits, List.map_append, List.append_assoc]
  rfl

/-- **An escaped name matches itself only.** -/
theorem pattern_escape (name ns : String) :
    matchesWord (pattern (escapeNamespace name)) ns.toList = true ↔ ns = name := by
  have h : pattern (escapeNamespace name) = lits name.toList := by
    have hnil : patternFrom 1 (name.toList.flatMap escapeChar ++ []) = lits name.toList ++ patternFrom 1 [] :=
      patternFrom_escape _
    rw [List.append_nil] at hnil
    rw [pattern, escapeNamespace_toList, hnil]
    exact List.append_nil _
  rw [h, Glob.matchesWord_lits, String.toList_inj]

/-! ## Flags -/

section Flags

variable {flag : String}

theorem flagValue_self (x : String) : flagValue flag (flag ++ x) = some x := by
  rw [flagValue, String.toList_append, if_pos]
  · rw [List.drop_left, String.ofList_toList]
  · rw [List.isPrefixOf_iff_prefix]
    exact List.prefix_append _ _

/-- Flags that differ in a character are told apart. -/
theorem flagValue_other (flag other : String) (i : Nat) {a b : Char} (ha : flag.toList[i]? = some a)
    (hb : other.toList[i]? = some b) (hab : a ≠ b) (x : String) : flagValue flag (other ++ x) = none := by
  rw [flagValue, if_neg]
  rw [String.toList_append, List.isPrefixOf_iff_prefix]
  rintro ⟨rest, hrest⟩
  have h1 : (flag.toList ++ rest)[i]? = some a := by
    rw [List.getElem?_append_left (List.getElem?_eq_some_iff.mp ha).1, ha]
  have h2 : (other.toList ++ x.toList)[i]? = some b := by
    rw [List.getElem?_append_left (List.getElem?_eq_some_iff.mp hb).1, hb]
  rw [hrest, h2] at h1
  exact hab (Option.some.inj h1).symm

theorem flagValues_append (l l' : List String) :
    flagValues flag (l ++ l') = flagValues flag l ++ flagValues flag l' := List.filterMap_append ..

theorem flagValues_map_self (l : List String) : flagValues flag (l.map (flag ++ ·)) = l := by
  have hsome : flagValue flag ∘ (flag ++ ·) = some := funext flagValue_self
  rw [flagValues, List.filterMap_map, hsome, List.filterMap_some]

theorem flagValues_map_other {other : String} {a b : Char} (ha : flag.toList[4]? = some a)
    (hb : other.toList[4]? = some b) (hab : a ≠ b) (l : List String) :
    flagValues flag (l.map (other ++ ·)) = [] := by
  rw [flagValues, List.filterMap_eq_nil_iff]
  intro x hx
  obtain ⟨y, -, rfl⟩ := List.mem_map.mp hx
  exact flagValue_other flag other 4 ha hb hab _

/-- The arguments before those of the namespaces have none of their flags. -/
theorem flagValues_head (h : flag.toList[2]? = some 'n') (path : String) (isGzip : Bool) :
    flagValues flag (["--config=" ++ path, "--archive"] ++ (if isGzip then ["--gzip"] else [])) = [] := by
  have hconfig := flagValue_other flag "--config=" 2 h rfl (by decide) path
  have harchive := flagValue_other flag "--archive" 2 h rfl (by decide) ""
  have hgzip := flagValue_other flag "--gzip" 2 h rfl (by decide) ""
  rw [String.append_empty] at harchive hgzip
  cases isGzip <;> simp [flagValues, hconfig, harchive, hgzip]

end Flags

/-- The values of the namespace flags of pass 1. -/
structure Values (args includes excludes froms tos : List String) : Prop where
  includes : flagValues "--nsInclude=" args = includes
  excludes : flagValues "--nsExclude=" args = excludes
  froms : flagValues "--nsFrom=" args = froms
  tos : flagValues "--nsTo=" args = tos

section Args

variable {info : PITRRestore} {base : List String} {path : String} {isGzip : Bool}

/-- The arguments of pass 1, with the values of the namespace flags. -/
def argsOf (path : String) (isGzip : Bool) (includes excludes : List String)
    (renames : List (String × String)) : List String :=
  ["--config=" ++ path, "--archive"] ++ (if isGzip then ["--gzip"] else []) ++
    includes.map ("--nsInclude=" ++ ·) ++ excludes.map ("--nsExclude=" ++ ·) ++
    renames.flatMap fun p => ["--nsFrom=" ++ p.1, "--nsTo=" ++ p.2]

theorem flagValues_argsOf {flag : String} (h : flag.toList[2]? = some 'n') (includes excludes : List String)
    (renames : List (String × String)) : flagValues flag (argsOf path isGzip includes excludes renames) =
      flagValues flag (includes.map ("--nsInclude=" ++ ·)) ++
        flagValues flag (excludes.map ("--nsExclude=" ++ ·)) ++
        renames.flatMap fun p => flagValues flag ["--nsFrom=" ++ p.1, "--nsTo=" ++ p.2] := by
  rw [argsOf, flagValues_append, flagValues_append, flagValues_append, flagValues_head h, List.nil_append]
  simp only [flagValues, List.filterMap_flatMap]

theorem values_argsOf (includes excludes : List String) (renames : List (String × String)) :
    Values (argsOf path isGzip includes excludes renames) includes excludes (renames.map (·.1))
      (renames.map (·.2)) where
  includes := by
    have h1 := fun x => flagValue_other "--nsInclude=" "--nsFrom=" 4 rfl rfl (by decide) x
    have h2 := fun x => flagValue_other "--nsInclude=" "--nsTo=" 4 rfl rfl (by decide) x
    rw [flagValues_argsOf rfl, flagValues_map_self, flagValues_map_other rfl rfl (by decide)]
    simp [flagValues, h1, h2]
  excludes := by
    have h1 := fun x => flagValue_other "--nsExclude=" "--nsFrom=" 4 rfl rfl (by decide) x
    have h2 := fun x => flagValue_other "--nsExclude=" "--nsTo=" 4 rfl rfl (by decide) x
    rw [flagValues_argsOf rfl, flagValues_map_self, flagValues_map_other rfl rfl (by decide)]
    simp [flagValues, h1, h2]
  froms := by
    have h2 := fun x => flagValue_other "--nsFrom=" "--nsTo=" 4 rfl rfl (by decide) x
    rw [flagValues_argsOf rfl, flagValues_map_other rfl rfl (by decide),
      flagValues_map_other rfl rfl (by decide)]
    simp [flagValues, flagValue_self, h2, List.map_eq_flatMap]
  tos := by
    have h1 := fun x => flagValue_other "--nsTo=" "--nsFrom=" 4 rfl rfl (by decide) x
    rw [flagValues_argsOf rfl, flagValues_map_other rfl rfl (by decide),
      flagValues_map_other rfl rfl (by decide)]
    simp [flagValues, flagValue_self, h1, List.map_eq_flatMap]

theorem wholeArgs_eq (h : info.databases = []) :
    pitrBaseArgs ("--config=" ++ path) info base isGzip = argsOf path isGzip []
      ((["admin", "config", "local"] ++ base.filter isRescueClone).map fun db => escapeNamespace db ++ ".*")
      [("$db$.$coll$", "$db$" ++ escapeNamespace info.cloneSuffix ++ ".$coll$")] := by
  have hsystem : (["admin", "config", "local"].map fun db => "--nsExclude=" ++ (escapeNamespace db ++ ".*")) =
      ["--nsExclude=admin.*", "--nsExclude=config.*", "--nsExclude=local.*"] := by decide
  rw [argsOf, List.map_map, List.map_append]
  simp only [Function.comp_def]
  rw [hsystem]
  simp [pitrBaseArgs, h]

theorem namedArgs_eq (h : info.databases ≠ []) :
    pitrBaseArgs ("--config=" ++ path) info base isGzip = argsOf path isGzip
      (info.databases.map fun db => escapeNamespace db ++ ".*") []
      (info.databases.map fun db =>
        (escapeNamespace db ++ ".*", escapeNamespace (db ++ info.cloneSuffix) ++ ".*")) := by
  have hlen : info.databases.length ≠ 0 := by simpa using h
  simp [pitrBaseArgs, argsOf, hlen, List.flatMap_map, List.map_map, Function.comp_def]

end Args

/-! ## Namespaces -/

section Namespaces

variable {db coll suffix : String}

theorem ns_toList : (db ++ "." ++ coll).toList = db.toList ++ '.' :: coll.toList := by
  rw [String.toList_append, String.toList_append, List.append_assoc]
  rfl

theorem find_database (d : String) : find (lits (d.toList ++ ['.']) ++ [.hole "1"])
    (d ++ "." ++ coll).toList = some [("1", coll.toList)] := by
  have h : (d ++ "." ++ coll).toList = d.toList ++ ['.'] ++ coll.toList := by
    rw [ns_toList, List.append_assoc, List.singleton_append]
  rw [h, Glob.find_lits, Glob.find_hole]

/-- The pattern of a database matches the namespaces of this database. -/
theorem find_other {d : String} (hd : '.' ∉ d.toList) (hdb : '.' ∉ db.toList) (hne : d ≠ db) :
    find (lits (d.toList ++ ['.']) ++ [.hole "1"]) (db ++ "." ++ coll).toList = none := by
  rw [Option.eq_none_iff_forall_ne_some]
  intro found h
  obtain ⟨rest, hrest, -⟩ := Glob.eq_append_of_find h
  rw [ns_toList, List.append_assoc, List.singleton_append] at hrest
  exact hne (String.toList_inj.mp (Glob.append_separator_inj hdb hd hrest).1).symm

theorem matches_database {d : String} (hd : '.' ∉ d.toList) (hdb : '.' ∉ db.toList) :
    matchesWord (pattern (escapeNamespace d ++ ".*")) (db ++ "." ++ coll).toList = true ↔ d = db := by
  rw [pattern_database, matchesWord]
  by_cases h : d = db
  · rw [h, find_database]
    simp
  · rw [find_other hd hdb h]
    simp [h]

/-- The patterns of databases match the namespaces of these databases. -/
theorem any_database {l : List String} (hl : ∀ d ∈ l, '.' ∉ d.toList) (hdb : '.' ∉ db.toList) :
    (l.map fun d => escapeNamespace d ++ ".*").any
      (fun p => matchesWord (pattern p) (db ++ "." ++ coll).toList) = decide (db ∈ l) := by
  rw [Bool.eq_iff_iff, List.any_eq_true, decide_eq_true_eq]
  constructor
  · rintro ⟨p, hp, hm⟩
    obtain ⟨d, hd, rfl⟩ := List.mem_map.mp hp
    exact (matches_database (hl d hd) hdb).mp hm ▸ hd
  · intro hmem
    exact ⟨_, List.mem_map_of_mem hmem, (matches_database hdb hdb).mpr rfl⟩

/-- A whole instance is renamed with one template. -/
theorem renamed_whole (hdb : '.' ∉ db.toList) (hsuffix : '$' ∉ suffix.toList) :
    renamed (db ++ "." ++ coll) [("$db$.$coll$", "$db$" ++ escapeNamespace suffix ++ ".$coll$")] =
      db ++ suffix ++ "." ++ coll := by
  have hfrom : template "$db$.$coll$" = [.hole "db", .lit '.', .hole "coll"] := rfl
  have hfind : find (template "$db$.$coll$") (db ++ "." ++ coll).toList =
      some [("db", db.toList), ("coll", coll.toList)] := by
    rw [hfrom, ns_toList]
    exact Glob.find_until hdb Glob.find_hole
  rw [renamed, hfind]
  dsimp only
  have hdb' : taken [("db", db.toList), ("coll", coll.toList)] "db" = db.toList := rfl
  have hcoll : taken [("db", db.toList), ("coll", coll.toList)] "coll" = coll.toList := rfl
  rw [template_suffix hsuffix, fill, hdb', Glob.fill_append, Glob.fill_lits, fill, hcoll, fill]
  rw [← String.toList_inj, String.toList_ofList]
  simp

/-- A selected database is renamed by its own template. -/
theorem renamed_named {dbs : List String} (hdbs : ∀ d ∈ dbs, '.' ∉ d.toList ∧ '$' ∉ d.toList)
    (hdb : '.' ∉ db.toList) (hsuffix : '$' ∉ suffix.toList) (hmem : db ∈ dbs) :
    renamed (db ++ "." ++ coll) (dbs.map fun d =>
      (escapeNamespace d ++ ".*", escapeNamespace (d ++ suffix) ++ ".*")) = db ++ suffix ++ "." ++ coll := by
  induction dbs with
  | nil => cases hmem
  | cons d dbs ih =>
    obtain ⟨hd, hd'⟩ := hdbs d List.mem_cons_self
    rw [List.map_cons, renamed, template_database hd']
    by_cases heq : d = db
    · subst heq
      have htaken : taken [("1", coll.toList)] "1" = coll.toList := rfl
      have hto : '$' ∉ (d ++ suffix).toList := by
        rw [String.toList_append]
        exact fun h => (List.mem_append.mp h).elim hd' hsuffix
      rw [find_database, template_database hto]
      dsimp only
      rw [Glob.fill_append, Glob.fill_lits, fill, htaken, fill, ← String.toList_inj, String.toList_ofList]
      simp
    · rw [find_other hd hdb heq]
      exact ih (fun x hx => hdbs x (List.mem_cons_of_mem _ hx))
        (List.mem_of_ne_of_mem (Ne.symm heq) hmem)

end Namespaces

/-! ## Requests -/

theorem forbidden_of_valid {name : String} {u : Unit} (h : validateDatabaseName name = .ok u) {c : Char}
    (hc : c ∈ databaseNameForbidden) : c ∉ name.toList := by
  intro hmem
  revert h
  fun_cases validateDatabaseName name <;> intro h <;> cases h
  rename_i hforbidden _
  exact hforbidden (List.any_eq_true.mpr ⟨c, hmem, by simpa using hc⟩)

/-- What is known of the databases a request selects. -/
structure Selectable (db : String) : Prop where
  valid : validateDatabaseName db = .ok ()
  system : Oplog.systemDB db = false
  clone : isRescueClone db = false

theorem selectable_of_check {seen l : List String} {u : Unit}
    (h : RestoreRequest.checkDatabases seen l = .ok u) : ∀ db ∈ l, Selectable (Go.trimSpace db) := by
  fun_induction RestoreRequest.checkDatabases seen l with
  | case1 => simp
  | case7 seen e l name hv hsystem hclone _ ih =>
    intro db hdb
    rcases List.mem_cons.mp hdb with rfl | hdb
    · exact ⟨hv, by simpa [Oplog.systemDB, and_assoc] using hsystem, by simpa using hclone⟩
    · exact ih h db hdb
  | _ => cases h

theorem validatePITR_ok {req : RestoreRequest} (h : req.validatePITR = .ok ()) :
    RestoreRequest.checkDatabases [] req.databases = .ok () ∧
      ∀ t, req.pitr = some t → t.inPlace = true → req.validatePITRInPlace t = .ok () := by
  revert h
  fun_cases RestoreRequest.validatePITR req <;> simp_all [RestoreRequest.checkDatabases]

/-- Every database an accepted request selects can be restored. -/
theorem selectable_of_validate {req : RestoreRequest} (h : req.validatePITR = .ok ()) :
    ∀ db ∈ req.pitrDatabases, Selectable db := by
  intro db hdb
  obtain ⟨e, he, rfl⟩ := List.mem_map.mp (List.mem_filter.mp hdb).1
  exact selectable_of_check (validatePITR_ok h).1 e he

/-! ## The theorem -/

/-- The record of an accepted request. -/
def RestoreRequest.info (req : RestoreRequest) (suffix : String) (limit : Oplog.Timestamp) : PITRRestore :=
  { databases := req.pitrDatabases, cloneSuffix := suffix, limit }

/-- A character that a database name may have. -/
def NameChar (c : Char) : Prop := c ∉ databaseNameForbidden ∧ isControl c = false

theorem mongorestore_argsOf (path : String) (isGzip : Bool) (includes excludes : List String)
    (renames : List (String × String)) (ns : String) :
    mongorestore (argsOf path isGzip includes excludes renames) ns =
      if (includes.isEmpty || includes.any fun p => matchesWord (pattern p) ns.toList) &&
          !excludes.any fun p => matchesWord (pattern p) ns.toList then some (renamed ns renames)
      else none := by
  have h : Values (argsOf path isGzip includes excludes renames) includes excludes (renames.map (·.1))
    (renames.map (·.2)) := values_argsOf includes excludes renames
  have hzip : (renames.map (·.1)).zip (renames.map (·.2)) = renames := by
    rw [List.zip_map']
    exact List.map_id _
  rw [mongorestore, included, h.includes, h.excludes, h.froms, h.tos, hzip]

section Passes

variable {info : PITRRestore} {base : List String} {path : String} {isGzip : Bool} {db coll : String}

/-- Pass 1 of a whole instance leaves out the system databases and the clones of the base. -/
theorem mongorestore_whole (h : info.databases = []) (hsuffix : '$' ∉ info.cloneSuffix.toList)
    (hbase : ∀ d ∈ base, '.' ∉ d.toList) (hdb : db ∈ base) :
    mongorestore (pitrBaseArgs ("--config=" ++ path) info base isGzip) (db ++ "." ++ coll) =
      if Oplog.systemDB db || isRescueClone db then none
      else some (db ++ info.cloneSuffix ++ "." ++ coll) := by
  have hdot : ∀ d ∈ ["admin", "config", "local"] ++ base.filter isRescueClone, '.' ∉ d.toList := by
    intro d hd
    rcases List.mem_append.mp hd with hd | hd
    · simp only [List.mem_cons, List.not_mem_nil, or_false] at hd
      rcases hd with rfl | rfl | rfl <;> decide
    · exact hbase d (List.mem_filter.mp hd).1
  have hex : decide (db ∈ ["admin", "config", "local"] ++ base.filter isRescueClone) =
      (Oplog.systemDB db || isRescueClone db) := by
    rw [Bool.eq_iff_iff]
    simp [Oplog.systemDB, hdb, or_assoc]
  rw [wholeArgs_eq h, mongorestore_argsOf, any_database hdot (hbase db hdb), hex,
    renamed_whole (hbase db hdb) hsuffix]
  cases Oplog.systemDB db || isRescueClone db <;> simp

/-- Pass 1 of selected databases restores these. -/
theorem mongorestore_named (h : info.databases ≠ []) (hsuffix : '$' ∉ info.cloneSuffix.toList)
    (hdbs : ∀ d ∈ info.databases, '.' ∉ d.toList ∧ '$' ∉ d.toList) (hdb : '.' ∉ db.toList) :
    mongorestore (pitrBaseArgs ("--config=" ++ path) info base isGzip) (db ++ "." ++ coll) =
      if db ∈ info.databases then some (db ++ info.cloneSuffix ++ "." ++ coll) else none := by
  rw [namedArgs_eq h, mongorestore_argsOf, any_database (fun d hd => (hdbs d hd).1) hdb]
  by_cases hmem : db ∈ info.databases
  · rw [renamed_named hdbs hdb hsuffix hmem]
    simp [hmem]
  · simp [hmem, h]

end Passes

/-- **Both passes select and rename the same databases.** The filter of pass 2 refuses a clone whose name
MongoDB would not take. -/
theorem passes_agree (req : RestoreRequest) (suffix : String) (base : List String)
    (hreq : req.validatePITR = .ok ()) (hsuffix : ∀ c ∈ suffix.toList, NameChar c)
    (hbase : ∀ db ∈ base, validateDatabaseName db = .ok ()) (limit : Oplog.Timestamp) (path : String)
    (isGzip : Bool) : (∀ db ∈ base, ∀ coll,
      mongorestore (pitrBaseArgs ("--config=" ++ path) (RestoreRequest.info req suffix limit) base isGzip)
        (db ++ "." ++ coll) =
      if (pitrFilter (RestoreRequest.info req suffix limit)).selected db then
        some (db ++ suffix ++ "." ++ coll) else none) ∧
    (pitrFilter (RestoreRequest.info req suffix limit)).rename = some (· ++ suffix) ∧
    (∀ db, (pitrFilter (RestoreRequest.info req suffix limit)).renameDB db =
      if Oplog.Filter.validTarget db (db ++ suffix) then .ok (db ++ suffix)
      else .error (.badRename (db ++ suffix))) ∧
    ∀ name ns : String, matchesWord (pattern (escapeNamespace name)) ns.toList = true ↔ ns = name := by
  have hdollar : '$' ∉ suffix.toList := fun h => (hsuffix _ h).1 (by decide)
  have hsel := selectable_of_validate hreq
  have hdot : ∀ d ∈ base, '.' ∉ d.toList := fun d hd => forbidden_of_valid (hbase d hd) (by decide)
  refine ⟨fun db hdb coll => ?_, rfl, fun db => rfl, pattern_escape⟩
  · by_cases hnil : req.pitrDatabases = []
    · rw [mongorestore_whole hnil hdollar hdot hdb]
      have hs : (pitrFilter (RestoreRequest.info req suffix limit)).selected db =
          !(Oplog.systemDB db || isRescueClone db) := by
        simp [pitrFilter, Oplog.Filter.selected, RestoreRequest.info, hnil]
      rw [hs]
      cases Oplog.systemDB db || isRescueClone db <;> rfl
    · rw [mongorestore_named hnil hdollar (fun d hd => ⟨forbidden_of_valid (hsel d hd).valid (by decide),
        forbidden_of_valid (hsel d hd).valid (by decide)⟩) (hdot db hdb)]
      have hpos : 0 < req.pitrDatabases.length := List.length_pos_of_ne_nil hnil
      by_cases hmem : db ∈ req.pitrDatabases
      · have hs : (pitrFilter (RestoreRequest.info req suffix limit)).selected db = true := by
          simp [pitrFilter, Oplog.Filter.selected, RestoreRequest.info, hpos, hmem, (hsel db hmem).system,
            (hsel db hmem).clone]
        rw [hs]
        exact if_pos hmem
      · have hs : (pitrFilter (RestoreRequest.info req suffix limit)).selected db = false := by
          simp [pitrFilter, Oplog.Filter.selected, RestoreRequest.info, hpos, hmem]
        rw [hs]
        exact if_neg hmem

/-- Two of three databases of a base are selected; one name has a wildcard in it. -/
def twoSelected : RestoreRequest where
  pitr := some { streamID := "s1", ts := some ⟨5, 0⟩ }
  databases := ["shop", " a*b "]

theorem passes_agree_two :
    mongorestore (pitrBaseArgs "--config=c" (RestoreRequest.info twoSelected "_x" {})
      ["shop", "a*b", "aab"] true) "a*b.c.d" = some "a*b_x.c.d" ∧
    mongorestore (pitrBaseArgs "--config=c" (RestoreRequest.info twoSelected "_x" {})
      ["shop", "a*b", "aab"] true) "aab.c.d" = none := by
  have hsuffix : ∀ c ∈ "_x".toList, NameChar c := by
    intro c hc
    have hc : c ∈ ['_', 'x'] := hc
    simp only [List.mem_cons, List.not_mem_nil, or_false] at hc
    rcases hc with rfl | rfl <;> exact ⟨by decide, by decide⟩
  have h := (passes_agree twoSelected "_x" ["shop", "a*b", "aab"] (by decide +kernel) hsuffix
    (by decide +kernel) {} "c" true).1
  exact ⟨(h "a*b" (by decide) "c.d").trans (by decide +kernel),
    (h "aab" (by decide) "c.d").trans (by decide +kernel)⟩

/-! ## Restores in place -/

theorem nodup_of_check {seen l : List String} {u : Unit} (hs : seen.Nodup)
    (h : RestoreRequest.checkDatabases seen l = .ok u) : (seen ++ l.map Go.trimSpace).Nodup := by
  fun_induction RestoreRequest.checkDatabases seen l with
  | case1 => simpa using hs
  | case7 seen e l name _ _ _ hseen ih =>
    exact List.perm_middle.nodup_iff.mpr (ih (List.nodup_cons.mpr ⟨hseen, hs⟩) h)
  | _ => cases h

/-- The databases that the user confirmed. -/
def confirmed (t : PITRTarget) : List String :=
  (((t.confirmInPlace.toList.splitOn ',').map String.ofList).map Go.trimSpace).filter (· ≠ "")

/-- **A restore in place replaces the databases that were confirmed and no others**: an accepted request
selects some, none of them twice, a system database or a clone, and its confirmation names the same. -/
theorem in_place_confirmed {req : RestoreRequest} {t : PITRTarget} (hp : req.pitr = some t)
    (hin : t.inPlace = true) (h : req.validatePITR = .ok ()) :
    req.pitrDatabases ≠ [] ∧ req.pitrDatabases.Nodup ∧ (∀ db ∈ req.pitrDatabases, Selectable db) ∧
      (confirmed t).Perm req.pitrDatabases := by
  have hsel := selectable_of_validate h
  obtain ⟨hc, hin'⟩ := validatePITR_ok h
  have h := hin' t hp hin
  revert h
  fun_cases req.validatePITRInPlace t <;> intro h <;> cases h
  rename_i names want hne heq
  have heq : req.pitrDatabases.insertionSort (· ≤ ·) = (confirmed t).insertionSort (· ≤ ·) :=
    not_not.mp heq
  refine ⟨hne, (nodup_of_check List.nodup_nil hc).filter _, hsel, ?_⟩
  exact (List.perm_insertionSort _ _).symm.trans (heq ▸ List.perm_insertionSort _ _)

/-- Two databases, confirmed in another order. -/
def replaceTwo : PITRTarget := { streamID := "s1", ts := some ⟨5, 0⟩, inPlace := true, confirmInPlace := "b, a" }

theorem in_place_confirmed_two : (confirmed replaceTwo).Perm ["a", "b"] :=
  (@in_place_confirmed { databases := [" a ", "b"], pitr := some replaceTwo } _ rfl rfl (by decide +kernel)).2.2.2

end MongoRescue.Restore.Proof
