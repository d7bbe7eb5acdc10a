import MongoRescue.Oplog.Proof.Entries

/-!
# The document operations of a filtered stream

`flatten` lists the inserts, updates and deletes of an entry in order, through its applyOps commands
at any depth. What the filter writes flattens to what it read, restricted to the selected databases
and renamed (`expected`): nothing is lost, repeated, moved or added.

Every rewriter has one lemma: the commands other than applyOps flatten to nothing (`NoOps`), and the
operations nested in an applyOps are kept one by one (`Keeps`), by induction on the levels of nesting.
-/

namespace MongoRescue.Oplog.Proof

open Prog (Returns)

/-! ## Flattening -/

/-- The types of the document operations. -/
def crudOps : List String := ["i", "u", "d"]

/-- The operations of an applyOps array that are documents. -/
def docsOf (arr : Doc) : List Doc := arr.filterMap (·.2.doc?)

/-- The operations nested in an entry: those of an applyOps command. -/
def children (d : Doc) : List Doc :=
  if d.str "op" = some "c" ∧ commandName d = "applyOps" then
    docsOf (((d.doc "o").bind (Doc.array · "applyOps")).getD [])
  else []

variable {d entry o : Doc} {f : Filter} {db dst ns : String}

theorem sizeOf_value_lt {k : String} {v : Value} (h : (k, v) ∈ d) : sizeOf v < sizeOf d := by
  have h1 : sizeOf (k, v) < sizeOf d := List.sizeOf_lt_of_mem h
  have h2 : sizeOf (k, v) = 1 + sizeOf k + sizeOf v := rfl
  omega

theorem sizeOf_children {c : Doc} (h : c ∈ children d) : sizeOf c < sizeOf d := by
  unfold children at h
  split at h
  · rcases ho : d.doc "o" with _ | o
    · simp [ho, docsOf] at h
    rcases harr : o.array "applyOps" with _ | arr
    · simp [ho, harr, docsOf] at h
    simp only [ho, harr, Option.bind_some, Option.getD_some, docsOf, List.mem_filterMap] at h
    obtain ⟨x, hx, hc⟩ := h
    have h1 := sizeOf_value_lt (doc_mem ho)
    have h2 := sizeOf_value_lt (array_mem harr)
    have h3 : sizeOf x.2 < sizeOf arr := sizeOf_value_lt hx
    rw [doc?_eq hc] at h3
    simp only [Value.doc.sizeOf_spec, Value.array.sizeOf_spec] at h1 h2 h3
    omega
  · simp at h

/-- The inserts, updates and deletes of an entry in order, through the applyOps commands that `looks`
accepts. -/
def flatten (looks : Doc → Bool) (d : Doc) : List Doc :=
  if ∃ t ∈ crudOps, d.str "op" = some t then [d]
  else if looks d then (children d).attach.flatMap fun c => flatten looks c.1
  else []
termination_by sizeOf d
decreasing_by exact sizeOf_children c.2

/-- Every applyOps is looked into. -/
def everywhere : Doc → Bool := fun _ => true

/-- The applyOps commands the filter looks into: all but those on `config` and `local`. -/
def replayed (d : Doc) : Bool := database d ≠ some "config" ∧ database d ≠ some "local"

/-- An applyOps the filter looks into does not end as a command on a system database. -/
theorem replayed_iff (hdb : database d = some db) :
    replayed d ↔ ¬ (systemDB db ∧ (db ≠ "admin" ∨ "applyOps" ≠ "applyOps")) := by
  by_cases h : db = "admin" <;> simp [replayed, systemDB, hdb, h]

theorem replayed_admin (hns : d.str "ns" = some "admin.$cmd") : replayed d := by
  have hcut : cut "admin.$cmd" = some ("admin", "$cmd") := by decide
  simp [replayed, database, hns, hcut]

/-! ## What is to be written -/

/-- The database `db` is replayed into, whether or not its name is accepted. -/
def target (f : Filter) (db : String) : String :=
  if f.inPlace then db else match f.rename with
    | none => db
    | some r => r db

/-- What an insert, update or delete becomes: the operation with its database renamed and without the
stripped fields, or nothing when its database is not selected or it writes `system.views`. -/
def expected (f : Filter) (op : Doc) : Option Doc :=
  match (op.str "ns").bind cut with
  | none => none
  | some (db, coll) =>
    if f.selected db ∧ coll ≠ viewsCollection then
      some (op.rebuild fun k v =>
        if k ∈ strippedFields then none
        else if k = "ns" then some (.str (target f db ++ "." ++ coll))
        else some v)
    else none

theorem target_eq (h : f.renameDB db = .ok dst) : target f db = dst := by
  revert h
  fun_cases Filter.renameDB f db <;> intro h <;> cases h <;> simp_all [target]

theorem expected_crud {op : Doc} {coll : String} (hns : op.str "ns" = some ns)
    (hcut : cut ns = some (db, coll)) (hs : f.selected db) (hv : coll ≠ viewsCollection)
    (hd : f.renameDB db = .ok dst) : expected f op = some (op.rebuild fun k v =>
      if k ∈ strippedFields then none
      else if k = "ns" then some (.str (dst ++ "." ++ coll))
      else some v) := by
  simp [expected, hns, hcut, hs, hv, target_eq hd]

theorem expected_none {op : Doc} {coll : String} (hns : op.str "ns" = some ns)
    (hcut : cut ns = some (db, coll)) (h : f.selected db → coll = viewsCollection) :
    expected f op = none := by
  by_cases hs : f.selected db
  · simp [expected, hns, hcut, h hs]
  · simp [expected, hns, hcut, hs]

/-! ## Entries and what they flatten to -/

section
variable {looks : Doc → Bool} {d : Doc}

theorem flatten_crud {t : String} (ht : t ∈ crudOps) (hop : d.str "op" = some t) :
    flatten looks d = [d] := by
  rw [flatten, if_pos ⟨t, ht, hop⟩]

theorem flatten_not_crud (hop : ∀ t, d.str "op" = some t → t ∉ crudOps) :
    flatten looks d = if looks d then (children d).flatMap fun c => flatten looks c else [] := by
  have hneg : ¬ ∃ t ∈ crudOps, d.str "op" = some t := by
    intro h
    obtain ⟨t, ht, h⟩ := h
    exact hop t h ht
  rw [flatten, if_neg hneg, List.flatMap_subtype (g := fun c => flatten looks c) (by simp),
    List.unattach_attach]

theorem children_of_name (h : commandName d ≠ "applyOps") : children d = [] := by
  simp [children, h]

theorem children_of_op (h : d.str "op" ≠ some "c") : children d = [] := by
  simp [children, h]

theorem children_applyOps {o arr : Doc} (hop : d.str "op" = some "c")
    (hname : commandName d = "applyOps") (ho : d.doc "o" = some o)
    (harr : o.array "applyOps" = some arr) : children d = docsOf arr := by
  simp [children, hop, hname, ho, harr]

theorem flatten_command (hop : ∀ t, d.str "op" = some t → t = "c") (hname : commandName d ≠ "applyOps") :
    flatten looks d = [] := by
  rw [flatten_not_crud, children_of_name hname]
  · simp
  · intro t ht
    rw [hop t ht]
    decide

theorem flatten_applyOps {o arr : Doc} (hop : d.str "op" = some "c")
    (hname : commandName d = "applyOps") (ho : d.doc "o" = some o)
    (harr : o.array "applyOps" = some arr) (hl : looks d) :
    flatten looks d = (docsOf arr).flatMap fun c => flatten looks c := by
  rw [flatten_not_crud, if_pos hl, children_applyOps hop hname ho harr]
  intro t ht
  rw [str_unique hop t ht]
  decide

end

theorem docsOf_nestedArray {ops : List Doc} {arr : Doc} (h : nestedArray ops = .array arr) :
    docsOf arr = ops := by
  simp only [nestedArray, Value.array.injEq] at h
  subst h
  rw [docsOf, List.filterMap_map]
  calc List.filterMap (fun x => some x.1) ops.zipIdx
      = ops.zipIdx.map (·.1) := congrFun List.filterMap_eq_map' _
    _ = ops := List.zipIdx_map_fst 0 ops

/-- The entry flattens to nothing. -/
def NoOps (d : Doc) : Prop := flatten everywhere d = []

/-- A command other than applyOps that belongs to no transaction. -/
structure Plain (d : Doc) : Prop where
  op : ∀ t, d.str "op" = some t → t = "c"
  name : commandName d ≠ "applyOps"
  lsid : d.lookup "lsid" = none

theorem Plain.noOps (h : Plain d) : NoOps d := flatten_command h.op h.name

theorem plain_of_rebuild {cmd : Doc} {edit : String → Value → Option Value}
    (hop : ∀ t, (d.rebuild edit).str "op" = some t → t = "c")
    (ho : ∀ v, edit "o" v = some (.doc cmd)) (hl : ∀ v, edit "lsid" v = none)
    (h : cmd.head?.map (·.1) ≠ some "applyOps") : Plain (d.rebuild edit) := by
  refine ⟨hop, fun hn => ?_, Doc.lookup_rebuild_dropped hl⟩
  obtain ⟨v, rest, ho'⟩ := commandName_cons hn (by decide)
  simp [← doc_of_rebuild ho' ho] at h

theorem commandEntry_plain {cmd : Doc} (h : cmd.head?.map (·.1) ≠ some "applyOps") :
    Plain (commandEntry entry dst cmd) :=
  plain_of_rebuild (fun t ht => str_of_rebuild ht (by simp [strippedFields]))
    (by simp [strippedFields]) (by simp [strippedFields]) h

theorem rewriteEntry_op {t : String} (ns : String) (hop : entry.str "op" = some t) :
    (rewriteEntry entry ns o).str "op" = some t :=
  str_rebuild hop fun v => by simp [strippedFields]

theorem rewriteEntry_doc {o' : Doc} (ho : entry.doc "o" = some o) :
    (rewriteEntry entry ns o').doc "o" = some o' :=
  doc_rebuild o' ho fun v => by simp [strippedFields]

theorem rewriteEntry_lsid (entry : Doc) (ns : String) (o : Doc) :
    (rewriteEntry entry ns o).lookup "lsid" = none :=
  Doc.lookup_rebuild_dropped (by simp [strippedFields])

theorem rewriteEntry_plain {o' : Doc} (hop : entry.str "op" = some "c")
    (h : o'.head?.map (·.1) ≠ some "applyOps") : Plain (rewriteEntry entry ns o') :=
  plain_of_rebuild (str_unique (rewriteEntry_op ns hop)) (by simp [strippedFields])
    (by simp [strippedFields]) h

/-! ## Rewriters that write no document operation -/

/-- Every entry that is returned flattens to nothing. -/
def AllNoOps (out : List Doc) : Prop := ∀ d ∈ out, NoOps d

theorem allNoOps_nil : AllNoOps [] := by
  intro d hd
  cases hd

theorem AllNoOps.flatMap {out : List Doc} (h : AllNoOps out) :
    (out.flatMap fun d => flatten everywhere d) = [] := by
  rw [List.flatMap_eq_nil_iff]
  exact h

/-- Every entry that is returned is a plain command, counted once. -/
structure PlainOut (r : Replaced) : Prop where
  plain : ∀ d ∈ r.1, Plain d
  count : r.2 = r.1.length

namespace PlainOut

theorem noOps {r : Replaced} (h : PlainOut r) : AllNoOps r.1 := fun d hd => (h.plain d hd).noOps

theorem nil : PlainOut ([], 0) := ⟨by simp, rfl⟩

theorem one {d : Doc} (h : Plain d) : PlainOut ([d], 1) :=
  ⟨fun _ hd => List.mem_singleton.mp hd ▸ h, rfl⟩

theorem all {out : List Doc} (h : ∀ d ∈ out, Plain d) : PlainOut (out, out.length) := ⟨h, rfl⟩

end PlainOut

section
variable {f : Filter} {entry : Doc} {db : String} {nested : Doc → M Replaced} {s s' : State}

theorem asCommand_plain {cmd : Doc} (h : cmd.head?.map (·.1) ≠ some "applyOps") :
    Returns (asCommand f entry db cmd) Plain :=
  Returns.bind Returns.lift fun _ _ => Returns.pure (commandEntry_plain h)

theorem viewOp_plain (doc : Doc) (opType db : String) :
    Returns (viewOp f doc opType db) PlainOut := by
  unfold viewOp
  refine Returns.bind Returns.orFail fun o _ => Returns.bind Returns.orFail fun name _ => ?_
  refine Returns.ite (fun _ => ?_) fun _ => ?_
  · exact Returns.bind (asCommand_plain (by simp)) fun d hd => Returns.pure (.one hd)
  · split
    · refine Returns.ite (fun _ => Returns.pure .nil) fun _ => ?_
      refine Returns.bind (asCommand_plain ?_) fun d hd => Returns.pure (.one hd)
      by_cases hu : opType = "u" <;> simp [hu]
    · exact Returns.fail

theorem moveIndexes_plain (entry : Doc) (fromDB fromColl toDB toColl : String) :
    Returns (moveIndexes entry fromDB fromColl toDB toColl) fun out => ∀ d ∈ out, Plain d := by
  have hdrop : ∀ db coll, Plain (commandEntry entry db (dropAll coll)) := fun db coll =>
    commandEntry_plain (by simp [dropAll])
  unfold moveIndexes
  refine Returns.bind (Returns.any _) fun s _ => Returns.bind (Returns.any _) fun _ _ => ?_
  have hdropped : ∀ d ∈ (if (s.indexes (indexKey toDB toColl)).isEmpty then []
      else [commandEntry entry toDB (dropAll toColl)]), Plain d := by
    intro d hd
    split at hd
    · cases hd
    · exact List.mem_singleton.mp hd ▸ hdrop toDB toColl
  refine Returns.ite (fun _ => Returns.pure hdropped) fun _ => ?_
  refine Returns.bind (Returns.any _) fun _ _ => Returns.pure fun d hd => ?_
  simp only [List.mem_append, List.mem_map, List.mem_singleton] at hd
  rcases hd with (hd | ⟨x, -, rfl⟩) | rfl
  · exact hdropped d hd
  · exact commandEntry_plain (by simp)
  · exact hdrop fromDB fromColl

theorem dropTarget_plain (doc o : Doc) (dst coll : String) :
    Returns (Filter.dropTarget doc o dst coll) fun out => ∀ d ∈ out, Plain d := by
  unfold Filter.dropTarget
  refine Returns.ite (fun _ => ?_) fun _ => Returns.pure (by simp)
  refine Returns.bind (Returns.any _) fun _ _ => Returns.pure fun d hd => ?_
  exact List.mem_singleton.mp hd ▸ commandEntry_plain (by simp)

variable {doc o : Doc} {name : String}

theorem commitIndexBuild_plain (hop : doc.str "op" = some "c") (db : String) :
    Returns (f.commitIndexBuild doc o db) PlainOut := by
  unfold Filter.commitIndexBuild
  refine Returns.bind Returns.orFail fun coll _ => Returns.bind Returns.orFail fun specs _ => ?_
  refine Returns.bind Returns.lift fun dst _ => ?_
  refine Returns.bind (Returns.each (R := fun _ d => Plain d) fun x _ => ?_) fun out hout =>
    Returns.pure (.all fun d hd => ?_)
  · refine Returns.bind Returns.orFail fun spec _ => Returns.bind (Returns.any _) fun _ _ => ?_
    exact Returns.pure (rewriteEntry_plain hop (by simp))
  · obtain ⟨_, _, h⟩ := Prog.exists_left_of_forall₂ hout hd
    exact h

theorem timeseriesCreate_head {cmd : Doc} (h : timeseriesCreate o = some cmd) :
    cmd.head?.map (·.1) = some "create" := by
  simp only [timeseriesCreate, Option.bind_eq_bind, Option.bind_eq_some_iff] at h
  obtain ⟨n, -, ts, -, h⟩ := h
  split at h
  · cases h
  · cases h
    rfl

section
variable (hop : doc.str "op" = some "c") (hname : o.head?.map (·.1) = some name)
  (hne : name ≠ "applyOps")
include hop hname hne

theorem renameCollection_plain : Returns (f.renameCollection doc o) PlainOut := by
  have hentry : ∀ ns src dst, Plain (rewriteEntry doc ns (Filter.renameCommand o src dst)) := by
    intro ns src dst
    refine rewriteEntry_plain hop ?_
    rw [Filter.renameCommand, head_rebuild, hname]
    · simpa using hne
    · intro k v
      split <;> [rfl; split <;> [rfl; split <;> rfl]]
  unfold Filter.renameCollection
  refine Returns.bind Returns.orFail fun src _ => Returns.bind Returns.orFail fun dst _ => ?_
  refine Returns.bind Returns.orFail fun p _ => Returns.bind Returns.orFail fun q _ => ?_
  obtain ⟨srcDB, srcColl⟩ := p
  obtain ⟨dstDB, dstColl⟩ := q
  refine Returns.ite (fun _ => Returns.fail) fun _ => Returns.ite (fun _ => ?_) fun _ => ?_
  · exact Returns.pure .nil
  · refine Returns.bind Returns.lift fun newSrc _ => Returns.bind Returns.lift fun newDst _ => ?_
    refine Returns.bind (dropTarget_plain doc o newDst dstColl) fun dropped hdropped => ?_
    refine Returns.bind (moveIndexes_plain doc newSrc srcColl newDst dstColl) fun moves hmoves => ?_
    refine Returns.pure (.all fun d hd => ?_)
    simp only [List.mem_append, List.mem_singleton] at hd
    rcases hd with (hd | rfl) | hd
    · exact hdropped d hd
    · exact hentry _ _ _
    · exact hmoves d hd

theorem ddl_plain (db : String) : Returns (f.ddl doc o db) Plain := by
  unfold Filter.ddl
  refine Returns.bind Returns.lift fun dst _ => Returns.pure ?_
  have hhead : (Filter.ddlCommand o db dst).head?.map (·.1) ≠ some "applyOps" := by
    rw [Filter.ddlCommand, head_rebuild, hname]
    · simpa using hne
    · intro k v
      split <;> rfl
  exact plain_of_rebuild (str_unique (str_rebuild hop (by simp [strippedFields])))
    (by simp [strippedFields]) (by simp [strippedFields]) hhead

theorem ddlOp_plain (db : String) : Returns (f.ddlOp doc o db name) PlainOut := by
  unfold Filter.ddlOp
  refine Returns.ite (fun _ => Returns.pure .nil) fun _ => ?_
  split
  · rename_i cmd _ hcmd
    refine Returns.bind (asCommand_plain ?_) fun d hd => Returns.pure (.one hd)
    simp [timeseriesCreate_head hcmd]
  · refine Returns.bind (ddl_plain hop hname hne db) fun d hd => ?_
    refine Returns.bind Returns.lift fun dst _ => Returns.bind (Returns.any _) fun _ _ => ?_
    exact Returns.pure (.one hd)

end

/-! ## Operations -/

/-- What replaces `doc` flattens to the expected operations of `doc`. -/
def Keeps (f : Filter) (doc : Doc) (out : List Doc) : Prop :=
  (out.flatMap fun d => flatten everywhere d) = (flatten replayed doc).filterMap (expected f)

/-- What the filtering of the operations of an applyOps is to do. -/
def NestedKeeps (f : Filter) (nested : Doc → M Replaced) : Prop :=
  ∀ o, Returns (nested o) fun out => ∃ arr, o.array "applyOps" = some arr ∧
    (out.1.flatMap fun d => flatten everywhere d) =
      ((docsOf arr).flatMap fun c => flatten replayed c).filterMap (expected f)

theorem keeps_of_noOps {out : List Doc} (h : AllNoOps out) (hd : flatten replayed doc = []) :
    Keeps f doc out := by
  rw [Keeps, h.flatMap, hd]
  rfl

/-- An applyOps entry around `ops` has them as its operations. -/
theorem children_wrapper {d o rest : Doc} {ops : List Doc} (hop : d.str "op" = some "c")
    (ho : d.doc "o" = some o) (hc : o = ("applyOps", nestedArray ops) :: rest) :
    children d = ops := by
  obtain ⟨arr, harr⟩ : ∃ arr, nestedArray ops = .array arr := ⟨_, rfl⟩
  subst hc
  have hname : commandName d = "applyOps" := by simp [commandName, ho]
  have ha : Doc.array (("applyOps", nestedArray ops) :: rest) "applyOps" = some arr := by
    simp [Doc.array, Doc.lookup, harr, Value.array?]
  rw [children_applyOps hop hname ho ha, docsOf_nestedArray harr]

theorem flatten_wrapper {d o rest : Doc} {ops : List Doc} (hop : d.str "op" = some "c")
    (ho : d.doc "o" = some o) (hc : o = ("applyOps", nestedArray ops) :: rest) :
    flatten everywhere d = ops.flatMap fun c => flatten everywhere c := by
  rw [flatten_not_crud, everywhere, if_pos rfl, children_wrapper hop ho hc]
  intro t ht
  rw [str_unique hop t ht]
  decide

theorem applyOpsCommand_cons {v : Value} {rest : Doc} (ops : List Doc)
    (hc : o = ("applyOps", v) :: rest) : Filter.applyOpsCommand o ops =
      ("applyOps", nestedArray ops) :: Filter.applyOpsCommand rest ops := by
  simp [Filter.applyOpsCommand, Doc.rebuild, hc]

theorem txnCommand_cons (v : Value) (rest : Doc) (ops : List Doc) (n : Int) :
    txnCommand (("applyOps", v) :: rest) ops n =
      ("applyOps", nestedArray ops) :: txnCommand rest ops n := by
  simp [txnCommand, Doc.rebuild]

theorem applyOps_keeps (hn : NestedKeeps f nested) (hop : doc.str "op" = some "c")
    (ho : doc.doc "o" = some o) (hname : o.head?.map (·.1) = some "applyOps") (hl : replayed doc)
    (db : String) : Returns (f.applyOps nested doc o db) fun out => Keeps f doc out.1 := by
  obtain ⟨⟨_, v⟩, hhead, rfl⟩ := Option.map_eq_some_iff.mp hname
  obtain ⟨rest, hcons⟩ := List.head?_eq_some_iff.mp hhead
  unfold Filter.applyOps
  refine Returns.bind (hn o) fun out hout => ?_
  obtain ⟨ops, n⟩ := out
  obtain ⟨arr, harr, hops⟩ := hout
  have hdoc : flatten replayed doc = (docsOf arr).flatMap fun c => flatten replayed c :=
    flatten_applyOps hop (commandName_head ho hname) ho harr hl
  refine Returns.ite (fun he => Returns.pure ?_) fun _ => ?_
  · -- nothing is left, so nothing of the entry was to be written
    have he : ops = [] := by simpa using he
    subst he
    rw [Keeps, hdoc, ← hops]
  · refine Returns.bind (Returns.any _) fun ns _ => Returns.pure ?_
    have hw := flatten_wrapper (rewriteEntry_op ns hop) (rewriteEntry_doc ho)
      (applyOpsCommand_cons ops hcons)
    rw [Keeps, hdoc, ← hops]
    simp [hw]

theorem command_keeps (hn : NestedKeeps f nested) (hop : doc.str "op" = some "c")
    (hdb : database doc = some db) :
    Returns (f.command nested doc db) fun out => Keeps f doc out.1 := by
  unfold Filter.command
  refine Returns.bind Returns.orFail fun o ho => Returns.bind Returns.orFail fun p hh => ?_
  obtain ⟨name, v⟩ := p
  have hname : o.head?.map (·.1) = some name := by simp [hh]
  have hcn : commandName doc = name := commandName_head ho hname
  -- a command that is no applyOps has no document operation
  have hnone : name ≠ "applyOps" → flatten replayed doc = [] := fun hne =>
    flatten_command (str_unique hop) (hcn ▸ hne)
  have hdrop : name ≠ "applyOps" →
      Returns (pure ([], 0) : M Replaced) fun out => Keeps f doc out.1 := fun hne =>
    Returns.pure (keeps_of_noOps allNoOps_nil (hnone hne))
  refine Returns.ite (fun hr => ?_) fun _ => Returns.ite (fun hsys => ?_) fun hsys =>
    Returns.ite (fun ha => ?_) fun hne => ?_
  · have hne : name ≠ "applyOps" := by simp [hr]
    exact (renameCollection_plain hop hname hne).mono fun out h => keeps_of_noOps h.noOps (hnone hne)
  · refine Returns.pure (keeps_of_noOps allNoOps_nil ?_)
    by_cases hne : name = "applyOps"
    · subst hne
      rw [flatten_not_crud, if_neg fun h => (replayed_iff hdb).mp h hsys]
      intro t ht
      rw [str_unique hop t ht]
      decide
    · exact hnone hne
  · subst ha
    exact applyOps_keeps hn hop ho hname ((replayed_iff hdb).mpr hsys) db
  · refine Returns.ite (fun _ => ?_) fun _ => Returns.ite (fun _ => ?_) fun _ =>
      Returns.ite (fun _ => hdrop hne) fun _ => Returns.fail
    · refine Returns.ite (fun _ => hdrop hne) fun _ => ?_
      exact (ddlOp_plain hop hname hne db).mono fun out h => keeps_of_noOps h.noOps (hnone hne)
    · refine Returns.ite (fun _ => hdrop hne) fun _ => ?_
      exact (commitIndexBuild_plain hop db).mono fun out h => keeps_of_noOps h.noOps (hnone hne)

theorem crud_keeps {t ns coll : String} (ht : t ∈ crudOps) (hop : doc.str "op" = some t)
    (hns : doc.str "ns" = some ns) (hcut : cut ns = some (db, coll)) (hs : f.selected db)
    (hv : coll ≠ viewsCollection) : Returns (f.crud doc db coll) fun d => Keeps f doc [d] := by
  unfold Filter.crud
  refine Returns.bind Returns.lift fun dst hd => Returns.pure ?_
  have hop' : Doc.str (doc.rebuild fun k v => if k ∈ strippedFields then none
      else if k = "ns" then some (.str (dst ++ "." ++ coll)) else some v) "op" = some t :=
    str_rebuild hop fun v => by simp [strippedFields]
  simp [Keeps, flatten_crud ht hop, flatten_crud ht hop', expected_crud hns hcut hs hv hd]

theorem opWith_keeps (hn : NestedKeeps f nested) (doc : Doc) :
    Returns (f.opWith nested doc) fun out => Keeps f doc out.1 := by
  unfold Filter.opWith
  refine Returns.bind Returns.orFail fun t hop => Returns.ite (fun hi => ?_) fun _ => ?_
  · refine Returns.pure (keeps_of_noOps allNoOps_nil ?_)
    have hc : doc.str "op" ≠ some "c" := by
      intro h
      rw [hop, Option.some.injEq] at h
      simp [h, ignoredOps] at hi
    rw [flatten_not_crud, children_of_op hc]
    · simp
    · intro t' ht'
      rw [str_unique hop t' ht']
      revert hi
      simp only [ignoredOps, List.mem_cons, List.not_mem_nil, or_false]
      rintro (rfl | rfl | rfl | rfl | rfl) <;> decide
  · refine Returns.bind Returns.orFail fun ns hns => Returns.bind Returns.orFail
      fun p hcut => ?_
    obtain ⟨db, coll⟩ := p
    have hcut : cut ns = some (db, coll) := (Option.filter_eq_some_iff.mp hcut).1
    refine Returns.ite (fun ht => ?_) fun _ => Returns.ite (fun ht => ?_) fun _ => Returns.fail
    · have ht : t ∈ crudOps := by simpa [crudOps] using ht
      -- an operation that is not to be written
      have hskip : (f.selected db → coll = viewsCollection) → ∀ out, AllNoOps out →
          Keeps f doc out := by
        intro h out hout
        simp [Keeps, hout.flatMap, flatten_crud ht hop, expected_none hns hcut h]
      refine Returns.ite (fun hs => Returns.pure (hskip (fun h => ?_) _ allNoOps_nil)) fun hs =>
        Returns.ite (fun hv => ?_) fun hv => ?_
      · simp [h] at hs
      · exact (viewOp_plain doc t db).mono fun out h => hskip (fun _ => hv) _ h.noOps
      · refine Returns.bind (crud_keeps ht hop hns hcut (by simpa using hs) hv) fun d hd => ?_
        exact Returns.pure hd
    · subst ht
      exact command_keeps hn hop (by simp [database, hns, hcut])

theorem nested_keeps (f : Filter) (levels : Nat) : NestedKeeps f (f.nested levels) := by
  induction levels with
  | zero => exact fun _ => Returns.fail
  | succ levels ih =>
    intro o
    unfold Filter.nested
    refine Returns.bind Returns.orFail fun arr harr => ?_
    refine Returns.bind (Returns.each (R := fun x (out : Replaced) => ∃ c, x.2.doc? = some c ∧
      Keeps f c out.1) fun x _ => ?_) fun outs houts => Returns.pure ⟨arr, harr, ?_⟩
    · refine Returns.bind Returns.orFail fun c hc => ?_
      exact (opWith_keeps ih c).mono fun out h => ⟨c, hc, h⟩
    · clear harr
      induction houts with
      | nil => rfl
      | cons h _ ih =>
        obtain ⟨c, hc, hk⟩ := h
        rw [Keeps] at hk
        simp only [docsOf] at ih
        simp [docsOf, hc, hk, ih]

/-! ## Transactions -/

theorem txnEntry_op {edit : String → Value → Value} {t : String} (hop : entry.str "op" = some t) :
    (txnEntry entry edit).str "op" = some t :=
  str_rebuild hop fun v => by simp [strippedFields]

theorem txnEntry_command {o : Doc} (o' : Doc) (ho : entry.doc "o" = some o) :
    (txnEntry entry fun _ _ => .doc o').doc "o" = some o' :=
  doc_rebuild o' ho fun v => by simp

theorem txnEnd_keeps {id : Go.Bytes} (hop : entry.str "op" = some "c")
    (hname : commandName entry = "commitTransaction" ∨ commandName entry = "abortTransaction") :
    Returns (Filter.txnEnd entry id) fun out => Keeps f entry out.1 := by
  have hne : commandName entry ≠ "applyOps" := by
    rcases hname with h | h <;> simp [h]
  have hentry : flatten replayed entry = [] := flatten_command (str_unique hop) hne
  have hd : NoOps (txnEntry entry fun _ v => v) := by
    refine flatten_command (str_unique (txnEntry_op hop)) ?_
    have ho : (txnEntry entry fun _ v => v).lookup "o" = entry.lookup "o" := by
      rcases h : entry.lookup "o" with _ | v
      · exact Doc.lookup_rebuild_none h
      · exact Doc.lookup_rebuild h (by simp)
    simpa [commandName, Doc.doc, ho] using hne
  have hall : AllNoOps [txnEntry entry fun _ v => v] := by simpa [AllNoOps] using hd
  have hone := keeps_of_noOps (f := f) hall hentry
  have hnil := keeps_of_noOps (f := f) allNoOps_nil hentry
  unfold Filter.txnEnd
  refine Returns.bind (Returns.any _) fun s _ => Returns.bind (Returns.any _) fun _ _ => ?_
  split
  · exact Returns.pure hnil
  · refine Returns.ite (fun _ => Returns.pure hnil) fun _ => ?_
    exact Returns.ite (fun _ => Returns.pure hone) fun _ => Returns.pure hone

theorem txnApplyOps_keeps {id : Go.Bytes} (hop : entry.str "op" = some "c")
    (hns : entry.str "ns" = some "admin.$cmd") (hname : commandName entry = "applyOps") :
    Returns (f.txnApplyOps entry id) fun out => Keeps f entry out.1 := by
  obtain ⟨v, rest, ho⟩ := commandName_cons hname (by decide)
  unfold Filter.txnApplyOps
  refine Returns.bind (Returns.any _) fun s _ => ?_
  simp only [ho, Option.getD_some]
  refine Returns.bind (nested_keeps f _ _) fun out hout => ?_
  obtain ⟨ops, n⟩ := out
  obtain ⟨arr, harr, hops⟩ := hout
  have hdoc : flatten replayed entry = (docsOf arr).flatMap fun c => flatten replayed c :=
    flatten_applyOps hop hname ho harr (replayed_admin hns)
  have hentry : ∀ n, Keeps f entry
      [txnEntry entry fun _ _ => .doc (txnCommand (("applyOps", v) :: rest) ops n)] := by
    intro n
    have hw := flatten_wrapper (txnEntry_op hop) (txnEntry_command _ ho)
      (txnCommand_cons v rest ops n)
    rw [Keeps, hdoc, ← hops]
    simp [hw]
  refine Returns.ite (fun he => ?_) fun _ => ?_
  · refine Returns.bind (Returns.any _) fun _ _ => Returns.pure ?_
    have he : ops = [] := by simpa using he.1
    subst he
    rw [Keeps, hdoc, ← hops]
  · refine Returns.bind (Returns.any _) fun _ _ => ?_
    exact Returns.ite (fun _ => Returns.pure (hentry _)) fun _ => Returns.pure (hentry _)

theorem entryOp_keeps (f : Filter) (d : Doc) :
    Returns (f.entryOp d) fun out => Keeps f d out.1 := by
  unfold Filter.entryOp
  split
  · rename_i id hid
    obtain ⟨hop, hname⟩ := txnID_spec hid
    unfold Filter.transaction
    refine Returns.ite (fun _ => Returns.fail) fun hns => Returns.ite (txnEnd_keeps hop) fun h => ?_
    refine txnApplyOps_keeps hop (not_not.mp hns) ?_
    simp only [wrapperNames, List.mem_cons, List.not_mem_nil, or_false] at hname
    tauto
  · exact opWith_keeps (nested_keeps f _) d

/-! ## The stream -/

/-- The entries before the first one at or after the limit. -/
def beforeLimit (limit : Timestamp) : List Filter.Raw → List Doc
  | [] => []
  | .malformed :: rest => beforeLimit limit rest
  | .doc d :: rest =>
    match (d.lookup "ts").bind Value.timestamp? with
    | none => d :: beforeLimit limit rest
    | some ts => if limit ≠ {} ∧ !ts.before limit then [] else d :: beforeLimit limit rest

/-- An entry at or after the limit. -/
def atLimit (limit ts : Timestamp) : Prop := limit ≠ {} ∧ !ts.before limit

theorem beforeLimit_at {ts : Timestamp} {limit : Timestamp} (rest : List Filter.Raw)
    (hts : (d.lookup "ts").bind Value.timestamp? = some ts) (hat : atLimit limit ts) :
    beforeLimit limit (.doc d :: rest) = [] := by
  simp only [beforeLimit, hts]
  exact if_pos hat

theorem beforeLimit_before {ts : Timestamp} {limit : Timestamp} (rest : List Filter.Raw)
    (hts : (d.lookup "ts").bind Value.timestamp? = some ts) (hat : ¬ atLimit limit ts) :
    beforeLimit limit (.doc d :: rest) = d :: beforeLimit limit rest := by
  simp only [beforeLimit, hts]
  exact if_neg hat

/-- The state after `out` was written. -/
def emit (s : State) (out : List Doc) : State :=
  { s with emitted := s.emitted ++ out, entries := s.entries + out.length }

theorem emitAll_ok {out : List Doc} {fails : Option Nat} {u : Unit}
    (h : Filter.emitAll out fails s = (.ok u, s')) : s' = emit s out := by
  unfold Filter.emitAll at h
  obtain ⟨_, t, ht, h⟩ := Prog.bind_ok h
  cases ht
  cases fails with
  | none =>
    cases h
    rfl
  | some n =>
    dsimp only at h
    split at h
    · cases h
    · rename_i hn
      cases h
      simp [emit, List.take_of_length_le (not_lt.mp hn)]

/-- What one call of `Apply` that returns no error does: nothing after the limit; at it, the stream
ends; before it, it writes what replaces the entry. -/
theorem apply_ok {entry : Filter.Raw} {fails : Option Nat} {b : Bool}
    (h : f.apply entry fails s = (.ok b, s')) : (s.limitReached = true ∧ b = true ∧ s' = s) ∨
    (s.limitReached = false ∧ ∃ d ts, entry = .doc d ∧
      (d.lookup "ts").bind Value.timestamp? = some ts ∧
      ((atLimit f.limit ts ∧ b = true ∧ s' = { s with limitReached := true }) ∨
        (¬ atLimit f.limit ts ∧ b = false ∧ ∃ out n t, f.entryOp d s = (.ok (out, n), t) ∧
          s' = { emit t out with ops := t.ops + n }))) := by
  unfold Filter.apply at h
  split at h
  · cases h
  obtain ⟨s0, t0, h0, h⟩ := Prog.bind_ok h
  cases h0
  split at h
  · rename_i hl
    cases h
    exact .inl ⟨hl, rfl, rfl⟩
  rename_i hl
  refine .inr ⟨by simpa using hl, ?_⟩
  cases entry with
  | malformed => cases h
  | doc d =>
    obtain ⟨ts, hts, hrest⟩ := Prog.orFail_ok h
    refine ⟨d, ts, rfl, hts, ?_⟩
    by_cases hat : f.limit ≠ {} ∧ !ts.before f.limit
    · rw [if_pos hat] at hrest
      obtain ⟨_, t2, h2, hrest⟩ := Prog.bind_ok hrest
      cases h2
      cases hrest
      exact .inl ⟨hat, rfl, rfl⟩
    · rw [if_neg hat] at hrest
      obtain ⟨⟨out, n⟩, t2, h2, hrest⟩ := Prog.bind_ok hrest
      obtain ⟨_, t3, h3, hrest⟩ := Prog.bind_ok hrest
      obtain ⟨_, t4, h4, hrest⟩ := Prog.bind_ok hrest
      cases h4
      cases hrest
      refine .inr ⟨hat, rfl, out, n, t2, h2, ?_⟩
      rw [emitAll_ok h3]
      rfl

/-- What filtering an entry leaves alone. -/
theorem entryOp_progress {d : Doc} {t : State} {r : Replaced} (h : f.entryOp d s = (.ok r, t)) :
    t.emitted = s.emitted ∧ t.limitReached = s.limitReached := by
  have hfr := (entryOp_frames f d).eq s
  rw [h] at hfr
  simpa [progress] using hfr

/-- The stream of calls of `Apply`, up to the first error. -/
def applyAll (f : Filter) (es : List (Filter.Raw × Option Nat)) : M (List Bool) :=
  Prog.each (fun e => f.apply e.1 e.2) es

theorem applyAll_cons {e : Filter.Raw × Option Nat} {es : List (Filter.Raw × Option Nat)}
    {bs : List Bool} (h : applyAll f (e :: es) s = (.ok bs, s')) :
    ∃ b t bs', f.apply e.1 e.2 s = (.ok b, t) ∧ applyAll f es t = (.ok bs', s') := by
  obtain ⟨b, t, hb, h⟩ := Prog.bind_ok h
  obtain ⟨bs', t', hbs, h⟩ := Prog.bind_ok h
  cases h
  exact ⟨b, t, bs', hb, hbs⟩

theorem applyAll_keeps {es : List (Filter.Raw × Option Nat)} {bs : List Bool}
    (h : applyAll f es s = (.ok bs, s')) : ∃ out, s'.emitted = s.emitted ++ out ∧
      (out.flatMap fun d => flatten everywhere d) = if s.limitReached then [] else
        ((beforeLimit f.limit (es.map (·.1))).flatMap fun d => flatten replayed d).filterMap
          (expected f) := by
  induction es generalizing s bs with
  | nil =>
    cases h
    exact ⟨[], by simp, by simp [beforeLimit]⟩
  | cons e es ih =>
    obtain ⟨b, t, bs', hb, hbs⟩ := applyAll_cons h
    obtain ⟨out, hout, hflat⟩ := ih hbs
    rcases apply_ok hb with ⟨hl, -, rfl⟩ | ⟨hl, d, ts, hd, hts, hrest⟩
    · exact ⟨out, hout, by simpa [hl] using hflat⟩
    rcases hrest with ⟨hat, -, rfl⟩ | ⟨hat, -, out', n, u, hop, rfl⟩
    · refine ⟨out, hout, ?_⟩
      rw [hflat, List.map_cons, hd, beforeLimit_at _ hts hat]
      simp [hl]
    · obtain ⟨hem, hlim⟩ := entryOp_progress hop
      have hk : Keeps f d out' := entryOp_keeps f d _ _ _ hop
      refine ⟨out' ++ out, by rw [hout]; simp [emit, hem], ?_⟩
      rw [Keeps] at hk
      rw [List.flatMap_append, hk, hflat, List.map_cons, hd, beforeLimit_before _ hts hat]
      simp [emit, hl, hlim]

/-- **No document operation is lost, repeated, moved or added**: what a stream without errors wrote
flattens to the operations of its entries before the limit, restricted to the selected databases,
renamed and stripped. Commands on `config` and `local` are not replayed, applyOps included. -/
theorem operations_kept {f : Filter} {es : List (Filter.Raw × Option Nat)} {bs : List Bool}
    {s : State} (h : applyAll f es {} = (.ok bs, s)) :
    (s.emitted.flatMap fun d => flatten everywhere d) =
      ((beforeLimit f.limit (es.map (·.1))).flatMap fun d => flatten replayed d).filterMap
        (expected f) := by
  obtain ⟨out, hout, hflat⟩ := applyAll_keeps h
  have hs : s.emitted = out := by simpa using hout
  rw [hs, hflat]
  simp

end

/-! ## Two streams -/

/-- An insert into `ns`, with the UUID of its collection. -/
def insertInto (ns : String) : Doc :=
  [("op", .str "i"), ("ns", .str ns), ("ui", .other 5 [1]), ("o", .doc [("_id", .int32 1)])]

/-- The first part of a transaction that writes `src.a`, another database, and `src.b` in a nested
applyOps. -/
def txnPart : Doc :=
  [("ts", .timestamp 1 1), ("op", .str "c"), ("ns", .str "admin.$cmd"), ("lsid", .int32 7),
    ("txnNumber", .int64 1),
    ("o", .doc [("applyOps", nestedArray [insertInto "src.a", insertInto "other.a",
      [("op", .str "c"), ("ns", .str "admin.$cmd"),
        ("o", .doc [("applyOps", nestedArray [insertInto "src.b"])])]]),
      ("partialTxn", .bool true)])]

def txnCommit : Doc :=
  [("ts", .timestamp 2 1), ("op", .str "c"), ("ns", .str "admin.$cmd"), ("lsid", .int32 7),
    ("txnNumber", .int64 1), ("o", .doc [("commitTransaction", .int32 1)])]

theorem operations_kept_transaction : ∃ bs s,
    applyAll cloneSrc [(.doc txnPart, none), (.doc txnCommit, none)] {} = (.ok bs, s) ∧
      s.emitted.length = 2 ∧ s.ops = 3 ∧
      (s.emitted.flatMap fun d => flatten everywhere d) =
        ((beforeLimit cloneSrc.limit [.doc txnPart, .doc txnCommit]).flatMap
          fun d => flatten replayed d).filterMap (expected cloneSrc) := by
  have hrun : let r := applyAll cloneSrc [(.doc txnPart, none), (.doc txnCommit, none)] {}
      r.1.toOption = some [false, false] ∧ r.2.emitted.length = 2 ∧ r.2.ops = 3 := by
    decide +kernel
  rcases h : applyAll cloneSrc [(.doc txnPart, none), (.doc txnCommit, none)] {} with ⟨r, s⟩
  rw [h] at hrun
  obtain ⟨hr, hl, hn⟩ := hrun
  cases r with
  | error e => cases hr
  | ok bs => exact ⟨bs, s, rfl, hl, hn, operations_kept h⟩

/-- An applyOps on `config` that writes a selected database. -/
def configApplyOps : Doc :=
  [("ts", .timestamp 1 1), ("op", .str "c"), ("ns", .str "config.$cmd"),
    ("o", .doc [("applyOps", nestedArray [insertInto "src.a"])])]

/-- Commands on `config` are not replayed: the insert in such an applyOps is dropped. -/
theorem config_applyOps_dropped : ∃ bs s,
    applyAll cloneSrc [(.doc configApplyOps, none)] {} = (.ok bs, s) ∧
      (s.emitted.flatMap fun d => flatten everywhere d) ≠
        ((beforeLimit cloneSrc.limit [.doc configApplyOps]).flatMap
          fun d => flatten everywhere d).filterMap (expected cloneSrc) := by
  obtain ⟨bs, s, h, he⟩ : ∃ bs s,
      applyAll cloneSrc [(.doc configApplyOps, none)] {} = (.ok bs, s) ∧ s.emitted = [] :=
    ⟨_, _, rfl, rfl⟩
  refine ⟨bs, s, h, ?_⟩
  have hb : beforeLimit cloneSrc.limit [.doc configApplyOps] = [configApplyOps] := rfl
  have hw : flatten everywhere configApplyOps =
      [insertInto "src.a"].flatMap fun c => flatten everywhere c := flatten_wrapper rfl rfl rfl
  have hflat : flatten everywhere configApplyOps = [insertInto "src.a"] := by
    rw [hw, List.flatMap_singleton, flatten_crud (t := "i") (by decide) rfl]
  have hexp : (expected cloneSrc (insertInto "src.a")).isSome := rfl
  obtain ⟨d, hd⟩ := Option.isSome_iff_exists.mp hexp
  rw [he, hb, List.flatMap_singleton, hflat]
  simp [hd]

end MongoRescue.Oplog.Proof
