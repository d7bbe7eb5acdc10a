import MongoRescue.Lib.Glob
import MongoRescue.Oplog.Proof.Transactions

/-!
# The index catalog of a replay

`indexOps` lists what an entry does to index specifications, through its applyOps commands; a catalog
holds the specifications of each collection. The true catalog follows the entries that are read, renames
included (`Catalog.step`). mongorestore follows the entries that are written, but not their renames
(`Catalog.replay`). The filter writes the entries that make up for it.

`Sim` relates the two catalogs and the filter's own record of what it wrote: all three agree on every
selected database, under the name it is replayed into. Every rewriter has one lemma that keeps it
(`ddlOp_sim`, `commitIndexBuild_sim`, `renameCollection_sim`, `viewOp_sim`), applyOps commands keep it by
induction on the levels of nesting (`nested_sim`), and `catalogs_agree` follows by induction on the stream.
-/

namespace MongoRescue.Oplog.Proof

open Go (Bytes)

/-! ## Catalogs -/

/-- An index specification without the names it is filed under: its `ns` fields, and the collection of a
createIndexes. -/
def bareSpec (spec : Doc) : Doc :=
  spec.rebuild fun k v =>
    if k = "ns" ∨ k = "createIndexes" then none
    else if k = "idIndex" then
      match v with
      | .doc d => some (.doc (Doc.rebuild d fun k v => if k = "ns" then none else some v))
      | _ => some v
    else some v

/-- What an operation does to index specifications. -/
inductive IndexOp
  | create (db coll : String) (spec : Doc)
  | drop (db coll : String)
  | dropDatabase (db : String)
  | dropIndexes (db coll : String) (index : Option Value)
  | rename (srcDB srcColl dstDB dstColl : String)
  /-- A view is dropped by a delete from `system.views`. It has no indexes. -/
  | dropView (db name : String)

/-- A dropIndexes by `index` removes the specification: by its name, by its key pattern, or all. -/
def removedBy (index : Option Value) (spec : Doc) : Bool :=
  match index with
  | some (.str s) => s = "*" || (spec.str "name").getD "" = s
  | some (.doc d) => ((spec.lookup "key").map Value.encode).getD [] = (Value.doc d).encode
  | _ => false

/-- The index specifications of each collection, by database and name. -/
abbrev Catalog := String → String → List Doc

namespace Catalog

def put (c : Catalog) (db coll : String) (specs : List Doc) : Catalog :=
  fun a b => if a = db ∧ b = coll then specs else c a b

/-- What an operation does to a catalog. -/
def step (c : Catalog) : IndexOp → Catalog
  | .create db coll spec => c.put db coll (c db coll ++ [spec])
  | .drop db coll => c.put db coll []
  | .dropDatabase db => fun a b => if a = db then [] else c a b
  | .dropIndexes db coll index => c.put db coll ((c db coll).filter (!removedBy index ·))
  | .rename srcDB srcColl dstDB dstColl =>
    (c.put dstDB dstColl (c srcDB srcColl)).put srcDB srcColl []
  | .dropView _ _ => c

/-- What mongorestore makes of an operation: its catalog does not follow renames. -/
def replay (c : Catalog) : IndexOp → Catalog
  | .rename _ _ _ _ => c
  | op => c.step op

end Catalog

/-! ## Reading entries -/

/-- What a command on `db` does to index specifications, applyOps aside. -/
def commandIndexOps (db : String) (o : Doc) : List IndexOp :=
  match o with
  | [] => []
  | (name, _) :: _ =>
    let coll := (o.str name).getD ""
    if name = "createIndexes" then [.create db coll (bareSpec o)]
    else if name = "commitIndexBuild" then
      (docsOf ((o.array "indexes").getD [])).map fun spec => .create db coll (bareSpec spec)
    else if name = "drop" then [.drop db coll]
    else if name = "dropDatabase" then [.dropDatabase db]
    else if name ∈ dropIndexesNames then [.dropIndexes db coll (o.lookup "index")]
    else if name = "renameCollection" then
      match (o.str "renameCollection").bind cut, (o.str "to").bind cut with
      | some src, some dst => [.rename src.1 src.2 dst.1 dst.2]
      | _, _ => []
    else []

/-- What an operation does to index specifications, those in its applyOps aside. -/
def ownIndexOps (d : Doc) : List IndexOp :=
  match (d.str "ns").bind cut with
  | none => []
  | some (db, coll) =>
    if d.str "op" = some "c" then commandIndexOps db ((d.doc "o").getD [])
    else if d.str "op" = some "d" ∧ coll = viewsCollection then
      ((viewName d ((d.doc "o").getD []) db).map (IndexOp.dropView db)).toList
    else []

/-- What an entry does to index specifications, through the applyOps commands that `looks` accepts. -/
def indexOps (looks : Doc → Bool) (d : Doc) : List IndexOp :=
  ownIndexOps d ++ if looks d then (children d).attach.flatMap fun c => indexOps looks c.1 else []
termination_by sizeOf d
decreasing_by exact sizeOf_children c.2

variable {a db : String} {f : Filter} {c : Catalog} {op : IndexOp}

theorem indexOps_eq (looks : Doc → Bool) (d : Doc) : indexOps looks d =
    ownIndexOps d ++ if looks d then (children d).flatMap (indexOps looks) else [] := by
  rw [indexOps, List.flatMap_subtype (g := indexOps looks) (by simp), List.unattach_attach]

/-- The true catalog after entries were read. -/
def readCatalog (ds : List Doc) : Catalog :=
  (ds.flatMap (indexOps replayed)).foldl Catalog.step fun _ _ => []

/-- mongorestore's catalog after entries were replayed. -/
def replayCatalog (ds : List Doc) : Catalog :=
  (ds.flatMap (indexOps everywhere)).foldl Catalog.replay fun _ _ => []

/-! ## Specifications -/

theorem rebuild_rebuild (d : Doc) (e₁ e₂ : String → Value → Option Value) :
    (d.rebuild e₁).rebuild e₂ = d.rebuild fun k v => (e₁ k v).bind (e₂ k) := by
  unfold Doc.rebuild
  rw [List.filterMap_filterMap]
  congr 1
  funext x
  cases h : e₁ x.1 x.2 <;> simp [h]

theorem rebuild_congr (d : Doc) {e₁ e₂ : String → Value → Option Value}
    (h : ∀ k v, e₁ k v = e₂ k v) : d.rebuild e₁ = d.rebuild e₂ := by
  have : e₁ = e₂ := funext fun k => funext fun v => h k v
  rw [this]

/-- Renaming the `ns` field of a specification is not seen without it. -/
theorem dropNS_renameSpecNS (spec : Doc) (src dst : String) :
    (renameSpecNS spec src dst).rebuild (fun k v => if k = "ns" then none else some v) =
      spec.rebuild fun k v => if k = "ns" then none else some v := by
  unfold renameSpecNS
  rw [rebuild_rebuild]
  refine rebuild_congr spec fun k v => ?_
  by_cases hk : k = "ns"
  · cases hs : v.str? <;> simp [hk]
  · cases hs : v.str? <;> simp [hk]

theorem bareSpec_renameSpecNS (spec : Doc) (src dst : String) :
    bareSpec (renameSpecNS spec src dst) = bareSpec spec := by
  unfold bareSpec renameSpecNS
  rw [rebuild_rebuild]
  refine rebuild_congr spec fun k v => ?_
  by_cases hk : k = "ns"
  · cases hs : v.str? <;> simp [hk]
  · cases hs : v.str? <;> simp [hk]

theorem bareSpec_ddlCommand (o : Doc) (db dst : String) :
    bareSpec (Filter.ddlCommand o db dst) = bareSpec o := by
  unfold bareSpec Filter.ddlCommand
  rw [rebuild_rebuild]
  refine rebuild_congr o fun k v => ?_
  split
  · simp
  · rename_i d
    simp [dropNS_renameSpecNS]
  · simp

theorem bareSpec_create (v : Value) (spec : Doc) :
    bareSpec (("createIndexes", v) :: spec) = bareSpec spec := by
  simp [bareSpec, Doc.rebuild]

theorem lookup_bareSpec (spec : Doc) {k : String} (hk : k ∈ ["name", "key"]) :
    (bareSpec spec).lookup k = spec.lookup k := by
  have hne : ¬ (k = "ns" ∨ k = "createIndexes") ∧ k ≠ "idIndex" := by
    simp only [List.mem_cons, List.not_mem_nil, or_false] at hk
    rcases hk with rfl | rfl <;> decide
  rcases h : spec.lookup k with _ | v
  · exact Doc.lookup_rebuild_none h
  · exact Doc.lookup_rebuild h (by simp [hne.1, hne.2])

theorem removedBy_bareSpec (index : Option Value) (spec : Doc) :
    removedBy index (bareSpec spec) = removedBy index spec := by
  have hname : (bareSpec spec).str "name" = spec.str "name" := by
    rw [Doc.str, Doc.str, lookup_bareSpec spec (by simp)]
  have hkey : (bareSpec spec).lookup "key" = spec.lookup "key" := lookup_bareSpec spec (by simp)
  simp only [removedBy, hname, hkey]

/-- The record `addIndex` keeps of a specification. -/
def indexSpecOf (spec : Doc) : IndexSpec :=
  ⟨(spec.str "name").getD "", ((spec.lookup "key").map Value.encode).getD [], spec⟩

theorem keptBy_indexSpecOf {index : Option Value} (h : index ≠ some (.str "*")) (spec : Doc) :
    keptBy index (indexSpecOf spec) = !removedBy index (bareSpec spec) := by
  rw [removedBy_bareSpec]
  rcases index with _ | v
  · rfl
  cases v with
  | str s =>
    have hs : s ≠ "*" := by
      rintro rfl
      exact h rfl
    rw [Bool.eq_iff_iff]
    simp only [keptBy, removedBy, indexSpecOf, hs, decide_false, Bool.false_or, Bool.not_eq_true',
      decide_eq_false_iff_not]
    exact decide_eq_true_iff
  | doc d =>
    rw [Bool.eq_iff_iff]
    simp only [keptBy, removedBy, indexSpecOf, Bool.not_eq_true', decide_eq_false_iff_not]
    exact decide_eq_true_iff
  | _ => rfl

/-! ## Names -/

theorem indexKey_toList (a b : String) : (indexKey a b).toList = a.toList ++ '\x00' :: b.toList := by
  simp [indexKey]

/-- The key of a collection tells its database, whose name has no NUL. -/
theorem indexKey_inj {b c d : String} (ha : '\x00' ∉ a.toList) (hc : '\x00' ∉ c.toList) :
    indexKey a b = indexKey c d ↔ a = c ∧ b = d := by
  constructor
  · intro h
    have hl := congrArg String.toList h
    rw [indexKey_toList, indexKey_toList] at hl
    obtain ⟨h1, h2⟩ := Glob.append_separator_inj ha hc hl
    exact ⟨String.toList_inj.mp h1, String.toList_inj.mp h2⟩
  · rintro ⟨rfl, rfl⟩
    rfl

/-- The test of dropDatabase: whether a key is one of the database. -/
theorem cutPrefix_indexKey {c : String} (d : String) (ha : '\x00' ∉ a.toList) (hc : '\x00' ∉ c.toList) :
    (cutPrefix (indexKey c d) (a ++ "\x00")).isSome = true ↔ a = c := by
  constructor
  · intro h
    obtain ⟨rest, hr⟩ := Option.isSome_iff_exists.mp h
    have hk : indexKey c d = indexKey a rest := by
      rw [cutPrefix_spec hr, indexKey]
    exact ((indexKey_inj hc ha).mp hk).1.symm
  · rintro rfl
    rw [indexKey, cutPrefix_append]
    rfl

/-! ## The simulation -/

/-- No two selected databases are replayed into one. -/
def Apart (f : Filter) : Prop :=
  ∀ a b dst, f.selected a → f.selected b → f.renameDB a = .ok dst → f.renameDB b = .ok dst → a = b

/-- A database replayed under its own name has no NUL in it. -/
def Named (f : Filter) (db : String) : Prop :=
  f.inPlace = true → f.selected db = true → '\x00' ∉ db.toList

/-- `db` is selected and replayed into `dst`. -/
structure Target (f : Filter) (db dst : String) : Prop where
  selected : f.selected db = true
  renamed : f.renameDB db = .ok dst
  nul : '\x00' ∉ dst.toList

theorem renameDB_clean {dst : String} (h : f.renameDB db = .ok dst) :
    dst = db ∧ f.inPlace = true ∨ '\x00' ∉ dst.toList ∧ '.' ∉ dst.toList := by
  revert h
  fun_cases Filter.renameDB f db <;> intro h <;> cases h
  · exact .inl ⟨rfl, ‹_›⟩
  right
  rename_i hv
  simp only [Filter.validTarget, Bool.not_eq_true', Bool.or_eq_false_iff, List.any_eq_false] at hv
  have hno := hv.1.2
  exact ⟨fun hm => hno _ hm (by decide), fun hm => hno _ hm (by decide)⟩

theorem Target.of {dst : String} (hs : f.selected db = true) (hd : f.renameDB db = .ok dst)
    (hn : Named f db) : Target f db dst := by
  refine ⟨hs, hd, ?_⟩
  obtain ⟨rfl, hi⟩ | h := renameDB_clean hd
  · exact hn hi hs
  · exact h.1

/-- The catalogs agree on the selected databases, and the filter knows what mongorestore's holds. -/
structure Sim (f : Filter) (read replay : Catalog) (s : State) : Prop where
  replay : ∀ db dst coll, Target f db dst → replay dst coll = read db coll
  record : ∀ db dst coll, Target f db dst →
    (s.indexes (indexKey dst coll)).map (fun x => bareSpec x.spec) = read db coll
  specs : ∀ k, ∀ x ∈ s.indexes k, x = indexSpecOf x.spec

section
variable {f : Filter} {read replay : Catalog} {s : State} {db dst coll : String}
  {name : String} {looks : Doc → Bool}

theorem Target.eq_of_db (ht : Target f db dst) {dst' : String} (ht' : Target f db dst') :
    dst' = dst := by
  have h := ht'.renamed
  rw [ht.renamed] at h
  exact (Except.ok.inj h).symm

theorem Target.eq_of_dst (hf : Apart f) (ht : Target f db dst) {db' : String}
    (ht' : Target f db' dst) : db' = db :=
  hf db' db dst ht'.selected ht.selected ht'.renamed ht.renamed

section
variable (h : Sim f read replay s)
include h

/-- What happens to databases that are not selected is not seen. -/
theorem Sim.congr {read' : Catalog}
    (hr : ∀ a b, f.selected a = true → read' a b = read a b) : Sim f read' replay s :=
  ⟨fun a d c ht => (h.replay a d c ht).trans (hr a c ht.selected).symm,
    fun a d c ht => (h.record a d c ht).trans (hr a c ht.selected).symm, h.specs⟩

/-- The specifications of one collection change in both catalogs and in the record. -/
theorem Sim.put (hf : Apart f) (ht : Target f db dst) (coll : String)
    (xs : List IndexSpec) (hxs : ∀ x ∈ xs, x = indexSpecOf x.spec) :
    Sim f (read.put db coll (xs.map fun x => bareSpec x.spec))
      (replay.put dst coll (xs.map fun x => bareSpec x.spec))
      (s.setIndexes (indexKey dst coll) xs) := by
  have hsame : ∀ a d c, Target f a d → (d = dst ∧ c = coll ↔ a = db ∧ c = coll) := by
    intro a d c ht'
    constructor
    · rintro ⟨rfl, rfl⟩
      exact ⟨ht.eq_of_dst hf ht', rfl⟩
    · rintro ⟨rfl, rfl⟩
      exact ⟨ht.eq_of_db ht', rfl⟩
  refine ⟨fun a d c ht' => ?_, fun a d c ht' => ?_, fun k x hx => ?_⟩
  · simp only [Catalog.put, hsame a d c ht', h.replay a d c ht']
  · by_cases hk : indexKey d c = indexKey dst coll
    · have hac := (hsame a d c ht').mp ((indexKey_inj ht'.nul ht.nul).mp hk)
      rw [hk]
      simp [State.setIndexes, Catalog.put, hac]
    · have hac := mt (fun h => (indexKey_inj ht'.nul ht.nul).mpr ((hsame a d c ht').mpr h)) hk
      simp [State.setIndexes, Function.update_of_ne hk, Catalog.put, hac, h.record a d c ht']
  · by_cases hk : k = indexKey dst coll
    · subst hk
      exact hxs x (by simpa [State.setIndexes] using hx)
    · exact h.specs k x (by simpa [State.setIndexes, Function.update_of_ne hk] using hx)

theorem Sim.dropDatabase (hf : Apart f) (ht : Target f db dst) :
    Sim f (read.step (.dropDatabase db)) (replay.replay (.dropDatabase dst))
      { s with indexes := fun k => if (cutPrefix k (dst ++ "\x00")).isSome then [] else s.indexes k } := by
  have hsame : ∀ a d, Target f a d → (d = dst ↔ a = db) := by
    intro a d ht'
    constructor
    · rintro rfl
      exact ht.eq_of_dst hf ht'
    · rintro rfl
      exact ht.eq_of_db ht'
  refine ⟨fun a d c ht' => ?_, fun a d c ht' => ?_, fun k x hx => ?_⟩
  · simp only [Catalog.step, Catalog.replay, hsame a d ht', h.replay a d c ht']
  · have hkey := cutPrefix_indexKey c ht.nul ht'.nul
    by_cases hd : d = dst
    · have ha := (hsame a d ht').mp hd
      simp [Catalog.step, ha, hkey.mpr hd.symm]
    · have ha := mt (hsame a d ht').mpr hd
      have hno := mt hkey.mp (Ne.symm hd)
      simp [Catalog.step, ha, hno, h.record a d c ht']
  · dsimp only at hx
    split at hx
    · cases hx
    · exact h.specs k x hx

theorem Sim.create (hf : Apart f) (ht : Target f db dst) (coll : String) (spec : Doc) :
    Sim f (read.step (.create db coll (bareSpec spec))) (replay.replay (.create dst coll (bareSpec spec)))
      (s.setIndexes (indexKey dst coll) (s.indexes (indexKey dst coll) ++ [indexSpecOf spec])) := by
  have hput := h.put hf ht coll (s.indexes (indexKey dst coll) ++ [indexSpecOf spec]) ?_
  · simp only [Catalog.step, Catalog.replay, h.replay db dst coll ht, ← h.record db dst coll ht]
    simpa [indexSpecOf] using hput
  · intro x hx
    rcases List.mem_append.mp hx with hx | hx
    · exact h.specs _ x hx
    · rw [List.mem_singleton.mp hx]
      rfl

theorem Sim.drop (hf : Apart f) (ht : Target f db dst) (coll : String) :
    Sim f (read.step (.drop db coll)) (replay.replay (.drop dst coll))
      (s.setIndexes (indexKey dst coll) []) :=
  h.put hf ht coll [] (by simp)

theorem Sim.dropIndexes (hf : Apart f) (ht : Target f db dst)
    (coll : String) {index : Option Value} {xs : List IndexSpec}
    (hxs : xs = (s.indexes (indexKey dst coll)).filter fun x => !removedBy index (bareSpec x.spec)) :
    Sim f (read.step (.dropIndexes db coll index)) (replay.replay (.dropIndexes dst coll index))
      (s.setIndexes (indexKey dst coll) xs) := by
  have hput := h.put hf ht coll xs ?_
  · simp only [Catalog.step, Catalog.replay, h.replay db dst coll ht, ← h.record db dst coll ht]
    rw [List.filter_map]
    subst hxs
    exact hput
  · intro x hx
    subst hxs
    exact h.specs _ x (List.mem_of_mem_filter hx)

end

/-! ## DDL commands -/

/-- What both catalogs make of operations. -/
def reads (ops : List IndexOp) (c : Catalog) : Catalog := ops.foldl Catalog.step c

def replays (ops : List IndexOp) (c : Catalog) : Catalog := ops.foldl Catalog.replay c

theorem ddlNames_ne (h : name ∈ Filter.ddlNames) :
    name ≠ "commitIndexBuild" ∧ name ≠ "renameCollection" ∧ name ≠ "ns" ∧ name ≠ "idIndex" := by
  refine ⟨?_, ?_, ?_, ?_⟩ <;> rintro rfl <;> exact absurd h (by decide)

theorem ddlCommand_lookup (o : Doc) (db dst : String) {k : String} (h1 : k ≠ "ns")
    (h2 : k ≠ "idIndex") : (Filter.ddlCommand o db dst).lookup k = o.lookup k := by
  rcases h : o.lookup k with _ | v
  · exact Doc.lookup_rebuild_none h
  · refine Doc.lookup_rebuild h ?_
    split
    · exact absurd rfl h1
    · exact absurd rfl h2
    · rfl

theorem ddlCommand_cons (h : name ∈ Filter.ddlNames) (v : Value) (rest : Doc) (db dst : String) :
    Filter.ddlCommand ((name, v) :: rest) db dst =
      (name, v) :: Filter.ddlCommand rest db dst := by
  obtain ⟨-, -, h1, h2⟩ := ddlNames_ne h
  unfold Filter.ddlCommand Doc.rebuild
  rw [List.filterMap_cons]
  split
  · rename_i hnone
    simp only [Option.map_eq_none_iff] at hnone
    split at hnone <;> cases hnone
  · rename_i x hx
    simp only [Option.map_eq_some_iff] at hx
    obtain ⟨w, hw, rfl⟩ := hx
    split at hw
    · exact absurd rfl h1
    · exact absurd rfl h2
    · cases hw
      rfl

/-- Renaming the databases in a DDL command leaves what it does to indexes. -/
theorem commandIndexOps_ddlCommand {v : Value} {rest : Doc} (x : String)
    (hname : name ∈ Filter.ddlNames) (db dst : String) :
    commandIndexOps x (Filter.ddlCommand ((name, v) :: rest) db dst) =
      commandIndexOps x ((name, v) :: rest) := by
  obtain ⟨h1, h2, h3, h4⟩ := ddlNames_ne hname
  have hcoll : (Filter.ddlCommand ((name, v) :: rest) db dst).str name =
      Doc.str ((name, v) :: rest) name := by
    rw [Doc.str, Doc.str, ddlCommand_lookup _ _ _ h3 h4]
  have hindex := ddlCommand_lookup ((name, v) :: rest) db dst (k := "index") (by decide) (by decide)
  have hspec := bareSpec_ddlCommand ((name, v) :: rest) db dst
  rw [ddlCommand_cons hname] at hcoll hindex hspec ⊢
  simp only [commandIndexOps, h1, h2, hcoll, hindex, hspec, if_false]

theorem lookup_of_str {d : Doc} {k x : String} (h : d.str k = some x) :
    d.lookup k = some (.str x) := by
  unfold Doc.str at h
  rw [Option.bind_eq_some_iff] at h
  obtain ⟨v, hv, hs⟩ := h
  cases v <;> cases hs
  exact hv

theorem trackIndexes_sim (h : Sim f read replay s) (hf : Apart f) {v : Value} {rest : Doc}
    (ht : commandIndexOps db ((name, v) :: rest) ≠ [] → Target f db dst)
    (hname : name ∈ Filter.ddlNames) {u : Unit} {s' : State}
    (hrun : trackIndexes name ((name, v) :: rest) dst s = (.ok u, s')) :
    Sim f (reads (commandIndexOps db ((name, v) :: rest)) read)
      (replays (commandIndexOps dst ((name, v) :: rest)) replay) s' := by
  unfold trackIndexes at hrun
  dsimp only at hrun
  split at hrun
  · rename_i hn
    subst hn
    cases hrun
    have hbare : bareSpec (Doc.rebuild (("createIndexes", v) :: rest) fun k v =>
        if k = "createIndexes" then none else some v) = bareSpec (("createIndexes", v) :: rest) := by
      unfold bareSpec
      rw [rebuild_rebuild]
      refine rebuild_congr _ fun k v => ?_
      by_cases hk : k = "createIndexes" <;> simp [hk]
    have hc := h.create hf (ht (by simp [commandIndexOps]))
      ((Doc.str (("createIndexes", v) :: rest) "createIndexes").getD "")
      (Doc.rebuild (("createIndexes", v) :: rest) fun k v =>
        if k = "createIndexes" then none else some v)
    rw [hbare] at hc
    exact hc
  rename_i h1
  split at hrun
  · rename_i hn
    subst hn
    cases hrun
    exact h.drop hf (ht (by simp [commandIndexOps])) _
  rename_i h2
  split at hrun
  · rename_i hn
    subst hn
    cases hrun
    exact h.dropDatabase hf (ht (by simp [commandIndexOps]))
  rename_i h3
  split at hrun
  · rename_i hn
    have hops : ∀ x, commandIndexOps x ((name, v) :: rest) = [.dropIndexes x
        ((Doc.str ((name, v) :: rest) name).getD "") (Doc.lookup ((name, v) :: rest) "index")] := by
      intro x
      obtain ⟨hb, -⟩ := ddlNames_ne hname
      simp [commandIndexOps, h1, h2, h3, hb, hn]
    have ht := ht (by simp [hops])
    rw [hops, hops]
    cases hrun
    by_cases hstar : Doc.str ((name, v) :: rest) "index" = some "*"
    · beta_reduce
      rw [if_pos hstar]
      refine h.dropIndexes hf ht _ ?_
      rw [lookup_of_str hstar]
      simp [removedBy]
    · beta_reduce
      rw [if_neg hstar]
      refine h.dropIndexes hf ht _ (List.filter_congr fun x hx => ?_)
      have hne : Doc.lookup ((name, v) :: rest) "index" ≠ some (.str "*") := by
        intro hl
        exact hstar (by simp [Doc.str, hl, Value.str?])
      rw [h.specs _ x hx, keptBy_indexSpecOf hne]
      rfl
  · rename_i h4
    cases hrun
    have hops : ∀ x, commandIndexOps x ((name, v) :: rest) = [] := by
      intro x
      obtain ⟨hb, hr, -, -⟩ := ddlNames_ne hname
      simp [commandIndexOps, h1, h2, h3, h4, hb, hr]
    rw [hops, hops]
    exact h

/-! ## Written entries -/

/-- The entry has the fields the rewriters replace. -/
structure HasFields (entry : Doc) : Prop where
  op : ∃ t, entry.str "op" = some t
  ns : ∃ ns, entry.str "ns" = some ns
  o : ∃ o, entry.doc "o" = some o

theorem indexOps_command {d o : Doc} (hop : d.str "op" = some "c")
    (hns : d.str "ns" = some (dst ++ ".$cmd")) (hdot : '.' ∉ dst.toList) (ho : d.doc "o" = some o)
    (hname : commandName d ≠ "applyOps") : indexOps looks d = commandIndexOps dst o := by
  have hcut : cut (dst ++ ".$cmd") = some (dst, "$cmd") := by
    have := cut_append (a := dst) "$cmd" hdot
    rwa [String.append_assoc] at this
  rw [indexOps_eq, children_of_name hname]
  simp [ownIndexOps, hop, hns, hcut, ho]

theorem indexOps_commandEntry {entry cmd : Doc} (he : HasFields entry) (hdot : '.' ∉ dst.toList)
    (hcmd : cmd.head?.map (·.1) ≠ some "applyOps") :
    indexOps looks (commandEntry entry dst cmd) = commandIndexOps dst cmd := by
  obtain ⟨t, ht⟩ := he.op
  obtain ⟨ns, hns⟩ := he.ns
  obtain ⟨o, ho⟩ := he.o
  refine indexOps_command ?_ ?_ hdot ?_ (commandEntry_plain hcmd).name
  · exact str_rebuild_new _ ht fun v => by simp [strippedFields]
  · exact str_rebuild_new _ hns fun v => by simp [strippedFields]
  · exact doc_rebuild cmd ho fun v => by simp [strippedFields]

theorem indexOps_rewriteEntry {entry o' : Doc} (he : HasFields entry) (hop : entry.str "op" = some "c")
    (hdot : '.' ∉ dst.toList) (hcmd : o'.head?.map (·.1) ≠ some "applyOps") :
    indexOps looks (rewriteEntry entry (dst ++ ".$cmd") o') = commandIndexOps dst o' := by
  obtain ⟨ns, hns⟩ := he.ns
  obtain ⟨o, ho⟩ := he.o
  refine indexOps_command (rewriteEntry_op _ hop) ?_ hdot (rewriteEntry_doc ho)
    (rewriteEntry_plain hop hcmd).name
  exact str_rebuild_new _ hns fun v => by simp [strippedFields]

end

/-! ## Operations on databases that are not selected -/

/-- The databases an operation is about. -/
def IndexOp.dbs : IndexOp → List String
  | .create db _ _ | .drop db _ | .dropDatabase db | .dropIndexes db _ _ => [db]
  | .rename srcDB _ dstDB _ => [srcDB, dstDB]
  | .dropView _ _ => []

theorem put_other {coll : String} (specs : List Doc) (b : String) (h : a ≠ db) :
    c.put db coll specs a b = c a b := by
  simp [Catalog.put, h]

theorem step_other (b : String) (h : a ∉ op.dbs) : c.step op a b = c a b := by
  cases op with
  | create db coll spec => exact put_other _ b (by simpa [IndexOp.dbs] using h)
  | drop db coll => exact put_other _ b (by simpa [IndexOp.dbs] using h)
  | dropDatabase db => simp [Catalog.step, show a ≠ db by simpa [IndexOp.dbs] using h]
  | dropIndexes db coll index => exact put_other _ b (by simpa [IndexOp.dbs] using h)
  | rename srcDB srcColl dstDB dstColl =>
    have hne : a ≠ srcDB ∧ a ≠ dstDB := by simpa [IndexOp.dbs] using h
    rw [Catalog.step, put_other _ b hne.1, put_other _ b hne.2]
  | dropView db name => rfl

theorem reads_other {ops : List IndexOp} (h : ∀ op ∈ ops, a ∉ op.dbs) (c : Catalog) (b : String) :
    reads ops c a b = c a b := by
  induction ops generalizing c with
  | nil => rfl
  | cons op ops ih =>
    rw [reads, List.foldl_cons]
    exact (ih (fun o ho => h o (List.mem_cons_of_mem _ ho)) (c.step op)).trans
      (step_other b (h op List.mem_cons_self))

/-- A command other than a rename is about its own database. -/
theorem commandIndexOps_dbs {name : String} {v : Value} {rest : Doc} (hne : name ≠ "renameCollection")
    (h : op ∈ commandIndexOps db ((name, v) :: rest)) : op.dbs = [db] := by
  simp only [commandIndexOps, hne, if_false] at h
  repeat' split at h
  all_goals grind [IndexOp.dbs]

/-! ## Streams that are read -/

/-- What is asked of an operation that is read while the true catalog is `c`: a rename is not onto itself,
a view is dropped under a name that has no indexes, and in place no database has a NUL in its name. -/
def Allowed (f : Filter) (c : Catalog) (op : IndexOp) : Prop :=
  match op with
  | .rename srcDB srcColl dstDB dstColl =>
    (srcDB, srcColl) ≠ (dstDB, dstColl) ∧ Named f srcDB ∧ Named f dstDB
  | .dropView db name => Named f db ∧ (f.selected db = true → c db name = [])
  | .create db _ _ | .drop db _ | .dropDatabase db | .dropIndexes db _ _ => Named f db

def AllAllowed (f : Filter) : Catalog → List IndexOp → Prop
  | _, [] => True
  | c, op :: ops => Allowed f c op ∧ AllAllowed f (c.step op) ops

theorem allAllowed_append {a b : List IndexOp} :
    AllAllowed f c (a ++ b) ↔ AllAllowed f c a ∧ AllAllowed f (reads a c) b := by
  induction a generalizing c with
  | nil => simp [AllAllowed, reads]
  | cons op a ih =>
    rw [List.cons_append, AllAllowed, ih, AllAllowed, and_assoc]
    rfl

theorem reads_append (a b : List IndexOp) (c : Catalog) :
    reads (a ++ b) c = reads b (reads a c) := List.foldl_append

theorem replays_append (a b : List IndexOp) (c : Catalog) :
    replays (a ++ b) c = replays b (replays a c) := List.foldl_append

theorem Allowed.named (h : Allowed f c op) (hdb : op.dbs = [db]) : Named f db := by
  cases op <;> simp only [IndexOp.dbs, List.cons.injEq, List.cons_ne_nil, and_false, reduceCtorEq,
    and_true] at hdb <;> exact hdb ▸ h

theorem named_of_command {name : String} {v : Value} {rest : Doc} (hne : name ≠ "renameCollection")
    (h : AllAllowed f c (commandIndexOps db ((name, v) :: rest)))
    (hops : commandIndexOps db ((name, v) :: rest) ≠ []) : Named f db := by
  obtain ⟨op, ops, hcons⟩ := List.exists_cons_of_ne_nil hops
  rw [hcons] at h
  exact h.1.named (commandIndexOps_dbs hne (hcons ▸ List.mem_cons_self))

/-! ## Rewriters -/

/-- A program that reads `ops` and writes entries in their place keeps the simulation. -/
def Simulates (f : Filter) (ops : List IndexOp) (x : M Replaced) : Prop :=
  ∀ read replay s, Sim f read replay s → AllAllowed f read ops → ∀ r s', x s = (.ok r, s') →
    Sim f (reads ops read) (replays (r.1.flatMap (indexOps everywhere)) replay) s'

section
variable {f : Filter} {doc o : Doc} {db dst : String}

variable {ops : List IndexOp} {name a b : String} {v : Value} {rest d : Doc} {s s' : State}
  {read replay : Catalog}

/-- Operations that are not read write nothing. -/
theorem simulates_nil : Simulates f [] (pure ([], 0)) := by
  intro read replay s h _ r s' hrun
  cases hrun
  exact h

/-- Operations on databases that are not selected are not written. -/
theorem simulates_unselected (h : ∀ op ∈ ops, ∀ a ∈ op.dbs, f.selected a = false) :
    Simulates f ops (pure ([], 0)) := by
  intro read replay s hs _ r s' hrun
  cases hrun
  refine hs.congr fun a b ha => reads_other (fun op hop hm => ?_) read b
  rw [h op hop a hm] at ha
  cases ha

theorem simulates_fail {e : Err} : Simulates f ops (Prog.fail e) := by
  intro read replay s _ _ r s' hrun
  cases hrun

theorem simulates_ite {c : Prop} [Decidable c] {x y : M Replaced} (h1 : c → Simulates f ops x)
    (h2 : ¬ c → Simulates f ops y) : Simulates f ops (if c then x else y) := by
  split
  · exact h1 ‹_›
  · exact h2 ‹_›

theorem simulates_orFail {α : Type} {e : Err} {a : Option α} {x : α → M Replaced}
    (h : ∀ b, a = some b → Simulates f ops (x b)) : Simulates f ops (Prog.orFail e a >>= x) := by
  intro read replay s hs hall r s' hrun
  obtain ⟨b, hb, hrun⟩ := Prog.orFail_ok hrun
  exact h b hb read replay s hs hall r s' hrun

theorem simulates_lift {α : Type} {a : Except Err α} {x : α → M Replaced}
    (h : ∀ b, a = .ok b → Simulates f ops (x b)) : Simulates f ops (Prog.lift a >>= x) := by
  intro read replay s hs hall r s' hrun
  obtain ⟨b, hb, hrun⟩ := Prog.lift_ok hrun
  exact h b hb read replay s hs hall r s' hrun

theorem noDot_of_renameDB (hd : f.renameDB db = .ok dst) (hdb : '.' ∉ db.toList) :
    '.' ∉ dst.toList := by
  obtain ⟨rfl, -⟩ | h := renameDB_clean hd
  · exact hdb
  · exact h.2

theorem commandIndexOps_create (x : String) (v : Value) (rest : Doc) :
    commandIndexOps x (("create", v) :: rest) = [] := by
  simp [commandIndexOps, dropIndexesNames]

/-- A command that is written in another's place and does nothing to indexes. -/
theorem asCommand_sim {cmd : Doc} (he : HasFields doc) (hdb : '.' ∉ db.toList)
    (hcmd : cmd.head?.map (·.1) ≠ some "applyOps") (hops : ∀ x, commandIndexOps x cmd = []) :
    Simulates f [] (asCommand f doc db cmd >>= fun d => pure ([d], 1)) := by
  intro read replay s hs _ r s' hrun
  obtain ⟨d, t, hd, hrun⟩ := Prog.bind_ok hrun
  obtain ⟨dst, hren, hd⟩ := Prog.lift_ok hd
  cases hd
  cases hrun
  simpa [indexOps_commandEntry he (noDot_of_renameDB hren hdb) hcmd, hops, reads, replays] using hs

theorem ddl_written (he : HasFields doc) (hop : doc.str "op" = some "c") (ho : doc.doc "o" = some o)
    (hdb : '.' ∉ db.toList) (hc : o = (name, v) :: rest) (hname : name ∈ Filter.ddlNames)
    (hren : f.renameDB db = .ok dst) (hrun : f.ddl doc o db s = (.ok d, s')) :
    s' = s ∧ indexOps everywhere d = commandIndexOps dst o := by
  have hhead : o.head?.map (·.1) = some name := by simp [hc]
  have hplain : Plain d := ddl_plain hop hhead
    (by rintro rfl; exact absurd hname (by decide)) db _ _ _ hrun
  unfold Filter.ddl at hrun
  obtain ⟨dst', hdst, hrun⟩ := Prog.lift_ok hrun
  cases hren.symm.trans hdst
  cases hrun
  refine ⟨rfl, ?_⟩
  obtain ⟨ns, hns⟩ := he.ns
  rw [indexOps_command (str_rebuild hop fun v => by simp [strippedFields])
    (str_rebuild_new _ hns fun v => by simp [strippedFields]) (noDot_of_renameDB hren hdb)
    (doc_rebuild (Filter.ddlCommand o db dst) ho fun v => by simp [strippedFields]) hplain.name]
  subst hc
  exact commandIndexOps_ddlCommand dst hname db dst

theorem ddlOp_sim (hf : Apart f) (he : HasFields doc) (hop : doc.str "op" = some "c")
    (ho : doc.doc "o" = some o) (hdb : '.' ∉ db.toList) (hs : f.selected db = true)
    (hc : o = (name, v) :: rest) (hname : name ∈ Filter.ddlNames) :
    Simulates f (commandIndexOps db o) (f.ddlOp doc o db name) := by
  unfold Filter.ddlOp
  refine simulates_ite (fun hcreate => ?_) fun _ => ?_
  · have hnil : commandIndexOps db o = [] := by
      rw [hc, hcreate.1]
      exact commandIndexOps_create _ _ _
    rw [hnil]
    exact simulates_nil
  split
  · rename_i cmd hcreate hcmd
    have hnil : commandIndexOps db o = [] := by
      rw [hc, show name = "create" by simpa using hcreate]
      exact commandIndexOps_create _ _ _
    obtain ⟨⟨_, w⟩, hhead, rfl⟩ := Option.map_eq_some_iff.mp (timeseriesCreate_head hcmd)
    obtain ⟨more, hcons⟩ := List.head?_eq_some_iff.mp hhead
    rw [hnil]
    exact asCommand_sim he hdb (by simp [hcons]) fun x => by rw [hcons, commandIndexOps_create]
  · intro read replay s hsim hall r s' hrun
    obtain ⟨d, t, hd, hrest⟩ := Prog.bind_ok hrun
    obtain ⟨dst, hren, hlast⟩ := Prog.lift_ok hrest
    obtain ⟨_, w, htrack, hret⟩ := Prog.bind_ok hlast
    obtain ⟨rfl, hops⟩ := ddl_written he hop ho hdb hc hname hren hd
    cases hret
    rw [List.flatMap_singleton, hops]
    subst hc
    refine trackIndexes_sim hsim hf (fun hne => ?_) hname htrack
    exact Target.of hs hren (named_of_command (ddlNames_ne hname).2.1 hall hne)

/-- By induction on the specifications of the build: each becomes a createIndexes. -/
theorem eachIndex_sim (hf : Apart f) (he : HasFields doc) (hop : doc.str "op" = some "c")
    (hdot : '.' ∉ dst.toList) {coll : String} {specs : Doc} (ht : docsOf specs ≠ [] → Target f db dst)
    {out : List Doc} (hs : Sim f read replay s) (hrun : Prog.each (fun (x : String × Value) => do
      let spec ← Prog.orFail (.malformed "index specification is not a document") x.2.doc?
      let renamed := renameSpecNS spec db dst
      addIndex dst coll renamed
      return rewriteEntry doc (dst ++ ".$cmd") (("createIndexes", .str coll) :: renamed)) specs s =
        (.ok out, s')) :
    Sim f (reads ((docsOf specs).map fun spec => .create db coll (bareSpec spec)) read)
      (replays (out.flatMap (indexOps everywhere)) replay) s' := by
  induction specs generalizing s read replay out with
  | nil =>
    cases hrun
    exact hs
  | cons x specs ih =>
    obtain ⟨d, t, hd, hrest⟩ := Prog.bind_ok hrun
    obtain ⟨ds, u, hds, hret⟩ := Prog.bind_ok hrest
    cases hret
    obtain ⟨spec, hdoc, hd⟩ := Prog.orFail_ok hd
    cases hd
    have hdocs : docsOf (x :: specs) = spec :: docsOf specs := by simp [docsOf, hdoc]
    have ht := ht (by simp [hdocs])
    have hops : indexOps everywhere (rewriteEntry doc (dst ++ ".$cmd")
        (("createIndexes", .str coll) :: renameSpecNS spec db dst)) =
          [.create dst coll (bareSpec spec)] := by
      rw [indexOps_rewriteEntry he hop hdot (by simp)]
      simp [commandIndexOps, Doc.str, Doc.lookup, Value.str?, bareSpec_create, bareSpec_renameSpecNS]
    have hone := hs.create hf ht coll (renameSpecNS spec db dst)
    rw [bareSpec_renameSpecNS] at hone
    have hrec := ih (fun _ => ht) hone hds
    rw [hdocs, List.flatMap_cons, hops, replays_append]
    exact hrec

theorem commitIndexBuild_sim (hf : Apart f) (he : HasFields doc) (hop : doc.str "op" = some "c")
    (hdb : '.' ∉ db.toList) (hs : f.selected db = true) (hc : o = ("commitIndexBuild", v) :: rest) :
    Simulates f (commandIndexOps db o) (f.commitIndexBuild doc o db) := by
  unfold Filter.commitIndexBuild
  refine simulates_orFail fun coll hcoll => simulates_orFail fun specs hspecs => ?_
  refine simulates_lift fun dst hren => ?_
  intro read replay s hsim hall r s' hrun
  obtain ⟨out, t, hout, hret⟩ := Prog.bind_ok hrun
  cases hret
  have hops : commandIndexOps db o =
      (docsOf specs).map fun spec => .create db coll (bareSpec spec) := by
    subst hc
    simp [commandIndexOps, hcoll, hspecs]
  rw [hops]
  refine eachIndex_sim hf he hop (noDot_of_renameDB hren hdb) (fun hne => ?_) hsim hout
  refine Target.of hs hren ?_
  subst hc
  exact named_of_command (by decide) hall (by simpa [hops] using hne)

/-! ## Renames -/

theorem put_self {c : Catalog} {l : List Doc} (hl : c a b = l) : c.put a b l = c := by
  subst hl
  funext x y
  by_cases h : x = a ∧ y = b
  · simp [Catalog.put, h.1, h.2]
  · simp [Catalog.put, h]

variable (c : Catalog)

@[simp] theorem put_at (a b : String) (l : List Doc) : c.put a b l a b = l := by
  simp [Catalog.put]

@[simp] theorem put_put (a b : String) (l l' : List Doc) :
    (c.put a b l).put a b l' = c.put a b l' := by
  funext x y
  by_cases h : x = a ∧ y = b <;> simp [Catalog.put, h]

theorem put_ne {x y : String} (l : List Doc) (h : (x, y) ≠ (a, b)) : c.put a b l x y = c x y := by
  have h : ¬ (x = a ∧ y = b) := by simpa using h
  simp [Catalog.put, h]

theorem replays_creates (a b : String) (specs : List Doc) :
    replays (specs.map fun x => .create a b x) c = c.put a b (c a b ++ specs) := by
  induction specs generalizing c with
  | nil => rw [List.append_nil, put_self rfl]; rfl
  | cons x specs ih =>
    have h := ih (c.replay (.create a b x))
    rw [replays, List.map_cons, List.foldl_cons]
    rw [replays] at h
    rw [h]
    simp [Catalog.replay, Catalog.step]

theorem removedBy_star (spec : Doc) : removedBy (some (.str "*")) spec = true := by
  simp [removedBy]

theorem replay_dropAll (a b : String) :
    replays (commandIndexOps a (dropAll b)) c = c.put a b [] := by
  have hops : commandIndexOps a (dropAll b) = [.dropIndexes a b (some (.str "*"))] := by
    simp [commandIndexOps, dropAll, dropIndexesNames, Doc.str, Doc.lookup, Value.str?]
  rw [hops]
  simp [replays, Catalog.replay, Catalog.step, removedBy_star]

/-- mongorestore does not follow a rename. -/
theorem replay_rename (x : String) (v : Value) (rest : Doc) (c : Catalog) :
    replays (commandIndexOps x (("renameCollection", v) :: rest)) c = c := by
  simp only [commandIndexOps]
  rw [if_neg (by decide), if_neg (by decide), if_neg (by decide), if_neg (by decide),
    if_neg (by decide), if_pos trivial]
  split <;> rfl

/-- **The moves after a rename make up for it.** -/
theorem moveIndexes_sim (hf : Apart f) (he : HasFields doc)
    {srcDB srcColl dstDB dstColl newSrc newDst : String} (hsrc : Target f srcDB newSrc)
    (hdst : Target f dstDB newDst) (hsdot : '.' ∉ newSrc.toList) (hddot : '.' ∉ newDst.toList)
    {moves : List Doc} (hs : Sim f read replay s)
    (hrun : moveIndexes doc newSrc srcColl newDst dstColl s = (.ok moves, s')) :
    Sim f (read.step (.rename srcDB srcColl dstDB dstColl))
      (replays (moves.flatMap (indexOps everywhere)) replay) s' := by
  have hdropAll : ∀ db coll, '.' ∉ db.toList → indexOps everywhere (commandEntry doc db (dropAll coll)) =
      commandIndexOps db (dropAll coll) :=
    fun db coll hdot => indexOps_commandEntry he hdot (by simp [dropAll])
  -- the target's indexes go first, if it has any
  have hdropped : replays ((if (s.indexes (indexKey newDst dstColl)).isEmpty then []
      else [commandEntry doc newDst (dropAll dstColl)]).flatMap (indexOps everywhere)) replay =
        replay.put newDst dstColl [] := by
    split
    · rename_i hempty
      have hnil : replay newDst dstColl = [] := by
        rw [hs.replay dstDB newDst dstColl hdst, ← hs.record dstDB newDst dstColl hdst,
          List.isEmpty_iff.mp hempty]
        rfl
      rw [put_self hnil]
      rfl
    · rw [List.flatMap_singleton, hdropAll _ _ hddot, replay_dropAll]
  have hspecs := hs.record srcDB newSrc srcColl hsrc
  unfold moveIndexes at hrun
  obtain ⟨s0, t0, hget, hrest⟩ := Prog.bind_ok hrun
  cases hget
  obtain ⟨_, t1, hmod, hrest'⟩ := Prog.bind_ok hrest
  cases hmod
  by_cases hnone : (s.indexes (indexKey newSrc srcColl)).isEmpty = true
  · rw [if_pos hnone] at hrest'
    cases hrest'
    rw [hdropped]
    have hread : read srcDB srcColl = [] := by
      rw [← hspecs, List.isEmpty_iff.mp hnone]
      rfl
    have hstep : read.step (.rename srcDB srcColl dstDB dstColl) = read.put dstDB dstColl [] := by
      rw [Catalog.step, hread]
      by_cases hsame : (srcDB, srcColl) = (dstDB, dstColl)
      · obtain ⟨rfl, rfl⟩ := Prod.mk.inj hsame
        rw [put_put]
      · have hsrcNil : (read.put dstDB dstColl []) srcDB srcColl = [] := by
          rw [put_ne _ _ hsame, hread]
        rw [put_self hsrcNil]
    rw [hstep]
    exact hs.put hf hdst dstColl [] (by simp)
  · rw [if_neg hnone] at hrest'
    obtain ⟨_, t2, hmod2, hret⟩ := Prog.bind_ok hrest'
    cases hmod2
    cases hret
    have hcreated : ((s.indexes (indexKey newSrc srcColl)).map fun x =>
        commandEntry doc newDst (("createIndexes", .str dstColl) :: x.spec)).flatMap
          (indexOps everywhere) = (read srcDB srcColl).map fun x => .create newDst dstColl x := by
      have hone : ∀ x : IndexSpec, indexOps everywhere (commandEntry doc newDst
          (("createIndexes", .str dstColl) :: x.spec)) = [.create newDst dstColl (bareSpec x.spec)] := by
        intro x
        rw [indexOps_commandEntry he hddot (by simp)]
        simp [commandIndexOps, Doc.str, Doc.lookup, Value.str?, bareSpec_create]
      rw [← hspecs, List.map_map, List.flatMap_map, List.map_eq_flatMap]
      simp only [hone]
      rfl
    rw [List.flatMap_append, List.flatMap_append, replays_append, replays_append, hdropped, hcreated,
      replays_creates, List.flatMap_singleton, hdropAll _ _ hsdot, replay_dropAll, put_at,
      List.nil_append, put_put]
    have hput := (hs.put hf hdst dstColl (s.indexes (indexKey newSrc srcColl))
      (hs.specs _)).put hf hsrc srcColl [] (by simp)
    rw [hspecs] at hput
    simpa [State.setIndexes, Catalog.step] using hput

/-- Dropping the target of a rename first changes nothing: the rename replaces its indexes. -/
theorem step_drop_rename {x y : String} (h : (a, b) ≠ (x, y)) :
    (c.put x y []).step (.rename a b x y) = c.step (.rename a b x y) := by
  simp only [Catalog.step]
  rw [put_ne _ _ h, put_put]

theorem renameCollection_sim (hf : Apart f) (he : HasFields doc) (hop : doc.str "op" = some "c")
    (x : String) (hc : o = ("renameCollection", v) :: rest) :
    Simulates f (commandIndexOps x o) (f.renameCollection doc o) := by
  unfold Filter.renameCollection
  refine simulates_orFail fun src hsrc => simulates_orFail fun dst hdst => ?_
  refine simulates_orFail fun p hp => simulates_orFail fun q hq => ?_
  obtain ⟨srcDB, srcColl⟩ := p
  obtain ⟨dstDB, dstColl⟩ := q
  have hops : commandIndexOps x o = [.rename srcDB srcColl dstDB dstColl] := by
    subst hc
    simp [commandIndexOps, dropIndexesNames, hsrc, hdst, hp, hq]
  rw [hops]
  refine simulates_ite (fun _ => simulates_fail) fun hsel => simulates_ite (fun hun => ?_) fun hs => ?_
  · have hun : f.selected srcDB = false := by simpa using hun
    refine simulates_unselected fun op hop a ha => ?_
    rw [List.mem_singleton.mp hop] at ha
    have hsel : f.selected srcDB = f.selected dstDB := by simpa using hsel
    simp only [IndexOp.dbs, List.mem_cons, List.not_mem_nil, or_false] at ha
    rcases ha with rfl | rfl
    · exact hun
    · exact hsel ▸ hun
  have hs : f.selected srcDB = true := by simpa using hs
  have hd : f.selected dstDB = true := by
    have hsel : f.selected srcDB = f.selected dstDB := by simpa using hsel
    exact hsel ▸ hs
  refine simulates_lift fun newSrc hnewSrc => simulates_lift fun newDst hnewDst => ?_
  intro read replay s hsim hall r s' hrun
  obtain ⟨⟨hne, hnS, hnD⟩, -⟩ := hall
  have tS := Target.of hs hnewSrc hnS
  have tD := Target.of hd hnewDst hnD
  have hsdot := noDot_of_renameDB hnewSrc (cut_spec hp).2
  have hddot := noDot_of_renameDB hnewDst (cut_spec hq).2
  obtain ⟨dropped, t, hdropped, hrest⟩ := Prog.bind_ok hrun
  obtain ⟨moves, u, hmoves, hret⟩ := Prog.bind_ok hrest
  cases hret
  have hentry : ∀ ns' c, replays (indexOps everywhere (rewriteEntry doc (newSrc ++ ".$cmd")
      (Filter.renameCommand o (renameNS src srcDB newSrc) ns'))) c = c := by
    intro ns' c
    obtain ⟨w, more, hcons⟩ : ∃ w more, Filter.renameCommand o (renameNS src srcDB newSrc) ns' =
        ("renameCollection", w) :: more := by
      subst hc
      exact ⟨_, _, rfl⟩
    rw [indexOps_rewriteEntry he hop hsdot (by simp [hcons]), hcons, replay_rename]
  rw [List.flatMap_append, List.flatMap_append, replays_append, replays_append,
    List.flatMap_singleton, hentry]
  unfold Filter.dropTarget at hdropped
  split at hdropped
  · obtain ⟨_, w, htrack, hret⟩ := Prog.bind_ok hdropped
    cases htrack
    cases hret
    have hdrop : commandIndexOps newDst [("drop", .str dstColl)] = [.drop newDst dstColl] := by
      simp [commandIndexOps, Doc.str, Doc.lookup, Value.str?]
    rw [List.flatMap_singleton, indexOps_commandEntry he hddot (by simp), hdrop]
    have hmoved := moveIndexes_sim hf he tS tD hsdot hddot (hsim.drop hf tD dstColl) hmoves
    rw [Catalog.step, step_drop_rename read hne] at hmoved
    exact hmoved
  · cases hdropped
    exact moveIndexes_sim hf he tS tD hsdot hddot hsim hmoves

/-! ## Views -/

/-- What a delete from `system.views` names. -/
def viewOps (doc o : Doc) (opType db : String) : List IndexOp :=
  if opType = "d" then ((viewName doc o db).map (IndexOp.dropView db)).toList else []

/-- A view is dropped as a collection is. -/
theorem viewDrop_written (he : HasFields doc) (hdb : '.' ∉ db.toList) {r : Replaced}
    (hrun : (asCommand f doc db [("drop", .str name)] >>= fun d => pure ([d], 1)) s =
      (.ok r, s')) : ∃ dst, f.renameDB db = .ok dst ∧ s' = s ∧
      r.1.flatMap (indexOps everywhere) = [.drop dst name] := by
  obtain ⟨d, t, hcmd, hret⟩ := Prog.bind_ok hrun
  obtain ⟨dst, hren, hentry⟩ := Prog.lift_ok hcmd
  cases hentry
  cases hret
  refine ⟨dst, hren, rfl, ?_⟩
  rw [List.flatMap_singleton, indexOps_commandEntry he (noDot_of_renameDB hren hdb) (by simp)]
  simp [commandIndexOps, Doc.str, Doc.lookup, Value.str?]

theorem viewOp_sim (he : HasFields doc) (ho : doc.doc "o" = some o) (hdb : '.' ∉ db.toList)
    (hs : f.selected db = true) (opType : String) :
    Simulates f (viewOps doc o opType db) (viewOp f doc opType db) := by
  unfold viewOp
  refine simulates_orFail fun o' ho' => simulates_orFail fun name hname => ?_
  obtain rfl : o = o' := Option.some.inj (ho.symm.trans ho')
  refine simulates_ite (fun hd => ?_) fun hd => ?_
  · -- the drop that is written finds no indexes
    have hops : viewOps doc o opType db = [.dropView db name] := by simp [viewOps, hd, hname]
    rw [hops]
    intro read replay s hsim hall r s' hrun
    obtain ⟨⟨hn, hnone⟩, -⟩ := hall
    obtain ⟨dst, hren, rfl, hdrop⟩ := viewDrop_written he hdb hrun
    have hnil : replay dst name = [] :=
      (hsim.replay db dst name (Target.of hs hren hn)).trans (hnone hs)
    rw [hdrop]
    have hsame : replays [.drop dst name] replay = replay := put_self hnil
    rw [hsame]
    exact hsim
  · have hops : viewOps doc o opType db = [] := by simp [viewOps, hd]
    rw [hops]
    split
    · refine simulates_ite (fun _ => simulates_nil) fun _ => ?_
      refine asCommand_sim he hdb ?_ fun x => ?_
      · by_cases hu : opType = "u" <;> simp [hu]
      · by_cases hu : opType = "u" <;> simp [hu, commandIndexOps, dropIndexesNames]
    · exact simulates_fail

/-! ## Operations -/

/-- What the filtering of the operations of an applyOps is to keep. -/
structure NestedSim (f : Filter) (nested : Doc → M Replaced) : Prop where
  sim : ∀ o arr, o.array "applyOps" = some arr →
    Simulates f ((docsOf arr).flatMap (indexOps replayed)) (nested o)
  array : ∀ o, Prog.Returns (nested o) fun _ => ∃ arr, o.array "applyOps" = some arr

theorem ownIndexOps_applyOps (hop : d.str "op" = some "c") (hname : commandName d = "applyOps") :
    ownIndexOps d = [] := by
  obtain ⟨v, rest, ho⟩ := commandName_cons hname (by decide)
  unfold ownIndexOps
  split
  · rfl
  · simp [hop, ho, commandIndexOps, dropIndexesNames]

theorem indexOps_applyOps {looks : Doc → Bool} (hop : d.str "op" = some "c")
    (hname : commandName d = "applyOps") (hl : looks d = true) :
    indexOps looks d = (children d).flatMap (indexOps looks) := by
  rw [indexOps_eq, ownIndexOps_applyOps hop hname, if_pos hl, List.nil_append]

variable {nested : Doc → M Replaced}

theorem applyOps_sim (hn : NestedSim f nested) {arr : Doc} (hop : doc.str "op" = some "c")
    (ho : doc.doc "o" = some o) (hc : o = ("applyOps", v) :: rest)
    (harr : o.array "applyOps" = some arr) (db : String) :
    Simulates f ((docsOf arr).flatMap (indexOps replayed)) (f.applyOps nested doc o db) := by
  intro read replay s hs hall r s' hrun
  unfold Filter.applyOps at hrun
  obtain ⟨⟨ops, n⟩, t, hnest, hrest⟩ := Prog.bind_ok hrun
  have hsim := hn.sim o arr harr read replay s hs hall _ _ hnest
  dsimp only at hrest hsim
  split at hrest
  · rename_i hempty
    cases hrest
    rw [List.isEmpty_iff.mp hempty] at hsim
    exact hsim
  · obtain ⟨ns, u, hns, hret⟩ := Prog.bind_ok hrest
    have hu : u = t := by
      unfold Filter.applyOpsNS at hns
      split at hns
      · obtain ⟨dst, -, hns⟩ := Prog.lift_ok hns
        cases hns
        rfl
      · cases hns
        rfl
    subst hu
    cases hret
    have hcmd := applyOpsCommand_cons ops hc
    have hdo : (rewriteEntry doc ns (Filter.applyOpsCommand o ops)).doc "o" =
        some (Filter.applyOpsCommand o ops) := rewriteEntry_doc ho
    have hname : commandName (rewriteEntry doc ns (Filter.applyOpsCommand o ops)) = "applyOps" :=
      commandName_head hdo (by rw [hcmd]; rfl)
    rw [List.flatMap_singleton, indexOps_applyOps (rewriteEntry_op ns hop) hname rfl,
      children_wrapper (rewriteEntry_op ns hop) hdo hcmd]
    exact hsim

theorem systemDB_unselected {db : String} (h : systemDB db = true) : f.selected db = false := by
  simp [Filter.selected, h]

theorem command_sim (hf : Apart f) (hn : NestedSim f nested) (hop : doc.str "op" = some "c")
    {coll ns : String} (hns : doc.str "ns" = some ns) (hcut : cut ns = some (db, coll)) :
    Simulates f (indexOps replayed doc) (f.command nested doc db) := by
  have hdb := (cut_spec hcut).2
  have hdoc : database doc = some db := by simp [database, hns, hcut]
  unfold Filter.command
  refine simulates_orFail fun o ho => simulates_orFail fun p hp => ?_
  have he : HasFields doc := ⟨⟨_, hop⟩, ⟨ns, hns⟩, ⟨o, ho⟩⟩
  obtain ⟨name, v⟩ := p
  obtain ⟨rest, hc⟩ := List.head?_eq_some_iff.mp hp
  have hname : commandName doc = name := by simp [commandName, ho, hc]
  have hown : ownIndexOps doc = commandIndexOps db o := by
    simp [ownIndexOps, hns, hcut, hop, ho]
  -- a command other than applyOps is read for what it does itself
  have hplain : name ≠ "applyOps" → indexOps replayed doc = commandIndexOps db o := by
    intro hne
    rw [indexOps_eq, hown, children_of_name (hname ▸ hne)]
    simp
  have hskip : name ≠ "applyOps" → name ≠ "renameCollection" → f.selected db = false →
      Simulates f (indexOps replayed doc) (pure ([], 0)) := by
    intro hne hnr hun
    rw [hplain hne]
    subst hc
    refine simulates_unselected fun op hop a ha => ?_
    rw [commandIndexOps_dbs hnr hop] at ha
    exact List.mem_singleton.mp ha ▸ hun
  refine simulates_ite (fun hr => ?_) fun hnr => simulates_ite (fun hsys => ?_) fun hsys =>
    simulates_ite (fun ha => ?_) fun hne => ?_
  · subst hr
    rw [hplain (by decide)]
    exact renameCollection_sim hf he hop db hc
  · by_cases hne : name = "applyOps"
    · -- an applyOps on config or local is not looked into
      subst hne
      rw [indexOps_eq, ownIndexOps_applyOps hop hname,
        if_neg fun h => (replayed_iff hdoc).mp h hsys]
      exact simulates_nil
    · exact hskip hne hnr (systemDB_unselected hsys.1)
  · subst ha
    rw [indexOps_applyOps hop hname ((replayed_iff hdoc).mpr hsys)]
    rcases harr : o.array "applyOps" with _ | arr
    · intro read replay s hs hall r s' hrun
      unfold Filter.applyOps at hrun
      obtain ⟨_, t, hnest, -⟩ := Prog.bind_ok hrun
      obtain ⟨arr, harr'⟩ := hn.array o _ _ _ hnest
      rw [harr] at harr'
      cases harr'
    · rw [children_applyOps hop hname ho harr]
      exact applyOps_sim hn hop ho hc harr db
  · refine simulates_ite (fun hd => ?_) fun hnd => simulates_ite (fun hb => ?_) fun hnb =>
      simulates_ite (fun hi => ?_) fun _ => simulates_fail
    · refine simulates_ite (fun hun => hskip hne hnr (by simpa using hun)) fun hs => ?_
      rw [hplain hne]
      exact ddlOp_sim hf he hop ho hdb (by simpa using hs) hc hd
    · refine simulates_ite (fun hun => hskip hne hnr (by simpa using hun)) fun hs => ?_
      rw [hplain hne]
      subst hb
      exact commitIndexBuild_sim hf he hop hdb (by simpa using hs) hc
    · have hnil : commandIndexOps db o = [] := by
        rw [hc]
        rcases hi with rfl | rfl | rfl <;> simp [commandIndexOps, dropIndexesNames]
      rw [hplain hne, hnil]
      exact simulates_nil

theorem opWith_sim (hf : Apart f) (hn : NestedSim f nested) (doc : Doc) :
    Simulates f (indexOps replayed doc) (f.opWith nested doc) := by
  unfold Filter.opWith
  refine simulates_orFail fun t hop => simulates_ite (fun hi => ?_) fun _ => ?_
  · have hnil : indexOps replayed doc = [] := by
      have hc : t ≠ "c" ∧ t ≠ "d" := by
        simp only [ignoredOps, List.mem_cons, List.not_mem_nil, or_false] at hi
        rcases hi with rfl | rfl | rfl | rfl | rfl <;> decide
      rw [indexOps_eq, children_of_op (by simpa [hop] using hc.1)]
      unfold ownIndexOps
      split <;> simp [hop, hc.1, hc.2]
    rw [hnil]
    exact simulates_nil
  refine simulates_orFail fun ns hns => simulates_orFail fun p hp => ?_
  obtain ⟨db, coll⟩ := p
  have hcut : cut ns = some (db, coll) := (Option.filter_eq_some_iff.mp hp).1
  refine simulates_ite (fun ht => ?_) fun _ => simulates_ite (fun ht => ?_) fun _ => simulates_fail
  · have hc : t ≠ "c" := by
      rcases ht with rfl | rfl | rfl <;> decide
    have hown : indexOps replayed doc = if t = "d" ∧ coll = viewsCollection then
        ((viewName doc ((doc.doc "o").getD []) db).map (IndexOp.dropView db)).toList else [] := by
      rw [indexOps_eq, children_of_op (by simpa [hop] using hc)]
      simp [ownIndexOps, hns, hcut, hop, hc]
    refine simulates_ite (fun hun => ?_) fun hs => simulates_ite (fun hv => ?_) fun hv => ?_
    · -- a view of a database that is not selected
      rw [hown]
      refine simulates_unselected fun op hop a ha => ?_
      split at hop
      · simp only [Option.mem_toList, Option.map_eq_some_iff] at hop
        obtain ⟨name, -, rfl⟩ := hop
        cases ha
      · cases hop
    · rcases ho : doc.doc "o" with _ | o
      · intro read replay s _ _ r s' hrun
        unfold viewOp at hrun
        rw [ho] at hrun
        cases hrun
      · have hview : indexOps replayed doc = viewOps doc o t db := by
          rw [hown, viewOps]
          simp [hv, ho]
        rw [hview]
        exact viewOp_sim ⟨⟨t, hop⟩, ⟨ns, hns⟩, ⟨o, ho⟩⟩ ho (cut_spec hcut).2 (by simpa using hs) t
    · rw [hown, if_neg (by simp [hv])]
      intro read replay s hsim _ r s' hrun
      unfold Filter.crud at hrun
      obtain ⟨d, u, hd, hret⟩ := Prog.bind_ok hrun
      obtain ⟨dst, hren, hentry⟩ := Prog.lift_ok hd
      cases hentry
      cases hret
      have hnone : ∀ d : Doc, d.str "op" = some t → d.str "ns" = some (dst ++ "." ++ coll) →
          indexOps everywhere d = [] := by
        intro d hdop hdns
        have hdcut := cut_append (a := dst) coll (noDot_of_renameDB hren (cut_spec hcut).2)
        rw [indexOps_eq, children_of_op (by simpa [hdop] using hc)]
        simp [ownIndexOps, hdop, hdns, hdcut, hc, hv]
      rw [List.flatMap_singleton, hnone]
      · exact hsim
      · exact str_rebuild hop fun v => by simp [strippedFields]
      · exact str_rebuild_new _ hns fun v => by simp [strippedFields]
  · exact command_sim hf hn (ht ▸ hop) hns hcut

/-- By induction on the operations of an applyOps. -/
theorem eachOp_sim {g : String × Value → M Replaced} {arr : Doc}
    (hg : ∀ x ∈ arr, ∀ c, x.2.doc? = some c → Simulates f (indexOps replayed c) (g x))
    (hdoc : ∀ x ∈ arr, Prog.Returns (g x) fun _ => ∃ c, x.2.doc? = some c) {outs : List Replaced}
    (hs : Sim f read replay s) (hall : AllAllowed f read ((docsOf arr).flatMap (indexOps replayed)))
    (hrun : Prog.each g arr s = (.ok outs, s')) :
    Sim f (reads ((docsOf arr).flatMap (indexOps replayed)) read)
      (replays ((outs.flatMap (·.1)).flatMap (indexOps everywhere)) replay) s' := by
  induction arr generalizing read replay s outs with
  | nil =>
    cases hrun
    exact hs
  | cons x arr ih =>
    obtain ⟨r, t, hr, hrest⟩ := Prog.bind_ok hrun
    obtain ⟨rs, u, hrs, hret⟩ := Prog.bind_ok hrest
    cases hret
    obtain ⟨c, hc⟩ := hdoc x List.mem_cons_self _ _ _ hr
    have hdocs : docsOf (x :: arr) = c :: docsOf arr := by simp [docsOf, hc]
    rw [hdocs, List.flatMap_cons, allAllowed_append] at hall
    have hone := hg x List.mem_cons_self c hc read replay s hs hall.1 r t hr
    have hmore := ih (fun y hy => hg y (List.mem_cons_of_mem _ hy))
      (fun y hy => hdoc y (List.mem_cons_of_mem _ hy)) hone hall.2 hrs
    rw [hdocs, List.flatMap_cons, reads_append, List.flatMap_cons, List.flatMap_append,
      replays_append]
    exact hmore

/-- By induction on the levels of nesting that are left. -/
theorem nested_sim (hf : Apart f) (levels : Nat) : NestedSim f (f.nested levels) := by
  induction levels with
  | zero =>
    refine ⟨fun o arr _ => simulates_fail, fun o => Prog.Returns.fail⟩
  | succ levels ih =>
    refine ⟨fun o arr harr => ?_, fun o => ?_⟩
    · unfold Filter.nested
      refine simulates_orFail fun arr' harr' => ?_
      obtain rfl : arr = arr' := Option.some.inj (harr.symm.trans harr')
      intro read replay s hs hall r s' hrun
      obtain ⟨outs, t, houts, hret⟩ := Prog.bind_ok hrun
      cases hret
      refine eachOp_sim (fun x _ c hc => ?_) (fun x _ => ?_) hs hall houts
      · refine simulates_orFail fun c' hc' => ?_
        obtain rfl : c = c' := Option.some.inj (hc.symm.trans hc')
        exact opWith_sim hf ih c
      · exact Prog.Returns.bind Prog.Returns.orFail fun c hc => (Prog.Returns.any _).mono
          fun _ _ => ⟨c, hc⟩
    · unfold Filter.nested
      exact Prog.Returns.bind Prog.Returns.orFail fun arr harr => (Prog.Returns.any _).mono
        fun _ _ => ⟨arr, harr⟩

/-! ## Transactions -/

theorem Sim.indexes {t : State} (h : Sim f read replay s) (ht : t.indexes = s.indexes) :
    Sim f read replay t :=
  ⟨h.replay, fun a d c hd => ht ▸ h.record a d c hd, fun k x hx => h.specs k x (ht ▸ hx)⟩

theorem indexOps_txnEnd {looks : Doc → Bool} (hop : d.str "op" = some "c")
    (hname : commandName d = "commitTransaction" ∨ commandName d = "abortTransaction") :
    indexOps looks d = [] := by
  have hne : commandName d ≠ "applyOps" := by
    rcases hname with h | h <;> simp [h]
  have hown : ownIndexOps d = [] := by
    rcases hname with h | h
    all_goals
      obtain ⟨v, rest, ho⟩ := commandName_cons h (by decide)
      unfold ownIndexOps
      split
      · rfl
      · simp [hop, ho, commandIndexOps, dropIndexesNames]
  rw [indexOps_eq, hown, children_of_name hne]
  simp

theorem txnEnd_sim {id : Bytes} (hid : txnID doc = some id)
    (hname : commandName doc = "commitTransaction" ∨ commandName doc = "abortTransaction") :
    Simulates f (indexOps replayed doc) (Filter.txnEnd doc id) := by
  have hop := (txnID_spec hid).1
  rw [indexOps_txnEnd hop hname]
  intro read replay s hs _ r s' hrun
  have hsame := txnEntry_same hid
  have hend := txnEnd_ok (by rcases hname with h | h <;> simp [h]) hrun
  have hwritten : indexOps everywhere (txnEntry doc fun _ v => v) = [] :=
    indexOps_txnEnd (txnEntry_op hop) (by rw [hsame.name]; exact hname)
  have hout : r.1.flatMap (indexOps everywhere) = [] := by
    rw [hend.out]
    split
    · rfl
    · rw [List.flatMap_singleton, hwritten]
  rw [hout]
  exact hs.indexes (by rw [hend.state]; rfl)

theorem txnApplyOps_sim (hf : Apart f) {id : Bytes} (hid : txnID doc = some id)
    (hname : commandName doc = "applyOps") (hns : doc.str "ns" = some "admin.$cmd") :
    Simulates f (indexOps replayed doc) (f.txnApplyOps doc id) := by
  have hop := (txnID_spec hid).1
  obtain ⟨v, rest, ho⟩ := commandName_cons hname (by decide)
  rw [indexOps_applyOps hop hname (replayed_admin hns)]
  intro read replay s hs hall r s' hrun
  have hrun' := hrun
  unfold Filter.txnApplyOps at hrun'
  obtain ⟨s0, t0, hget, hrest⟩ := Prog.bind_ok hrun'
  cases hget
  simp only [ho, Option.getD_some] at hrest
  obtain ⟨⟨ops, n⟩, u, hnest, hlast⟩ := Prog.bind_ok hrest
  have hns := nested_sim hf maxApplyOpsDepth
  obtain ⟨arr, harr⟩ := hns.array _ _ _ _ hnest
  rw [children_applyOps hop hname ho harr] at hall ⊢
  have hsim := hns.sim _ arr harr read replay s hs hall _ _ hnest
  -- what is written of the entry has the operations that are left
  have hindexes : s'.indexes = u.indexes := by
    split at hlast
    · obtain ⟨_, w, hmod, hret⟩ := Prog.bind_ok hlast
      cases hmod
      cases hret
      rfl
    · obtain ⟨_, w, hmod, hret⟩ := Prog.bind_ok hlast
      cases hmod
      split at hret <;> cases hret <;> rfl
  obtain ⟨ops', n', happ⟩ := txnApplyOps_ok hname hrun
  have hkept : ops' = ops := by
    rw [← happ.kept]
    simp [keptOps, hname, ho, hnest]
  subst hkept
  obtain ⟨st, -, -, -, hcase⟩ := happ.out
  have hout : r.1.flatMap (indexOps everywhere) = ops'.flatMap (indexOps everywhere) := by
    rcases hcase with ⟨rfl, -, -, rfl⟩ | ⟨-, -, rfl⟩
    · rfl
    · obtain ⟨hsame, hch⟩ := txnCommand_same hid hname ops' st.ops
      rw [List.flatMap_singleton, indexOps_applyOps (txnEntry_op hop) (hsame.name.trans hname) rfl, hch]
  rw [hout]
  exact hsim.indexes hindexes

theorem entryOp_sim (hf : Apart f) (doc : Doc) :
    Simulates f (indexOps replayed doc) (f.entryOp doc) := by
  unfold Filter.entryOp
  split
  · rename_i id hid
    unfold Filter.transaction
    refine simulates_ite (fun _ => simulates_fail) fun hns =>
      simulates_ite (fun hend => txnEnd_sim hid hend) fun hend => ?_
    refine txnApplyOps_sim hf hid ?_ (not_not.mp hns)
    have hname := (txnID_spec hid).2
    simp only [wrapperNames, List.mem_cons, List.not_mem_nil, or_false] at hname
    tauto
  · exact opWith_sim hf (nested_sim hf _) doc

end

/-! ## The stream -/

/-- By induction on the stream. -/
theorem applyAll_sim (hf : Apart f) {es : List (Filter.Raw × Option Nat)} {bs : List Bool}
    {read replay : Catalog} {s s' : State} (hs : Sim f read replay s) (hall : s.limitReached = false →
      AllAllowed f read ((beforeLimit f.limit (es.map (·.1))).flatMap (indexOps replayed)))
    (h : applyAll f es s = (.ok bs, s')) : ∃ out, s'.emitted = s.emitted ++ out ∧
      Sim f (if s.limitReached then read else
        reads ((beforeLimit f.limit (es.map (·.1))).flatMap (indexOps replayed)) read)
        (replays (out.flatMap (indexOps everywhere)) replay) s' := by
  induction es generalizing s bs read replay with
  | nil =>
    cases h
    exact ⟨[], by simp, by simpa [beforeLimit, reads, replays] using hs⟩
  | cons e es ih =>
    obtain ⟨b, t, bs', hb, hbs⟩ := applyAll_cons h
    rcases apply_ok hb with ⟨hl, -, rfl⟩ | ⟨hl, d, ts, hd, hts, hrest⟩
    · obtain ⟨out, hout, hsim⟩ := ih hs (fun hno => by rw [hl] at hno; cases hno) hbs
      exact ⟨out, hout, by simpa [hl] using hsim⟩
    have hall := hall hl
    rcases hrest with ⟨hat, -, rfl⟩ | ⟨hat, -, out', n, u, hop, rfl⟩
    · obtain ⟨out, hout, hsim⟩ := ih (hs.indexes (t := { s with limitReached := true }) rfl)
        (fun hno => by cases hno) hbs
      refine ⟨out, hout, ?_⟩
      rw [List.map_cons, hd, beforeLimit_at _ hts hat]
      simpa [hl, reads] using hsim
    · have hb := beforeLimit_before (es.map (·.1)) hts hat
      rw [← hd] at hb
      obtain ⟨hem, hlim⟩ := entryOp_progress hop
      rw [List.map_cons, hb, List.flatMap_cons, allAllowed_append] at hall
      have hone := entryOp_sim hf d read replay s hs hall.1 _ _ hop
      have hone' := hone.indexes (t := { emit u out' with ops := u.ops + n }) rfl
      obtain ⟨out, hout, hsim⟩ := ih hone' (fun _ => hall.2) hbs
      refine ⟨out' ++ out, by rw [hout]; simp [emit, hem], ?_⟩
      rw [List.map_cons, hb, List.flatMap_cons, reads_append, List.flatMap_append, replays_append]
      have hlim' : u.limitReached = false := hlim.trans hl
      simpa [hl, emit, hlim'] using hsim

/-- **The catalogs agree.** After every stream without errors mongorestore's catalog of what was written
holds, for every selected database under the name it is replayed into, the specifications of the true
catalog, and so does the filter's record. No two selected databases are replayed into one; what is asked of
the stream is `Allowed`. Commands on `config` and `local` are not replayed, applyOps included. -/
theorem catalogs_agree {f : Filter} {es : List (Filter.Raw × Option Nat)} {bs : List Bool} {s : State}
    (hf : Apart f) (hall : AllAllowed f (fun _ _ => [])
      ((beforeLimit f.limit (es.map (·.1))).flatMap (indexOps replayed)))
    (h : applyAll f es {} = (.ok bs, s)) :
    Sim f (readCatalog (beforeLimit f.limit (es.map (·.1)))) (replayCatalog s.emitted) s := by
  have h0 : Sim f (fun _ _ => []) (fun _ _ => []) {} :=
    ⟨fun _ _ _ _ => rfl, fun _ _ _ _ => rfl, fun _ _ hx => by cases hx⟩
  obtain ⟨out, hout, hsim⟩ := applyAll_sim hf h0 (fun _ => hall) h
  have hs : s.emitted = out := by simpa using hout
  rw [hs]
  simpa [readCatalog, replayCatalog, reads, replays] using hsim

/-! ## Streams -/

def indexCommand (ns : String) (o : Doc) : Doc :=
  [("ts", .timestamp 1 1), ("op", .str "c"), ("ns", .str ns), ("o", .doc o)]

/-- The specification of an index on `x`. -/
def indexOnX : Doc := [("name", .str "i"), ("key", .doc [("x", .int32 1)])]

def createOn (coll : String) : Doc := ("createIndexes", .str coll) :: indexOnX

def renameAtoB : Doc := [("renameCollection", .str "src.a"), ("to", .str "src.b")]

theorem indexOps_indexCommand (looks : Doc → Bool) {ns : String} {o : Doc}
    (hns : cut ns = some (db, "$cmd")) (hname : o.head?.map (·.1) ≠ some "applyOps") :
    indexOps looks (indexCommand ns o) = commandIndexOps db o := by
  have hne : commandName (indexCommand ns o) ≠ "applyOps" := by
    intro h
    obtain ⟨v, rest, ho⟩ := commandName_cons h (by decide)
    have ho : o = ("applyOps", v) :: rest := by
      simpa [indexCommand, Doc.doc, Doc.lookup, Value.doc?] using ho
    simp [ho] at hname
  rw [indexOps_eq, children_of_name hne]
  simp [ownIndexOps, indexCommand, Doc.str, Doc.doc, Doc.lookup, Value.str?, Value.doc?, hns]

theorem commandIndexOps_createOn (db coll : String) :
    commandIndexOps db (createOn coll) = [.create db coll indexOnX] := rfl

/-- A collection that is renamed after an index was built on it. -/
def renameRun : List (Filter.Raw × Option Nat) :=
  [(.doc (indexCommand "src.$cmd" (createOn "a")), none),
    (.doc (indexCommand "src.$cmd" renameAtoB), none)]

theorem apart_cloneSrc : Apart cloneSrc := by
  intro a b dst ha hb _ _
  have hsrc : ∀ db, cloneSrc.selected db = true → db = "src" := by
    intro db h
    simp [Filter.selected, cloneSrc] at h
    exact h.2
  rw [hsrc a ha, hsrc b hb]

/-- The index moves with its collection, in all three. -/
theorem catalogs_agree_renamed : ∃ bs s, applyAll cloneSrc renameRun {} = (.ok bs, s) ∧
    (s.indexes (indexKey "src_r" "a")).length = 0 ∧ (s.indexes (indexKey "src_r" "b")).length = 1 ∧
    Sim cloneSrc (readCatalog (beforeLimit cloneSrc.limit (renameRun.map (·.1))))
      (replayCatalog s.emitted) s := by
  have hrun : let r := applyAll cloneSrc renameRun {}
      r.1.toOption = some [false, false] ∧ (r.2.indexes (indexKey "src_r" "a")).length = 0 ∧
        (r.2.indexes (indexKey "src_r" "b")).length = 1 := by
    decide +kernel
  have hbefore : beforeLimit cloneSrc.limit (renameRun.map (·.1)) =
      [indexCommand "src.$cmd" (createOn "a"), indexCommand "src.$cmd" renameAtoB] := rfl
  have hcut : cut "src.$cmd" = some ("src", "$cmd") := by decide
  have hnamed : Named cloneSrc "src" := fun hi => by cases hi
  have hall : AllAllowed cloneSrc (fun _ _ => [])
      ((beforeLimit cloneSrc.limit (renameRun.map (·.1))).flatMap (indexOps replayed)) := by
    have hrename : commandIndexOps "src" renameAtoB = [.rename "src" "a" "src" "b"] := by
      have h1 : cut "src.a" = some ("src", "a") := by decide
      have h2 : cut "src.b" = some ("src", "b") := by decide
      simp [commandIndexOps, renameAtoB, dropIndexesNames, Doc.str, Doc.lookup, Value.str?, h1, h2]
    rw [hbefore, List.flatMap_cons, List.flatMap_singleton,
      indexOps_indexCommand _ hcut (by decide), indexOps_indexCommand _ hcut (by decide),
      commandIndexOps_createOn, hrename]
    exact ⟨hnamed, ⟨by decide, hnamed, hnamed⟩, trivial⟩
  rcases h : applyAll cloneSrc renameRun {} with ⟨r, s⟩
  rw [h] at hrun
  obtain ⟨hr, ha, hb⟩ := hrun
  cases r with
  | error e => cases hr
  | ok bs => exact ⟨bs, s, rfl, ha, hb, catalogs_agree apart_cloneSrc hall h⟩

/-! ## Where they do not -/

/-- A stream of one entry that builds an index of `ns`. -/
def createRun (ns coll : String) : List (Filter.Raw × Option Nat) :=
  [(.doc (indexCommand ns (createOn coll)), none)]

theorem readCatalog_concat (ds : List Doc) (d : Doc) :
    readCatalog (ds ++ [d]) = reads (indexOps replayed d) (readCatalog ds) := by
  simp [readCatalog, reads]

theorem readCatalog_createOn (ns db coll : String) (hns : cut ns = some (db, "$cmd")) :
    readCatalog [indexCommand ns (createOn coll)] =
      Catalog.put (fun _ _ => []) db coll [indexOnX] := by
  rw [readCatalog, List.flatMap_singleton, indexOps_indexCommand _ hns (by simp [createOn]),
    commandIndexOps_createOn]
  rfl

/-- An applyOps on `config` that builds an index in `src`. -/
def configRun : List (Filter.Raw × Option Nat) :=
  [(.doc (indexCommand "config.$cmd"
    [("applyOps", .array [("0", .doc (indexCommand "src.$cmd" (createOn "a")))])]), none)]

/-- A view is dropped whose name has indexes. -/
def dropV : Doc :=
  [("ts", .timestamp 1 2), ("op", .str "d"), ("ns", .str "src.system.views"),
    ("o", .doc [("_id", .str "src.v")])]

def viewRun : List (Filter.Raw × Option Nat) := createRun "src.$cmd" "v" ++ [(.doc dropV, none)]

theorem entryOp_dropV : cloneSrc.entryOp dropV =
    (asCommand cloneSrc dropV "src" [("drop", .str "v")] >>= fun d => pure ([d], 1)) := rfl

theorem viewRun_replay {bs : List Bool} {s : State} (h : applyAll cloneSrc viewRun {} = (.ok bs, s)) :
    replayCatalog s.emitted "src_r" "v" = [] := by
  obtain ⟨b, t, bs', hb, hrest⟩ := applyAll_cons h
  obtain ⟨b', u, bs'', hb', hnil⟩ := applyAll_cons hrest
  cases hnil
  have hl : t.limitReached = false := by
    obtain ⟨hl, -⟩ | ⟨-, d, ts, -, -, ⟨hat, -⟩ | ⟨-, -, out, n, v, hop, rfl⟩⟩ := apply_ok hb
    · cases hl
    · exact absurd rfl hat.1
    · exact (entryOp_progress hop).2
  obtain ⟨hl', -⟩ | ⟨-, d, ts, hd, -, ⟨hat, -⟩ | ⟨-, -, out, n, v, hop, rfl⟩⟩ := apply_ok hb'
  · rw [hl] at hl'
    cases hl'
  · exact absurd rfl hat.1
  · cases hd
    have hem := (entryOp_progress hop).1
    rw [entryOp_dropV] at hop
    have he : HasFields dropV := ⟨⟨_, rfl⟩, ⟨_, rfl⟩, ⟨_, rfl⟩⟩
    obtain ⟨dst, hdst, -, hdrop⟩ := viewDrop_written he (by decide) hop
    obtain rfl : "src_r" = dst := by
      have hsrc : cloneSrc.renameDB "src" = .ok "src_r" := rfl
      rw [hsrc] at hdst
      cases hdst
      rfl
    simp [replayCatalog, emit, hdrop, Catalog.replay, Catalog.step, Catalog.put]

theorem applyAll_ran {es : List (Filter.Raw × Option Nat)} {b : List Bool}
    (h : (applyAll f es {}).1.toOption = some b) :
    applyAll f es {} = (.ok b, (applyAll f es {}).2) := by
  rcases hr : applyAll f es {} with ⟨e | bs', s⟩ <;> rw [hr] at h <;> cases h
  rfl

/-- Commands on `config` are not replayed; two databases are replayed into one; a database name with NUL
reads as a collection's; a view is dropped under a collection's name. -/
theorem catalogs_differ : (∃ bs s, applyAll cloneSrc configRun {} = (.ok bs, s) ∧ s.emitted = [] ∧
      (beforeLimit cloneSrc.limit (configRun.map (·.1))).flatMap (indexOps everywhere) =
        [.create "src" "a" indexOnX]) ∧
    (∃ bs s, let f : Filter := { rename := some fun _ => "r" }
      applyAll f (createRun "a.$cmd" "c") {} = (.ok bs, s) ∧ f.renameDB "b" = .ok "r" ∧
      readCatalog (beforeLimit f.limit ((createRun "a.$cmd" "c").map (·.1))) "b" "c" = [] ∧
      s.indexes (indexKey "r" "c") ≠ []) ∧
    (∃ bs s, let f : Filter := { inPlace := true }
      let es := createRun "a\x00b.$cmd" "c" ++
        [(.doc (indexCommand "a.$cmd" [("dropDatabase", .int32 1)]), none)]
      applyAll f es {} = (.ok bs, s) ∧
      readCatalog (beforeLimit f.limit (es.map (·.1))) "a\x00b" "c" = [indexOnX] ∧
      s.indexes (indexKey "a\x00b" "c") = []) ∧
    (∃ bs s, applyAll cloneSrc viewRun {} = (.ok bs, s) ∧
      readCatalog (beforeLimit cloneSrc.limit (viewRun.map (·.1))) "src" "v" = [indexOnX] ∧
      replayCatalog s.emitted "src_r" "v" = []) := by
  have hsrc : cut "src.$cmd" = some ("src", "$cmd") := by decide
  have ha : cut "a.$cmd" = some ("a", "$cmd") := by decide
  have hab : cut "a\x00b.$cmd" = some ("a\x00b", "$cmd") := by decide
  refine ⟨⟨[false], _, applyAll_ran (by decide +kernel), ?_, ?_⟩,
    ⟨[false], _, applyAll_ran (by decide +kernel), rfl, ?_, ?_⟩,
    ⟨[false, false], _, applyAll_ran (by decide +kernel), ?_, ?_⟩,
    ⟨[false, false], _, applyAll_ran (by decide +kernel), ?_,
      viewRun_replay (applyAll_ran (b := [false, false]) (by decide +kernel))⟩⟩
  · exact List.length_eq_zero_iff.mp (by decide +kernel)
  · have hin : indexOps everywhere (indexCommand "src.$cmd" (createOn "a")) =
        [.create "src" "a" indexOnX] := by
      rw [indexOps_indexCommand _ hsrc (by decide),
        commandIndexOps_createOn]
    rw [show beforeLimit cloneSrc.limit (configRun.map (·.1)) = [indexCommand "config.$cmd"
      [("applyOps", .array [("0", .doc (indexCommand "src.$cmd" (createOn "a")))])]] from rfl,
      List.flatMap_singleton, indexOps_applyOps rfl rfl rfl]
    exact (List.flatMap_singleton _ _).trans hin
  · exact congrFun₂ (readCatalog_createOn _ _ "c" ha) "b" "c"
  · exact List.ne_nil_of_length_pos (by decide +kernel)
  · have hdrop : indexOps replayed (indexCommand "a.$cmd" [("dropDatabase", .int32 1)]) =
        [.dropDatabase "a"] := by
      rw [indexOps_indexCommand _ ha (by decide)]
      rfl
    exact (congrFun₂ (readCatalog_concat [_] _) _ _).trans (by
      rw [hdrop, readCatalog_createOn _ _ _ hab]
      rfl)
  · exact List.length_eq_zero_iff.mp (by decide +kernel)
  · have hdrop : indexOps replayed dropV = [.dropView "src" "v"] := by
      rw [indexOps_eq, show children dropV = [] from rfl]
      rfl
    exact (congrFun₂ (readCatalog_concat [_] _) _ _).trans (by
      rw [hdrop, readCatalog_createOn _ _ _ hsrc]
      rfl)

end MongoRescue.Oplog.Proof
