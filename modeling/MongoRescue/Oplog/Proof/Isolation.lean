import MongoRescue.Oplog.Proof.Entries

/-!
# Clone isolation of the oplog filter

A filter in rename mode writes entries that carry only namespaces of renamed databases. An entry
*names* a namespace (`Names`) in its `ns` and, when it is a command, in `o.renameCollection`, `o.to`,
`o.ns`, `o.idIndex.ns` and `o2.ns`; the operations of an applyOps or of a transaction entry are
*within* it (`Within`), at any depth. `Isolated f ns`: the database of `ns` is the rename of a selected
one, and is itself not selected.

The indexes the filter remembers are the state that couples one entry to a later one: `StateClean`
is kept by every command, and `moveIndexes` needs it.
-/

namespace MongoRescue.Oplog.Proof

open Prog (Triple)

/-! ## Namespaces of an entry -/

/-- `op` is the entry `d`, or an operation nested in it. -/
inductive Within : Doc → Doc → Prop
  | self (d : Doc) : Within d d
  | nested {op d o arr : Doc} {i : String} {c : Doc} : d.str "op" = some "c" →
      commandName d = "applyOps" → d.doc "o" = some o → o.array "applyOps" = some arr →
      (i, Value.doc c) ∈ arr → Within op c → Within op d

/-- The command document `o` names `ns`. -/
inductive CommandNames (o : Doc) : String → Prop
  | field {k ns : String} : k ∈ ["renameCollection", "to", "ns"] → (k, Value.str ns) ∈ o →
      CommandNames o ns
  | idIndex {spec : Doc} {ns : String} : ("idIndex", Value.doc spec) ∈ o →
      ("ns", Value.str ns) ∈ spec → CommandNames o ns

/-- The entry `d` itself names `ns`, not counting the `admin.$cmd` of a wrapper. -/
inductive Names (d : Doc) : String → Prop
  | ns {ns : String} : d.str "ns" = some ns →
      ¬ (ns = "admin.$cmd" ∧ d.str "op" = some "c" ∧ commandName d ∈ wrapperNames) → Names d ns
  | o {o : Doc} {ns : String} : d.str "op" = some "c" → d.doc "o" = some o →
      CommandNames o ns → Names d ns
  | o2 {spec : Doc} {ns : String} : d.str "op" = some "c" → ("o2", Value.doc spec) ∈ d →
      ("ns", Value.str ns) ∈ spec → Names d ns

/-- The database of `ns` is the rename of a selected one, and no selected one. -/
def Isolated (f : Filter) (ns : String) : Prop :=
  ∃ r db coll, f.rename = some r ∧ f.selected db ∧ cut ns = some (r db, coll) ∧
    ¬ f.selected (r db)

/-- Every namespace the entry carries, at any depth, is isolated. -/
def Clean (f : Filter) (d : Doc) : Prop := ∀ op, Within op d → ∀ ns, Names op ns → Isolated f ns

/-! ## What the result asks of a stream -/

/-- The command entry `op` carries an index specification with the namespace `ns`: in `o`, in
`o.idIndex`, in `o2` or in one of `o.indexes`. -/
inductive SpecNames (op : Doc) : String → Prop
  | o {o : Doc} {ns : String} : op.doc "o" = some o → ("ns", Value.str ns) ∈ o → SpecNames op ns
  | idIndex {o spec : Doc} {ns : String} : op.doc "o" = some o →
      ("idIndex", Value.doc spec) ∈ o → ("ns", Value.str ns) ∈ spec → SpecNames op ns
  | o2 {spec : Doc} {ns : String} : ("o2", Value.doc spec) ∈ op → ("ns", Value.str ns) ∈ spec →
      SpecNames op ns
  | indexes {o arr spec : Doc} {i ns : String} : op.doc "o" = some o →
      commandName op = "commitIndexBuild" → o.array "indexes" = some arr →
      (i, Value.doc spec) ∈ arr → ("ns", Value.str ns) ∈ spec → SpecNames op ns

/-- Each index specification's `ns` names the entry's own database. -/
def SpecsOwn (d : Doc) : Prop :=
  ∀ op, Within op d → op.str "op" = some "c" → ∀ db ns, database op = some db →
    SpecNames op ns → ∃ coll, ns = db ++ "." ++ coll

/-- The filter looks into the command `op`. -/
def Relevant (f : Filter) (op : Doc) : Prop :=
  op.str "op" = some "c" ∧ (commandName op ∈ "renameCollection" :: wrapperNames ∨
    ∃ db, database op = some db ∧ f.selected db)

/-- An index specification names no namespace but its `ns`. -/
structure PlainSpec (spec : Doc) : Prop where
  rename : ∀ k ns, k ∈ ["renameCollection", "to"] → (k, Value.str ns) ∉ spec
  idIndex : ∀ sub ns, ("idIndex", Value.doc sub) ∈ spec → ("ns", Value.str ns) ∉ sub

/-- The namespaces of the command `op` stand where the filter rewrites them: `renameCollection` and
`to` in a rename, `ns`, `idIndex.ns` and `o2.ns` in a DDL command, and **no `ns` in a createIndexes**,
which the filter remembers as it is. -/
structure Placed (op : Doc) : Prop where
  rename : ∀ o k ns, op.doc "o" = some o → k ∈ ["renameCollection", "to"] →
    (k, Value.str ns) ∈ o → commandName op = "renameCollection"
  ns : ∀ o ns, op.doc "o" = some o → ("ns", Value.str ns) ∈ o →
    commandName op ∈ Filter.ddlNames ∧ commandName op ≠ "createIndexes"
  idIndex : ∀ o spec ns, op.doc "o" = some o → ("idIndex", Value.doc spec) ∈ o →
    ("ns", Value.str ns) ∈ spec →
    commandName op ∈ Filter.ddlNames ∧ commandName op ≠ "createIndexes"
  o2 : ∀ spec ns, ("o2", Value.doc spec) ∈ op → ("ns", Value.str ns) ∈ spec →
    commandName op ∈ Filter.ddlNames
  indexes : ∀ o arr i spec, op.doc "o" = some o → commandName op = "commitIndexBuild" →
    o.array "indexes" = some arr → (i, Value.doc spec) ∈ arr → PlainSpec spec

/-- What the result asks of an entry of the stream. -/
def Good (f : Filter) (d : Doc) : Prop :=
  SpecsOwn d ∧ ∀ op, Within op d → Relevant f op → Placed op

/-- A condition on the entries that are documents. -/
def OfRaw (P : Doc → Prop) : Filter.Raw → Prop
  | .malformed => True
  | .doc d => P d

/-! ## Isolated namespaces -/

/-- A filter that renames, and renames selected databases to unselected ones. -/
structure CloneMode (f : Filter) (r : String → String) : Prop where
  rename : f.rename = some r
  inPlace : f.inPlace = false
  fresh : ∀ db, f.selected db → ¬ f.selected (r db)

section
variable {f : Filter} {r : String → String}

variable {db dst ns k coll src : String} {d entry cmd o spec doc : Doc} {s : State} {v : Value}
  {nested : Doc → M Replaced} {id : Go.Bytes} {edit : String → Value → Option Value}

theorem validTarget_no_dot (h : Filter.validTarget db dst) : '.' ∉ dst.toList := by
  intro hd
  simp only [Filter.validTarget, Bool.not_eq_true', Bool.or_eq_false_iff, List.any_eq_false] at h
  exact h.1.2 '.' hd (by decide)

theorem renameNS_own (db dst coll : String) :
    renameNS (db ++ "." ++ coll) db dst = dst ++ "." ++ coll := by
  simp [renameNS, cutPrefix_append]

/-! ## Building clean entries -/

/-- A namespace in the command document is isolated. -/
def CommandClean (f : Filter) (o : Doc) : Prop := ∀ ns, CommandNames o ns → Isolated f ns

/-- An entry is clean when its `ns`, `o` and `o2` are, and the operations nested in it. -/
theorem clean_of_fields (hn : ∀ s, d.str "ns" = some s → s = ns)
    (ho : ∀ o', d.doc "o" = some o' → o' = o) (hns : Isolated f ns ∨
      ns = "admin.$cmd" ∧ d.str "op" = some "c" ∧ commandName d ∈ wrapperNames)
    (hc : CommandClean f o)
    (ho2 : ∀ spec s, ("o2", Value.doc spec) ∈ d → ("ns", Value.str s) ∈ spec → Isolated f s)
    (hnest : ∀ v rest arr i c, o = ("applyOps", v) :: rest → o.array "applyOps" = some arr →
      (i, Value.doc c) ∈ arr → Clean f c) : Clean f d := by
  intro op hw s hs
  cases hw with
  | self =>
    cases hs with
    | ns h hnw =>
      obtain rfl := hn s h
      exact hns.resolve_right hnw
    | o _ h hcn => exact hc s (ho _ h ▸ hcn)
    | o2 _ h hspec => exact ho2 _ s h hspec
  | nested _ hname h harr hmem hin =>
    obtain ⟨v, rest, hcons⟩ := commandName_cons hname (by decide)
    exact hnest v rest _ _ _ (ho _ hcons).symm (ho _ h ▸ harr) hmem op hin s hs

theorem clean_commandEntry (hns : Isolated f (dst ++ ".$cmd")) (hc : CommandClean f cmd)
    (hname : ∀ v rest, cmd ≠ ("applyOps", v) :: rest) : Clean f (commandEntry entry dst cmd) := by
  refine clean_of_fields (fun s h => str_of_rebuild h (by simp [strippedFields]))
    (fun o h => doc_of_rebuild h (by simp [strippedFields])) (.inl hns) hc (fun spec s h => ?_)
    fun v rest _ _ _ h => absurd h (hname v rest)
  obtain ⟨u, -, he⟩ := Doc.mem_rebuild.mp h
  simp at he

/-- A rewritten command entry is clean when its new `ns` and `o` are, and it has no `o2.ns`. -/
theorem clean_rewriteEntry
    (hns : Isolated f ns ∨ ns = "admin.$cmd" ∧ ∃ v rest, o = ("applyOps", v) :: rest)
    (hop : entry.str "op" = some "c") (hent : entry.doc "o" = some cmd) (hc : CommandClean f o)
    (ho2 : ∀ spec s, ("o2", Value.doc spec) ∈ entry → ("ns", Value.str s) ∈ spec → Isolated f s)
    (hnest : ∀ v rest arr i c, o = ("applyOps", v) :: rest → o.array "applyOps" = some arr →
      (i, Value.doc c) ∈ arr → Clean f c) : Clean f (rewriteEntry entry ns o) := by
  refine clean_of_fields (fun s h => str_of_rebuild h (by simp [strippedFields]))
    (fun o h => doc_of_rebuild h (by simp [strippedFields])) (hns.imp_right ?_) hc
    (fun spec s h => ?_) hnest
  · rintro ⟨rfl, v, rest, rfl⟩
    have hdoc : (rewriteEntry entry "admin.$cmd" (("applyOps", v) :: rest)).doc "o" =
        some (("applyOps", v) :: rest) := doc_rebuild _ hent (by simp [strippedFields])
    refine ⟨rfl, str_rebuild hop (by simp [strippedFields]), ?_⟩
    simp [commandName, hdoc, wrapperNames]
  · obtain ⟨u, hu, he⟩ := Doc.mem_rebuild.mp h
    simp [strippedFields] at he
    exact ho2 spec s (he ▸ hu)

theorem CommandClean.rebuild (h : CommandClean f o)
    (hedit : ∀ k v w, k ∈ ["renameCollection", "to", "ns", "idIndex"] → edit k v = some w → w = v) :
    CommandClean f (o.rebuild edit) := by
  intro ns hc
  cases hc with
  | field hk hm =>
    obtain ⟨u, hu, he⟩ := Doc.mem_rebuild.mp hm
    obtain rfl := hedit _ u _ (List.mem_append_left ["idIndex"] hk) he
    exact h ns (.field hk hu)
  | idIndex hm hs =>
    obtain ⟨u, hu, he⟩ := Doc.mem_rebuild.mp hm
    obtain rfl := hedit _ u _ (by simp) he
    exact h ns (.idIndex hu hs)

/-- A command whose keys are none of those that hold namespaces is clean. -/
theorem commandClean_of_keys (h : ∀ e ∈ cmd, e.1 ∉ ["renameCollection", "to", "ns", "idIndex"]) :
    CommandClean f cmd := by
  intro ns hc
  cases hc with
  | field hk hm => exact absurd (List.mem_append_left ["idIndex"] hk) (h _ hm)
  | idIndex hm _ => exact absurd (by simp) (h _ hm)

/-! ## The remembered indexes -/

/-- Every index specification the filter remembers is clean, and so is all it has written. -/
structure StateClean (f : Filter) (s : State) : Prop where
  indexes : ∀ k, ∀ x ∈ s.indexes k, CommandClean f x.spec
  emitted : ∀ d ∈ s.emitted, Clean f d

/-- The program keeps the state clean however it ends, and `Q` holds where it returns. -/
abbrev KeepsClean {α : Type} (f : Filter) (x : M α) (Q : α → State → Prop) : Prop :=
  Triple (StateClean f) x Q (StateClean f)

theorem setIndexes_clean {specs : List IndexSpec} (h : StateClean f s)
    (hs : ∀ x ∈ specs, CommandClean f x.spec) : StateClean f (s.setIndexes k specs) := by
  refine ⟨fun j x hx => ?_, h.emitted⟩
  by_cases hj : j = k
  · subst hj
    simp only [State.setIndexes, Function.update_self] at hx
    exact hs x hx
  · simp only [State.setIndexes, Function.update_of_ne hj] at hx
    exact h.indexes j x hx

theorem addIndex_clean (h : CommandClean f spec) :
    KeepsClean f (addIndex db coll spec) fun _ => StateClean f := by
  refine Triple.modify fun s hs => setIndexes_clean hs fun x hx => ?_
  rcases List.mem_append.mp hx with hx | hx
  · exact hs.indexes _ x hx
  · rw [List.mem_singleton] at hx
    subst hx
    exact h

/-- Tracking a command keeps the remembered specifications clean; a createIndexes must be clean
without being rewritten. -/
theorem trackIndexes_clean {name : String} (h : name = "createIndexes" → CommandClean f o) :
    KeepsClean f (trackIndexes name o db) fun _ => StateClean f := by
  unfold trackIndexes
  refine Triple.ite (fun hn => addIndex_clean ((h hn).rebuild fun k v w _ he => ?_)) fun _ =>
    Triple.ite (fun _ => ?_) fun _ => Triple.ite (fun _ => ?_) fun _ => Triple.ite (fun _ => ?_)
    fun _ => ?_
  · exact (Option.some.inj (Option.ite_none_left_eq_some.mp he).2).symm
  · exact Triple.modify fun s hs => setIndexes_clean hs (by simp)
  · refine Triple.modify fun s hs => ⟨fun k x hx => ?_, hs.emitted⟩
    dsimp only at hx
    split at hx
    · simp at hx
    · exact hs.indexes k x hx
  · refine Triple.modify fun s hs => ?_
    dsimp only
    split
    · exact setIndexes_clean hs (by simp)
    · exact setIndexes_clean hs fun x hx => hs.indexes _ x (List.mem_filter.mp hx).1
  · exact Triple.pure fun s hs => hs

theorem dropAll_clean (coll : String) : CommandClean f (dropAll coll) :=
  commandClean_of_keys (by simp [dropAll])

theorem createIndexes_clean (h : CommandClean f spec) :
    CommandClean f (("createIndexes", .str coll) :: spec) := by
  intro ns hc
  cases hc with
  | field hk hm =>
    rcases List.mem_cons.mp hm with he | hm
    · cases he
      simp at hk
    · exact h ns (.field hk hm)
  | idIndex hm hs =>
    rcases List.mem_cons.mp hm with he | hm
    · simp at he
    · exact h ns (.idIndex hm hs)

theorem moveIndexes_clean {fromDB fromColl toDB toColl : String}
    (hfrom : Isolated f (fromDB ++ ".$cmd")) (hto : Isolated f (toDB ++ ".$cmd")) :
    KeepsClean f (moveIndexes entry fromDB fromColl toDB toColl)
      fun out s => StateClean f s ∧ ∀ d ∈ out, Clean f d := by
  intro s hs
  have hdrop : ∀ d ∈ (if (s.indexes (indexKey toDB toColl)).isEmpty then []
      else [commandEntry entry toDB (dropAll toColl)]), Clean f d := by
    intro d hd
    split at hd
    · simp at hd
    · rw [List.mem_singleton] at hd
      subst hd
      exact clean_commandEntry hto (dropAll_clean _) (by simp [dropAll])
  simp only [moveIndexes, Prog.bind_run, Prog.get, Prog.modify]
  by_cases he : (s.indexes (indexKey fromDB fromColl)).isEmpty
  · simp only [he, if_true, Prog.pure_run]
    exact ⟨setIndexes_clean hs (by simp), hdrop⟩
  · simp only [he]
    refine ⟨setIndexes_clean (setIndexes_clean (setIndexes_clean hs (by simp)) (hs.indexes _))
      (by simp), fun d hd => ?_⟩
    simp only [List.mem_append, List.mem_map, List.mem_singleton] at hd
    rcases hd with (hd | ⟨x, hx, rfl⟩) | rfl
    · exact hdrop d hd
    · exact clean_commandEntry hto (createIndexes_clean (hs.indexes _ x hx)) (by simp)
    · exact clean_commandEntry hfrom (dropAll_clean _) (by simp [dropAll])

/-- What filtering an operation is to keep: the remembered indexes, and a clean replacement. -/
def OutClean (f : Filter) (out : Replaced) (s : State) : Prop :=
  StateClean f s ∧ ∀ d ∈ out.1, Clean f d

theorem none_clean : KeepsClean f (pure ([], 0)) (OutClean f) := Triple.pure fun _ h => ⟨h, by simp⟩

theorem one_clean {n : Int} (hd : Clean f d) : KeepsClean f (pure ([d], n)) (OutClean f) :=
  Triple.pure fun _ h => ⟨h, by simpa using hd⟩

theorem one_of {x : M Doc} (hx : KeepsClean f x fun d s => StateClean f s ∧ Clean f d) :
    KeepsClean f (do let d ← x; return ([d], 1)) (OutClean f) :=
  Triple.bind hx fun _ => Triple.assume one_clean

/-! ## Commands as they come -/

theorem mem_renameSpecNS (h : ("ns", Value.str ns) ∈ renameSpecNS spec src dst) :
    ∃ s, ("ns", Value.str s) ∈ spec ∧ ns = renameNS s src dst := by
  obtain ⟨u, hu, he⟩ := Doc.mem_rebuild.mp h
  cases u <;> simp only [Value.str?, decide_true, Option.some.injEq, reduceCtorEq] at he
  exact ⟨_, hu, (Value.str.inj he).symm⟩

theorem mem_renameSpecNS_of_ne (h : (k, v) ∈ renameSpecNS spec src dst) (hk : k ≠ "ns") :
    (k, v) ∈ spec := by
  obtain ⟨u, hu, he⟩ := Doc.mem_rebuild.mp h
  have : some u = some v := by
    cases u <;> simpa [hk, Value.str?] using he
  exact Option.some.inj this ▸ hu

theorem mem_ddlCommand (h : (k, v) ∈ Filter.ddlCommand o db dst) :
    ∃ u, (k, u) ∈ o ∧ ((∃ s, k = "ns" ∧ u = .str s ∧ v = .str (renameNS s db dst)) ∨
      (∃ spec, k = "idIndex" ∧ u = .doc spec ∧ v = .doc (renameSpecNS spec db dst)) ∨
      (v = u ∧ (k = "ns" → ∀ s, u ≠ .str s) ∧ (k = "idIndex" → ∀ spec, u ≠ .doc spec))) := by
  obtain ⟨u, hu, he⟩ := Doc.mem_rebuild.mp h
  refine ⟨u, hu, ?_⟩
  split at he
  · exact .inl ⟨_, rfl, rfl, (Option.some.inj he).symm⟩
  · exact .inr (.inl ⟨_, rfl, rfl, (Option.some.inj he).symm⟩)
  · rename_i h1 h2
    exact .inr (.inr ⟨(Option.some.inj he).symm, fun hk s hs => h1 s hk hs,
      fun hk spec hs => h2 spec hk hs⟩)

/-- A command that is neither a rename nor a DDL command whose namespaces are rewritten has none. -/
theorem Placed.clean (hp : Placed doc) (ho : doc.doc "o" = some o)
    (hr : commandName doc ≠ "renameCollection")
    (hd : commandName doc ∈ Filter.ddlNames → commandName doc = "createIndexes") :
    CommandClean f o := by
  intro ns hc
  cases hc with
  | @field k _ hk hm =>
    by_cases hns : k = "ns"
    · subst hns
      have h := hp.ns o ns ho hm
      exact absurd (hd h.1) h.2
    · exact absurd (hp.rename o k ns ho (by simpa [hns] using hk) hm) hr
  | idIndex hm hs =>
    have h := hp.idIndex o _ ns ho hm hs
    exact absurd (hd h.1) h.2

theorem wrapper_not_ddl (h : k ∈ wrapperNames) : k ∉ Filter.ddlNames := by
  simp only [wrapperNames, List.mem_cons, List.not_mem_nil, or_false] at h
  rcases h with rfl | rfl | rfl <;> decide

theorem wrapper_clean (hp : Placed doc) (ho : doc.doc "o" = some o)
    (hname : commandName doc ∈ wrapperNames) : CommandClean f o := by
  refine hp.clean ho (fun h => ?_) fun h => absurd h (wrapper_not_ddl hname)
  simp [h, wrapperNames] at hname

/-- A rename entry is clean when its two new namespaces are isolated. -/
theorem renameEntry_clean (hop : doc.str "op" = some "c") (ho : doc.doc "o" = some o)
    (hname : commandName doc = "renameCollection") (hp : Placed doc) (hns : Isolated f ns)
    (hsrc : Isolated f src) (hdst : Isolated f dst) :
    Clean f (rewriteEntry doc ns (Filter.renameCommand o src dst)) := by
  have hddl : commandName doc ∉ Filter.ddlNames := by simp [hname, Filter.ddlNames]
  refine clean_rewriteEntry (.inl hns) hop ho (fun s hc => ?_)
    (fun spec s hm hs => absurd (hp.o2 spec s hm hs) hddl) fun v rest arr i c hcons => ?_
  · cases hc with
    | field hk hmem =>
      obtain ⟨u, hu, he⟩ := Doc.mem_rebuild.mp hmem
      simp only [List.mem_cons, List.not_mem_nil, or_false] at hk
      rcases hk with rfl | rfl | rfl <;> simp at he
      · exact he ▸ hsrc
      · exact he ▸ hdst
      · exact absurd (hp.ns o s ho (he ▸ hu)).1 hddl
    | idIndex hmem hspec =>
      obtain ⟨u, hu, he⟩ := Doc.mem_rebuild.mp hmem
      simp at he
      exact absurd (hp.idIndex o _ s ho (he ▸ hu) hspec).1 hddl
  · have hhead := rebuild_head (fun k v => by
      split
      · rfl
      · split
        · rfl
        · split <;> rfl) hcons
    rw [commandName_head ho hhead] at hname
    simp at hname

theorem dropTarget_clean (hd : Isolated f (dst ++ ".$cmd")) :
    KeepsClean f (Filter.dropTarget doc o dst coll)
      fun out s => StateClean f s ∧ ∀ d ∈ out, Clean f d := by
  unfold Filter.dropTarget
  refine Triple.ite (fun _ => ?_) fun _ => Triple.pure fun s h => ⟨h, by simp⟩
  refine Triple.bind (trackIndexes_clean (by simp)) fun _ => Triple.pure fun s h => ⟨h, ?_⟩
  intro d hmem
  rw [List.mem_singleton] at hmem
  subst hmem
  exact clean_commandEntry hd (commandClean_of_keys (by simp)) (by simp)

theorem good_nested {arr : Doc} (h : Good f d) (hop : d.str "op" = some "c")
    (hname : commandName d = "applyOps") (ho : d.doc "o" = some o)
    (harr : o.array "applyOps" = some arr) {i : String} {c : Doc} (hc : (i, Value.doc c) ∈ arr) :
    Good f c :=
  ⟨fun op hw => h.1 op (.nested hop hname ho harr hc hw),
    fun op hw => h.2 op (.nested hop hname ho harr hc hw)⟩

/-- What the filtering of the operations of an applyOps is to keep. -/
def NestedClean (f : Filter) (nested : Doc → M Replaced) : Prop :=
  ∀ o, (∀ arr i c, o.array "applyOps" = some arr → (i, Value.doc c) ∈ arr → Good f c) →
    KeepsClean f (nested o) (OutClean f)

/-- Each index specification of the command names a namespace of `db`. -/
def SpecsIn (doc : Doc) (db : String) : Prop :=
  ∀ ns, SpecNames doc ns → ∃ coll, ns = db ++ "." ++ coll

/-! ## Transaction entries -/

/-- A transaction entry stays on `admin.$cmd`; it is clean when its command and the operations
nested in it are. -/
theorem txnEntry_clean {edit : String → Value → Value} (hp : Placed entry)
    (hop : entry.str "op" = some "c") (hns : entry.str "ns" = some "admin.$cmd")
    (hname : commandName entry ∈ wrapperNames) (hv : entry.lookup "o" = some v)
    (he : edit "o" v = .doc o) (hhead : o.head?.map (·.1) = some (commandName entry))
    (hc : CommandClean f o)
    (hnest : ∀ v rest arr i c, o = ("applyOps", v) :: rest → o.array "applyOps" = some arr →
      (i, Value.doc c) ∈ arr → Clean f c) : Clean f (txnEntry entry edit) := by
  have hdoc : (txnEntry entry edit).doc "o" = some o := txnEntry_doc hv he
  have hns' : (txnEntry entry edit).str "ns" = some "admin.$cmd" :=
    str_rebuild hns (by simp [strippedFields])
  refine clean_of_fields (fun s h => (Option.some.inj (hns'.symm.trans h)).symm)
    (fun o' h => (Option.some.inj (hdoc.symm.trans h)).symm) (.inr ⟨rfl, ?_, ?_⟩) hc
    (fun spec s h hs => ?_) hnest
  · exact str_rebuild hop (by simp [strippedFields])
  · rwa [commandName_head hdoc hhead]
  · obtain ⟨u, hu, he'⟩ := Doc.mem_rebuild.mp h
    simp [strippedFields] at he'
    exact absurd (hp.o2 spec s (he' ▸ hu) hs) (wrapper_not_ddl hname)

theorem setTxn_clean (h : StateClean f s) (id : Go.Bytes) (t : Option TxnState) :
    StateClean f (s.setTxn id t) := ⟨h.indexes, h.emitted⟩

theorem txnEnd_clean (hp : Placed entry) (hop : entry.str "op" = some "c")
    (hns : entry.str "ns" = some "admin.$cmd")
    (hname : commandName entry = "commitTransaction" ∨ commandName entry = "abortTransaction") :
    KeepsClean f (Filter.txnEnd entry id) (OutClean f) := by
  have hw : commandName entry ∈ wrapperNames := by
    rcases hname with h | h <;> simp [h, wrapperNames]
  have hd : Clean f (txnEntry entry fun _ v => v) := by
    obtain ⟨v, rest, ho⟩ := commandName_cons (d := entry) rfl (by
      rcases hname with h | h <;> simp [h])
    obtain ⟨w, hl, hw'⟩ := Option.bind_eq_some_iff.mp ho
    refine txnEntry_clean hp hop hns hw hl (doc?_eq hw') rfl (wrapper_clean hp ho hw) ?_
    rintro v rest arr i c h
    rcases hname with h' | h' <;> simp [h'] at h
  unfold Filter.txnEnd
  refine Triple.bind (Triple.get (Q := fun _ => StateClean f) fun s h => h) fun s0 => ?_
  refine Triple.bind (Triple.modify (Q := fun _ => StateClean f) fun s h => setTxn_clean h id none)
    fun _ => ?_
  split
  · exact none_clean
  · exact Triple.ite (fun _ => none_clean) fun _ => Triple.ite (fun _ => one_clean hd)
      fun _ => one_clean hd

theorem emitAll_clean {out : List Doc} {fails : Option Nat} (h : ∀ d ∈ out, Clean f d) :
    KeepsClean f (Filter.emitAll out fails) fun _ => StateClean f := by
  unfold Filter.emitAll
  refine Triple.bind (Triple.modify (Q := fun _ => StateClean f) fun s hs =>
    ⟨hs.indexes, fun d hd => ?_⟩) fun _ => ?_
  · rcases List.mem_append.mp hd with hd | hd
    · exact hs.emitted d hd
    · cases fails with
      | none => exact h d hd
      | some n => exact h d (List.mem_of_mem_take hd)
  · split
    · exact Triple.pure fun s h => h
    · exact Triple.ite (fun _ => Triple.fail fun s h => h) fun _ => Triple.pure fun s h => h

/-! ## What a filter in rename mode writes -/

section
variable (hm : CloneMode f r)
include hm

theorem isolated_append (hs : f.selected db) (hd : f.renameDB db = .ok dst) (coll : String) :
    Isolated f (dst ++ "." ++ coll) := by
  unfold Filter.renameDB at hd
  simp only [hm.inPlace, hm.rename, Bool.false_eq_true, if_false] at hd
  split at hd
  · rename_i hv
    cases hd
    exact ⟨r, db, coll, hm.rename, hs, cut_append coll (validTarget_no_dot hv), hm.fresh db hs⟩
  · cases hd

theorem isolated_cmd (hs : f.selected db) (hd : f.renameDB db = .ok dst) :
    Isolated f (dst ++ ".$cmd") := by
  have h := isolated_append hm hs hd "$cmd"
  rwa [String.append_assoc] at h

theorem isolated_renameNS (hs : f.selected db) (hd : f.renameDB db = .ok dst)
    (hown : ∃ coll, ns = db ++ "." ++ coll) : Isolated f (renameNS ns db dst) := by
  obtain ⟨coll, rfl⟩ := hown
  rw [renameNS_own]
  exact isolated_append hm hs hd coll

theorem crud_clean (hs : f.selected db) (hop : doc.str "op" = some k) (hk : k ≠ "c") :
    KeepsClean f (f.crud doc db coll) fun d s => StateClean f s ∧ Clean f d := by
  unfold Filter.crud
  refine Triple.lift_bind fun dst hdst => Triple.pure fun s h => ⟨h, ?_⟩
  generalize hd' : doc.rebuild _ = d'
  -- the entry stays an insert, update or delete, so only its `ns` is a namespace
  have hop' : d'.str "op" ≠ some "c" := by
    rw [← hd', str_rebuild hop (by simp [strippedFields])]
    exact fun h => hk (Option.some.inj h)
  intro op hw ns h
  cases hw with
  | self =>
    cases h with
    | ns hmem _ =>
      rw [← hd'] at hmem
      obtain rfl : ns = dst ++ "." ++ coll := str_of_rebuild hmem (by simp [strippedFields])
      exact isolated_append hm hs hdst coll
    | o h _ _ => exact absurd h hop'
    | o2 h _ _ => exact absurd h hop'
  | nested h => exact absurd h hop'

theorem asCommand_clean (hs : f.selected db) (hc : CommandClean f cmd)
    (hname : ∀ v rest, cmd ≠ ("applyOps", v) :: rest) :
    KeepsClean f (asCommand f doc db cmd) fun d s => StateClean f s ∧ Clean f d :=
  Triple.lift_bind fun _ hd => Triple.pure fun _ h =>
    ⟨h, clean_commandEntry (isolated_cmd hm hs hd) hc hname⟩

theorem viewOp_clean {opType : String} (hs : f.selected db) :
    KeepsClean f (viewOp f doc opType db) (OutClean f) := by
  unfold viewOp
  refine Triple.orFail_bind fun o _ => Triple.orFail_bind fun name _ => ?_
  refine Triple.ite (fun _ => one_of (asCommand_clean hm hs (commandClean_of_keys (by simp))
    (by simp))) fun _ => ?_
  split
  · refine Triple.ite (fun _ => none_clean) fun _ =>
      one_of (asCommand_clean hm hs (commandClean_of_keys fun e he => ?_) fun v rest h => ?_)
    · rcases List.mem_append.mp he with he | he
      · simp only [List.mem_cons, List.not_mem_nil, or_false] at he
        rcases he with rfl | rfl | rfl
        · dsimp only
          split <;> simp
        · simp
        · simp
      · split at he
        · split at he <;> simp at he
          subst he
          simp
        · simp at he
    · simp only [List.cons_append, List.cons.injEq, Prod.mk.injEq] at h
      split at h <;> simp at h
  · exact Triple.fail fun s h => h

/-- The namespaces of a DDL command are renamed with the database of its entry. -/
theorem ddlCommand_clean (hs : f.selected db) (hd : f.renameDB db = .ok dst)
    (ho : doc.doc "o" = some o) (hname : commandName doc ∈ Filter.ddlNames) (hp : Placed doc)
    (hown : SpecsIn doc db) : CommandClean f (Filter.ddlCommand o db dst) := by
  intro ns hc
  cases hc with
  | @field k _ hk hmem =>
    obtain ⟨u, hu, ⟨s, rfl, rfl, hv⟩ | ⟨spec, rfl, -, -⟩ | ⟨rfl, hns, -⟩⟩ := mem_ddlCommand hmem
    · cases hv
      exact isolated_renameNS hm hs hd (hown s (.o ho hu))
    · simp at hk
    · by_cases hkn : k = "ns"
      · exact absurd rfl (hns hkn ns)
      · have hr := hp.rename o _ ns ho (by simpa [hkn] using hk) hu
        simp [hr, Filter.ddlNames] at hname
  | idIndex hmem hspec =>
    obtain ⟨u, hu, ⟨s, hk, -, -⟩ | ⟨spec, -, rfl, hv⟩ | ⟨rfl, -, hid⟩⟩ := mem_ddlCommand hmem
    · simp at hk
    · cases hv
      obtain ⟨s, hs', rfl⟩ := mem_renameSpecNS hspec
      exact isolated_renameNS hm hs hd (hown s (.idIndex ho hu hs'))
    · exact absurd rfl (hid rfl _)

theorem ddl_clean (hs : f.selected db) (ho : doc.doc "o" = some o)
    (hname : commandName doc ∈ Filter.ddlNames) (hp : Placed doc) (hown : SpecsIn doc db) :
    KeepsClean f (f.ddl doc o db) fun d s => StateClean f s ∧ Clean f d := by
  unfold Filter.ddl
  refine Triple.lift_bind fun dst hd => Triple.pure fun s h => ⟨h, ?_⟩
  refine clean_of_fields (fun s h => str_of_rebuild h (by simp [strippedFields]))
    (fun o' h => doc_of_rebuild h (by simp [strippedFields])) (.inl (isolated_cmd hm hs hd))
    (ddlCommand_clean hm hs hd ho hname hp hown) (fun spec s h hspec => ?_)
    fun v rest arr i c hcons => ?_
  · obtain ⟨u, hu, he⟩ := Doc.mem_rebuild.mp h
    cases u <;> simp [strippedFields] at he
    subst he
    obtain ⟨s, hs', rfl⟩ := mem_renameSpecNS hspec
    exact isolated_renameNS hm hs hd (hown s (.o2 hu hs'))
  · -- a DDL command does not become an applyOps
    have hhead := rebuild_head (fun k v => by split <;> rfl) hcons
    rw [commandName_head ho hhead] at hname
    simp [Filter.ddlNames] at hname

theorem ddlOp_clean (hs : f.selected db) (ho : doc.doc "o" = some o)
    (hname : commandName doc ∈ Filter.ddlNames) (hp : Placed doc) (hown : SpecsIn doc db) :
    KeepsClean f (f.ddlOp doc o db (commandName doc)) (OutClean f) := by
  unfold Filter.ddlOp
  refine Triple.ite (fun _ => none_clean) fun _ => ?_
  split
  · rename_i cmd _ hts
    have hkeys : ∀ e ∈ cmd, e.1 ∈ ["create", "timeseries", "expireAfterSeconds"] := by
      simp only [timeseriesCreate, Option.bind_eq_bind, Option.bind_eq_some_iff] at hts
      obtain ⟨name, -, ts, -, hts⟩ := hts
      split at hts
      · simp at hts
      cases hts
      intro e he
      simp only [List.mem_append, List.mem_cons, List.not_mem_nil, or_false] at he
      rcases he with (rfl | rfl) | he
      · simp
      · simp
      · split at he <;> simp at he
        simp [he]
    refine one_of (asCommand_clean hm hs (commandClean_of_keys fun e he => ?_) ?_)
    · have := hkeys e he
      simp only [List.mem_cons, List.not_mem_nil, or_false] at this
      rcases this with h | h | h <;> simp [h]
    · rintro v rest rfl
      have := hkeys _ List.mem_cons_self
      simp at this
  · refine Triple.bind (ddl_clean hm hs ho hname hp hown) fun d => Triple.assume fun hd =>
      Triple.lift_bind fun dst _ => Triple.bind (trackIndexes_clean fun hn => ?_) fun _ =>
      one_clean hd
    exact hp.clean ho (by simp [hn]) fun _ => hn

theorem renameCollection_clean (hop : doc.str "op" = some "c") (ho : doc.doc "o" = some o)
    (hname : commandName doc = "renameCollection") (hp : Placed doc) :
    KeepsClean f (f.renameCollection doc o) (OutClean f) := by
  unfold Filter.renameCollection
  refine Triple.orFail_bind fun src _ => Triple.orFail_bind fun dst _ => ?_
  refine Triple.orFail_bind fun p hcs => ?_
  obtain ⟨srcDB, srcColl⟩ := p
  refine Triple.orFail_bind fun p hcd => ?_
  obtain ⟨dstDB, dstColl⟩ := p
  refine Triple.ite (fun _ => Triple.fail fun s h => h) fun hsel => ?_
  refine Triple.ite (fun _ => none_clean) fun hsrc => ?_
  have hsrc : f.selected srcDB := by simpa using hsrc
  have hdst : f.selected dstDB := not_not.mp hsel ▸ hsrc
  refine Triple.lift_bind fun newSrc hrs => Triple.lift_bind fun newDst hrd => ?_
  obtain ⟨rfl, -⟩ := cut_spec hcs
  obtain ⟨rfl, -⟩ := cut_spec hcd
  have hS := isolated_cmd hm hsrc hrs
  have hD := isolated_cmd hm hdst hrd
  refine Triple.bind (dropTarget_clean hD) fun dropped => Triple.bind (moveIndexes_clean hS hD).keep
    fun moves => Triple.pure fun s h => ⟨h.1.1, fun d hd => ?_⟩
  simp only [List.mem_append, List.mem_singleton] at hd
  rcases hd with (hd | rfl) | hd
  · exact h.2 d hd
  · rw [renameNS_own, renameNS_own]
    exact renameEntry_clean hop ho hname hp hS (isolated_append hm hsrc hrs _)
      (isolated_append hm hdst hrd _)
  · exact h.1.2 d hd

/-- A renamed index specification of an entry on `db` is clean. -/
theorem renameSpecNS_clean (hs : f.selected db) (hd : f.renameDB db = .ok dst)
    (hp : PlainSpec spec) (hown : ∀ ns, ("ns", Value.str ns) ∈ spec → ∃ coll, ns = db ++ "." ++ coll) :
    CommandClean f (renameSpecNS spec db dst) := by
  intro ns hc
  cases hc with
  | @field k _ hk hmem =>
    by_cases hkn : k = "ns"
    · subst hkn
      obtain ⟨s, hs', rfl⟩ := mem_renameSpecNS hmem
      exact isolated_renameNS hm hs hd (hown s hs')
    · exact absurd (mem_renameSpecNS_of_ne hmem hkn) (hp.rename k ns (by simpa [hkn] using hk))
  | idIndex hmem hsub =>
    exact absurd hsub (hp.idIndex _ ns (mem_renameSpecNS_of_ne hmem (by decide)))

theorem commitIndexBuild_clean (hs : f.selected db) (hop : doc.str "op" = some "c")
    (ho : doc.doc "o" = some o) (hname : commandName doc = "commitIndexBuild") (hp : Placed doc)
    (hown : SpecsIn doc db) : KeepsClean f (f.commitIndexBuild doc o db) (OutClean f) := by
  unfold Filter.commitIndexBuild
  refine Triple.orFail_bind fun coll _ => Triple.orFail_bind fun specs harr =>
    Triple.lift_bind fun dst hd => ?_
  have hddl : commandName doc ∉ Filter.ddlNames := by simp [hname, Filter.ddlNames]
  -- each specification is written and remembered with its namespace renamed
  refine Triple.bind (Triple.each (R := fun _ d => Clean f d) fun x hx =>
    Triple.orFail_bind fun spec hsp => ?_) fun out => Triple.pure fun s h => ⟨h.1, fun d hd => ?_⟩
  · have hx' : (x.1, Value.doc spec) ∈ specs := doc?_eq hsp ▸ hx
    have hclean := renameSpecNS_clean hm hs hd (hp.indexes o specs x.1 spec ho hname harr hx')
      fun ns hns => hown ns (.indexes ho hname harr hx' hns)
    refine Triple.bind (addIndex_clean hclean) fun _ => Triple.pure fun s h => ⟨h, ?_⟩
    exact clean_rewriteEntry (.inl (isolated_cmd hm hs hd)) hop ho (createIndexes_clean hclean)
      (fun spec s hm2 hs2 => absurd (hp.o2 spec s hm2 hs2) hddl) (by simp)
  · obtain ⟨_, _, hclean⟩ := Prog.exists_left_of_forall₂ h.2 hd
    exact hclean

/-- The wrapper stands on the renamed database, or on admin. -/
theorem applyOpsNS_clean : KeepsClean f (f.applyOpsNS db)
    fun ns s => StateClean f s ∧ (Isolated f ns ∨ ns = "admin.$cmd") :=
  Triple.ite (fun hs => Triple.lift_bind fun _ hd => Triple.pure fun _ h =>
    ⟨h, .inl (isolated_cmd hm hs hd)⟩) fun _ => Triple.pure fun _ h => ⟨h, .inr rfl⟩

theorem applyOps_clean (hn : NestedClean f nested) (hg : Good f doc) (hop : doc.str "op" = some "c")
    (ho : doc.doc "o" = some o) (hname : commandName doc = "applyOps") :
    KeepsClean f (f.applyOps nested doc o db) (OutClean f) := by
  have hw : commandName doc ∈ wrapperNames := by simp [hname, wrapperNames]
  have hp : Placed doc := hg.2 doc (.self _) ⟨hop, .inl (List.mem_cons_of_mem _ hw)⟩
  unfold Filter.applyOps
  refine Triple.bind (hn o fun arr i c harr hc => good_nested hg hop hname ho harr hc) fun out => ?_
  obtain ⟨ops, n⟩ := out
  refine Triple.assume fun hclean => Triple.ite (fun _ => none_clean) fun _ => ?_
  refine Triple.bind (applyOpsNS_clean hm) fun ns => Triple.assume fun hns => one_clean ?_
  obtain ⟨v, rest, hcons⟩ := commandName_cons hname (by decide)
  rw [ho, Option.some.injEq] at hcons
  have hhead : Filter.applyOpsCommand o ops =
      ("applyOps", nestedArray ops) :: Filter.applyOpsCommand rest ops := by
    rw [hcons]
    simp [Filter.applyOpsCommand, Doc.rebuild]
  refine clean_rewriteEntry (hns.imp_right fun h => ⟨h, _, _, hhead⟩) hop ho
    ((wrapper_clean hp ho hw).rebuild fun k v w hk he => ?_)
    (fun spec s hm2 hs2 => absurd (hp.o2 spec s hm2 hs2) (wrapper_not_ddl hw)) ?_
  · simp only [List.mem_cons, List.not_mem_nil, or_false] at hk
    rcases hk with rfl | rfl | rfl | rfl <;> simpa [eq_comm] using he
  · intro v' rest' arr i c _ harr hc
    exact hclean c (mem_nestedArray (applyOpsCommand_array harr) hc)

theorem command_clean (hn : NestedClean f nested) (hg : Good f doc) (hop : doc.str "op" = some "c")
    (hdb : database doc = some db) : KeepsClean f (f.command nested doc db) (OutClean f) := by
  have hown : SpecsIn doc db := fun ns => hg.1 doc (.self _) hop db ns hdb
  unfold Filter.command
  refine Triple.orFail_bind fun o ho => Triple.orFail_bind fun e he => ?_
  obtain ⟨name, v⟩ := e
  have hname : commandName doc = name := commandName_head ho (by simp [he])
  dsimp only
  refine Triple.ite (fun h => ?_) fun _ => Triple.ite (fun _ => none_clean) fun _ =>
    Triple.ite (fun h => ?_) fun _ =>
    Triple.ite (fun h => Triple.ite (fun _ => none_clean) fun hs => ?_) fun _ =>
    Triple.ite (fun h => Triple.ite (fun _ => none_clean) fun hs => ?_) fun _ =>
    Triple.ite (fun _ => none_clean) fun _ => Triple.fail fun s h => h
  · exact renameCollection_clean hm hop ho (hname.trans h)
      (hg.2 doc (.self _) ⟨hop, .inl (by simp [hname.trans h])⟩)
  · exact applyOps_clean hm hn hg hop ho (hname.trans h)
  · have hs : f.selected db := by simpa using hs
    have := ddlOp_clean hm hs ho (hname ▸ h) (hg.2 doc (.self _) ⟨hop, .inr ⟨db, hdb, hs⟩⟩) hown
    rwa [hname] at this
  · have hs : f.selected db := by simpa using hs
    exact commitIndexBuild_clean hm hs hop ho (hname.trans h)
      (hg.2 doc (.self _) ⟨hop, .inr ⟨db, hdb, hs⟩⟩) hown

theorem opWith_clean (hn : NestedClean f nested) (hg : Good f doc) :
    KeepsClean f (f.opWith nested doc) (OutClean f) := by
  unfold Filter.opWith
  refine Triple.orFail_bind fun opType hop => Triple.ite (fun _ => none_clean) fun _ => ?_
  refine Triple.orFail_bind fun ns hns => Triple.orFail_bind fun p hp => ?_
  obtain ⟨db, coll⟩ := p
  have hdb : database doc = some db := by
    simp [database, hns, (Option.filter_eq_some_iff.mp hp).1]
  refine Triple.ite (fun hcrud => ?_) fun _ => Triple.ite (fun hc => ?_) fun _ =>
    Triple.fail fun s h => h
  · refine Triple.ite (fun _ => none_clean) fun hs => Triple.ite (fun _ => ?_) fun _ => ?_
    · exact viewOp_clean hm (by simpa using hs)
    · refine one_of (crud_clean hm (by simpa using hs) hop ?_)
      rcases hcrud with rfl | rfl | rfl <;> decide
  · exact command_clean hm hn hg (hc ▸ hop) hdb

/-- The filtering of nested operations is clean at every depth, by induction on the levels left. -/
theorem nested_clean (levels : Nat) : NestedClean f (f.nested levels) := by
  induction levels with
  | zero => exact fun _ _ => Triple.fail fun _ h => h
  | succ levels ih =>
    intro o hgood
    unfold Filter.nested
    refine Triple.orFail_bind fun arr harr => ?_
    refine Triple.bind (Triple.each (R := fun _ (out : Replaced) => ∀ d ∈ out.1, Clean f d)
      fun x hx => Triple.orFail_bind fun doc hdoc => ?_) fun outs =>
      Triple.pure fun s h => ⟨h.1, fun d hd => ?_⟩
    · have hx' : (x.1, Value.doc doc) ∈ arr := doc?_eq hdoc ▸ hx
      exact opWith_clean hm ih (hgood arr x.1 doc harr hx')
    · obtain ⟨out, hout, hd⟩ := List.mem_flatMap.mp hd
      obtain ⟨_, _, hclean⟩ := Prog.exists_left_of_forall₂ h.2 hout
      exact hclean d hd

theorem txnApplyOps_clean (hg : Good f entry) (hop : entry.str "op" = some "c")
    (hns : entry.str "ns" = some "admin.$cmd") (hname : commandName entry = "applyOps") :
    KeepsClean f (f.txnApplyOps entry id) (OutClean f) := by
  have hw : commandName entry ∈ wrapperNames := by simp [hname, wrapperNames]
  have hp : Placed entry := hg.2 entry (.self _) ⟨hop, .inl (List.mem_cons_of_mem _ hw)⟩
  obtain ⟨v, rest, ho⟩ := commandName_cons hname (by decide)
  obtain ⟨w, hl, hw'⟩ := Option.bind_eq_some_iff.mp ho
  -- the entry with the operations that are left
  have hd : ∀ (ops : List Doc) (n : Int), (∀ d ∈ ops, Clean f d) →
      Clean f (txnEntry entry fun _ _ => .doc (txnCommand (("applyOps", v) :: rest) ops n)) := by
    intro ops n hops
    refine txnEntry_clean hp hop hns hw hl rfl ?_
      ((wrapper_clean hp ho hw).rebuild fun k u w hk he => ?_) ?_
    · simp [txnCommand, Doc.rebuild, hname]
    · simp only [List.mem_cons, List.not_mem_nil, or_false] at hk
      rcases hk with rfl | rfl | rfl | rfl <;> simpa [eq_comm] using he
    · intro _ _ arr i c _ harr hc
      obtain ⟨u, -, he⟩ := Doc.mem_rebuild.mp (array_mem harr)
      exact hops c (mem_nestedArray (by simpa using he) hc)
  unfold Filter.txnApplyOps
  refine Triple.bind (Triple.get (Q := fun _ => StateClean f) fun s h => h) fun s0 => ?_
  simp only [ho, Option.getD_some]
  refine Triple.bind (nested_clean hm _ _ fun arr i c harr hc =>
    good_nested hg hop hname ho harr hc) fun out => ?_
  obtain ⟨ops, n⟩ := out
  refine Triple.assume fun hops => Triple.ite (fun _ => ?_) fun _ => ?_
  · exact Triple.bind (Triple.modify (Q := fun _ => StateClean f) fun s h => setTxn_clean h id _)
      fun _ => none_clean
  · exact Triple.bind (Triple.modify (Q := fun _ => StateClean f) fun s h => setTxn_clean h id _)
      fun _ => Triple.ite (fun _ => one_clean (hd ops _ hops)) fun _ => one_clean (hd ops _ hops)

theorem transaction_clean (hg : Good f entry) (hid : txnID entry = some id) :
    KeepsClean f (f.transaction entry id) (OutClean f) := by
  obtain ⟨hop, hname⟩ := txnID_spec hid
  have hp : Placed entry := hg.2 entry (.self _) ⟨hop, .inl (List.mem_cons_of_mem _ hname)⟩
  unfold Filter.transaction
  refine Triple.ite (fun _ => Triple.fail fun s h => h) fun hns => ?_
  have hns := not_not.mp hns
  refine Triple.ite (fun h => txnEnd_clean hp hop hns h) fun h => ?_
  refine txnApplyOps_clean hm hg hop hns ?_
  simp only [wrapperNames, List.mem_cons, List.not_mem_nil, or_false] at hname
  tauto

theorem entryOp_clean (hg : Good f d) : KeepsClean f (f.entryOp d) (OutClean f) := by
  unfold Filter.entryOp
  split
  · exact transaction_clean hm hg ‹_›
  · exact opWith_clean hm (nested_clean hm _) hg

theorem apply_clean {entry : Filter.Raw} (hg : OfRaw (Good f) entry) (fails : Option Nat) :
    KeepsClean f (f.apply entry fails) fun _ => StateClean f := by
  unfold Filter.apply
  refine Triple.ite (fun _ => Triple.fail fun s h => h) fun _ => ?_
  refine Triple.bind (Triple.get (Q := fun _ => StateClean f) fun s h => h) fun s0 => ?_
  refine Triple.ite (fun _ => Triple.pure fun s h => h) fun _ => ?_
  cases entry with
  | malformed => exact Triple.fail fun s h => h
  | doc d =>
    refine Triple.orFail_bind fun ts _ => Triple.ite (fun _ => ?_) fun _ => ?_
    · exact Triple.bind (Triple.modify (Q := fun _ => StateClean f) fun s h =>
        ⟨h.indexes, h.emitted⟩) fun _ => Triple.pure fun s h => h
    · refine Triple.bind (entryOp_clean hm hg) fun out => ?_
      obtain ⟨out, ops⟩ := out
      refine Triple.assume fun hout => Triple.bind (emitAll_clean hout) fun _ => ?_
      exact Triple.bind (Triple.modify (Q := fun _ => StateClean f) fun s h =>
        ⟨h.indexes, h.emitted⟩) fun _ => Triple.pure fun s h => h

end

/-- **Clone isolation**: a filter that renames selected databases to unselected ones writes only
entries all of whose namespaces are isolated, also when they come from indexes remembered earlier. -/
theorem emitted_isolated (hm : CloneMode f r) {s : State}
    (h : (stream f).Reach (fun _ e => OfRaw (Good f) e.1) s) : ∀ d ∈ s.emitted, Clean f d := by
  have hclean : StateClean f s := by
    refine h.inv (fun s0 h0 => ?_) fun s e s' hs hg hst => ?_
    · cases h0
      exact ⟨by simp, by simp⟩
    · cases hst
      exact (apply_clean hm hg e.2).kept hs
  exact hclean.emitted

end

/-! ## Two streams -/

theorem within_self {op d : Doc} (h : Within op d) (hd : commandName d ≠ "applyOps") : op = d := by
  cases h with
  | self => rfl
  | nested _ hn => exact absurd hn hd

theorem cloneSrc_mode : CloneMode cloneSrc (· ++ "_r") := by
  refine ⟨rfl, rfl, fun db h => ?_⟩
  have hdb : db = "src" := by
    by_contra hne
    simp [Filter.selected, cloneSrc, hne] at h
  subst hdb
  decide

/-- A command entry on `src.$cmd` at the second `t`. -/
def srcCommand (t : UInt32) (o : Doc) : Doc :=
  [("ts", .timestamp t 1), ("op", .str "c"), ("ns", .str "src.$cmd"), ("o", .doc o)]

/-- An index is built on `src.a`, and the collection is renamed. -/
def renameIndexed (spec : Doc) : List (Filter.Raw × Option Nat) :=
  [(.doc (srcCommand 1 (("createIndexes", .str "a") :: spec)), none),
    (.doc (srcCommand 2 [("renameCollection", .str "src.a"), ("to", .str "src.b")]), none)]

theorem renameIndexed_own {spec : Doc} (hs : ∀ ns, ("ns", Value.str ns) ∈ spec → ns = "src.a")
    (hi : ∀ e ∈ spec, e.1 ≠ "idIndex") : ∀ e ∈ renameIndexed spec, OfRaw SpecsOwn e.1 := by
  intro e he
  simp only [renameIndexed, List.mem_cons, List.not_mem_nil, or_false] at he
  rcases he with rfl | rfl <;> intro op hw _ db ns hdb hn
  · obtain rfl := within_self hw (by simp [commandName, srcCommand, Doc.doc, Doc.lookup, Value.doc?])
    have hdb' : db = "src" := by
      have : database (srcCommand 1 (("createIndexes", .str "a") :: spec)) = some "src" := rfl
      rw [this] at hdb
      exact (Option.some.inj hdb).symm
    subst hdb'
    have ho : (srcCommand 1 (("createIndexes", .str "a") :: spec)).doc "o" =
        some (("createIndexes", .str "a") :: spec) := rfl
    cases hn with
    | o ho' hm =>
      rw [ho, Option.some.injEq] at ho'
      subst ho'
      simp only [List.mem_cons, Prod.mk.injEq] at hm
      rcases hm with ⟨h, -⟩ | hm
      · simp at h
      · exact ⟨"a", by rw [hs ns hm]; decide⟩
    | idIndex ho' hm _ =>
      rw [ho, Option.some.injEq] at ho'
      subst ho'
      simp only [List.mem_cons, Prod.mk.injEq] at hm
      rcases hm with ⟨h, -⟩ | hm
      · simp at h
      · exact absurd rfl (hi _ hm)
    | o2 hm _ => simp [srcCommand] at hm
    | indexes _ hn' _ _ _ => simp [commandName, ho] at hn'
  · obtain rfl := within_self hw (by decide)
    cases hn with
    | o ho' hm =>
      cases ho'
      simp at hm
    | idIndex ho' hm _ =>
      cases ho'
      simp at hm
    | o2 hm _ => simp [srcCommand] at hm
    | indexes _ hn' _ _ _ => exact absurd hn' (by decide)

theorem renameIndexed_good : ∀ e ∈ renameIndexed [("name", .str "x_1")],
    OfRaw (Good cloneSrc) e.1 := by
  intro e he
  have hown := renameIndexed_own (by simp) (by simp) e he
  simp only [renameIndexed, List.mem_cons, List.not_mem_nil, or_false] at he
  rcases he with rfl | rfl <;> refine ⟨hown, fun op hw _ => ?_⟩
  · obtain rfl := within_self hw (by decide)
    refine ⟨?_, ?_, ?_, ?_, ?_⟩
    · rintro o k ns ho hk hm
      cases ho
      simp only [List.mem_cons, List.not_mem_nil, or_false] at hk
      rcases hk with rfl | rfl <;> simp at hm
    · rintro o ns ho hm
      cases ho
      simp at hm
    · rintro o spec ns ho hm
      cases ho
      simp at hm
    · rintro spec ns hm
      simp [srcCommand] at hm
    · rintro o arr i spec ho hn
      exact absurd hn (by decide)
  · obtain rfl := within_self hw (by decide)
    refine ⟨fun _ _ _ _ _ _ => by decide, ?_, ?_, ?_, ?_⟩
    · rintro o ns ho hm
      cases ho
      simp at hm
    · rintro o spec ns ho hm
      cases ho
      simp at hm
    · rintro spec ns hm
      simp [srcCommand] at hm
    · rintro o arr i spec ho hn
      exact absurd hn (by decide)

theorem emitted_isolated_rename : ∃ s, (stream cloneSrc).Reach
    (fun _ e => OfRaw (Good cloneSrc) e.1) s ∧ s.emitted.length = 4 ∧
      ∀ d ∈ s.emitted, Clean cloneSrc d := by
  obtain ⟨s, hs, hl⟩ : ∃ s, (stream cloneSrc).exec {} (renameIndexed [("name", .str "x_1")]) =
      some s ∧ s.emitted.length = 4 := ⟨_, rfl, by decide⟩
  have hr := Trans.Sys.reach_of_exec (.init rfl)
    (Trans.Sys.along_of_forall renameIndexed_good _) hs
  exact ⟨s, hr, hl, emitted_isolated cloneSrc_mode hr⟩

/-- The specification of a createIndexes with `ns` is remembered as it came, so that the
createIndexes that follows a rename carries the namespace of the source. -/
theorem renamed_index_leaks : ∃ s, (stream cloneSrc).Reach (fun _ e => OfRaw SpecsOwn e.1) s ∧
    CloneMode cloneSrc (· ++ "_r") ∧ cloneSrc.selected "src" ∧
      ∃ d ∈ s.emitted, Names d "src.a" ∧ ¬ Clean cloneSrc d := by
  obtain ⟨s, hs, d, hd, hop, o, ho, hm⟩ : ∃ s, (stream cloneSrc).exec {}
      (renameIndexed [("name", .str "x_1"), ("ns", .str "src.a")]) = some s ∧
      ∃ d ∈ s.emitted, d.str "op" = some "c" ∧ ∃ o, d.doc "o" = some o ∧
        ("ns", Value.str "src.a") ∈ o :=
    ⟨_, rfl, _, .tail _ (.tail _ (.head _)), rfl, _, rfl, by simp [Doc.rebuild]⟩
  have hown : ∀ e ∈ renameIndexed [("name", .str "x_1"), ("ns", .str "src.a")],
      OfRaw SpecsOwn e.1 := renameIndexed_own (by simp) (by simp)
  have hr := Trans.Sys.reach_of_exec (.init rfl) (Trans.Sys.along_of_forall hown _) hs
  have hn : Names d "src.a" := .o hop ho (.field (by simp) hm)
  refine ⟨s, hr, cloneSrc_mode, by decide, d, hd, hn, fun hc => ?_⟩
  obtain ⟨r, db, coll, hr, -, hcut, hsel⟩ := hc d (.self d) "src.a" hn
  have : cut "src.a" = some ("src", "a") := by decide
  rw [this, Option.some.injEq, Prod.mk.injEq] at hcut
  rw [← hcut.1] at hsel
  exact hsel (by decide)

end MongoRescue.Oplog.Proof
