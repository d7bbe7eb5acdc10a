import MongoRescue.Lib.Trans
import MongoRescue.Oplog.Filter

/-!
# Entries and streams

What the proofs about the oplog filter share: where the fields of an entry are found after it was
rewritten, the stream of the calls of `Apply`, and the frame of the rewriters: none of them touches the
entries written so far.
-/

namespace MongoRescue.Oplog.Proof

/-- The database an operation is on. -/
def database (op : Doc) : Option String := ((op.str "ns").bind cut).map (·.1)

/-- The commands whose entries may stand on `admin.$cmd`. -/
def wrapperNames : List String := ["applyOps", "commitTransaction", "abortTransaction"]

/-- The stream of calls of `Apply`, each with the entry number at which `emit` fails, if any. The
filter goes on after an error. -/
def stream (f : Filter) : Trans.Sys State (Filter.Raw × Option Nat) where
  init := fun s => s = {}
  step := fun s e => some (f.apply e.1 e.2 s).2

/-- Clones `src` to `src_r`. -/
def cloneSrc : Filter := { select := some (· = "src"), rename := some (· ++ "_r") }

/-! ## Fields -/

variable {v : Value} {d o arr : Doc} {k s name : String} {edit : String → Value → Option Value}

theorem doc?_eq (h : v.doc? = some d) : v = .doc d := by
  cases v <;> simp [Value.doc?] at h
  rw [h]

theorem doc_mem (h : d.doc k = some o) : (k, Value.doc o) ∈ d := by
  simp only [Doc.doc, Option.bind_eq_some_iff] at h
  obtain ⟨v, hv, hd⟩ := h
  cases v <;> simp [Value.doc?] at hd
  subst hd
  exact Doc.lookup_mem hv

theorem array_mem (h : d.array k = some arr) : (k, Value.array arr) ∈ d := by
  simp only [Doc.array, Option.bind_eq_some_iff] at h
  obtain ⟨v, hv, hd⟩ := h
  cases v <;> simp [Value.array?] at hd
  subst hd
  exact Doc.lookup_mem hv

theorem str_mem (h : d.str k = some s) : (k, Value.str s) ∈ d := by
  simp only [Doc.str, Option.bind_eq_some_iff] at h
  obtain ⟨v, hv, hd⟩ := h
  cases v <;> simp [Value.str?] at hd
  subst hd
  exact Doc.lookup_mem hv

theorem str_unique (h : d.str k = some s) (t : String) (ht : d.str k = some t) : t = s :=
  Option.some.inj (ht.symm.trans h)

theorem lookup_of_doc {doc : Doc} (h : doc.doc k = some o) : ∃ v, doc.lookup k = some v := by
  simp only [Doc.doc, Option.bind_eq_some_iff] at h
  obtain ⟨v, hv, -⟩ := h
  exact ⟨v, hv⟩

theorem str_rebuild (h : d.str k = some s) (he : ∀ v, edit k v = some v) :
    (d.rebuild edit).str k = some s := by
  simp only [Doc.str, Option.bind_eq_some_iff] at h ⊢
  obtain ⟨v, hv, hs⟩ := h
  exact ⟨v, Doc.lookup_rebuild hv (he v), hs⟩

theorem str_rebuild_new (s' : String) (h : d.str k = some s) (he : ∀ v, edit k v = some (.str s')) :
    (d.rebuild edit).str k = some s' := by
  simp only [Doc.str, Option.bind_eq_some_iff] at h
  obtain ⟨v, hv, -⟩ := h
  simp [Doc.str, Doc.lookup_rebuild hv (he v), Value.str?]

theorem doc_rebuild (o' : Doc) (h : d.doc k = some o) (he : ∀ v, edit k v = some (.doc o')) :
    (d.rebuild edit).doc k = some o' := by
  obtain ⟨v, hv⟩ := lookup_of_doc h
  simp [Doc.doc, Doc.lookup_rebuild hv (he v), Value.doc?]

theorem str_of_rebuild {s' : String} (h : (d.rebuild edit).str k = some s)
    (he : ∀ v, edit k v = some (.str s')) : s = s' := by
  obtain ⟨v, -, hv⟩ := Doc.mem_rebuild.mp (str_mem h)
  rw [he] at hv
  exact (Value.str.inj (Option.some.inj hv)).symm

theorem doc_of_rebuild {o' : Doc} (h : (d.rebuild edit).doc k = some o)
    (he : ∀ v, edit k v = some (.doc o')) : o = o' := by
  obtain ⟨v, -, hv⟩ := Doc.mem_rebuild.mp (doc_mem h)
  rw [he] at hv
  exact (Value.doc.inj (Option.some.inj hv)).symm

/-! ## Commands -/

theorem commandName_cons (h : commandName d = name) (hne : name ≠ "") :
    ∃ v rest, d.doc "o" = some ((name, v) :: rest) := by
  unfold commandName at h
  split at h
  · rename_i v rest ho
    subst h
    exact ⟨v, rest, ho⟩
  · exact absurd h.symm hne

theorem commandName_head {doc : Doc} (ho : doc.doc "o" = some o) (h : o.head?.map (·.1) = some name) :
    commandName doc = name := by
  cases o with
  | nil => simp at h
  | cons e o =>
    simp only [List.head?_cons, Option.map_some, Option.some.injEq] at h
    simp [commandName, ho, h]

/-- An edit that drops nothing keeps the command's name. -/
theorem head_rebuild (h : ∀ k v, (edit k v).isSome) :
    (o.rebuild edit).head?.map (·.1) = o.head?.map (·.1) := by
  have hk := Doc.rebuild_keys (d := o) h
  rw [← List.head?_map, ← List.head?_map, hk]

theorem rebuild_head {rest : Doc} (h : ∀ k v, (edit k v).isSome)
    (ho : o.rebuild edit = (name, v) :: rest) : o.head?.map (·.1) = some name := by
  rw [← head_rebuild h, ho]
  rfl

theorem mem_nestedArray {ops : List Doc} (h : nestedArray ops = .array arr) {i : String} {c : Doc}
    (hc : (i, Value.doc c) ∈ arr) : c ∈ ops := by
  simp only [nestedArray, Value.array.injEq] at h
  subst h
  simp only [List.mem_map, Prod.mk.injEq, Value.doc.injEq, Prod.exists] at hc
  obtain ⟨d, j, hd, -, rfl⟩ := hc
  exact (List.mem_zipIdx' hd).2 ▸ List.getElem_mem _

theorem applyOpsCommand_array {ops : List Doc}
    (harr : (Filter.applyOpsCommand o ops).array "applyOps" = some arr) :
    nestedArray ops = .array arr := by
  have hmem := array_mem harr
  obtain ⟨u, -, he⟩ := Doc.mem_rebuild.mp hmem
  simpa using he

/-! ## Transactions -/

theorem txnEntry_doc {entry : Doc} {edit : String → Value → Value}
    (h : entry.lookup "o" = some v) (he : edit "o" v = .doc o) :
    (txnEntry entry edit).doc "o" = some o := by
  have hl : (txnEntry entry edit).lookup "o" = some (edit "o" v) :=
    Doc.lookup_rebuild h (by simp)
  simp [Doc.doc, hl, he, Value.doc?]

theorem txnID_iff {id : Go.Bytes} : txnID d = some id ↔
    d.str "op" = some "c" ∧ commandName d ∈ wrapperNames ∧
      (d.lookup "multiOpType").bind Value.asInt64? ≠ some 1 ∧
      ∃ lsid txn, d.lookup "lsid" = some lsid ∧ d.lookup "txnNumber" = some txn ∧
        lsid.encode ++ [0] ++ txn.encode = id := by
  by_cases hop : d.str "op" = some "c"
  case neg => simp [txnID, hop]
  by_cases hm : (d.lookup "multiOpType").bind Value.asInt64? = some 1
  case pos => simp [txnID, hop, hm]
  by_cases hname : commandName d ∈ wrapperNames
  all_goals
    have hname' := hname
    unfold wrapperNames at hname'
    cases hl : d.lookup "lsid" <;> cases ht : d.lookup "txnNumber" <;>
      simp [txnID, hop, hm, hname, hname', hl, ht]

theorem txnID_spec {id : Go.Bytes} (h : txnID d = some id) :
    d.str "op" = some "c" ∧ commandName d ∈ wrapperNames :=
  have h := txnID_iff.mp h
  ⟨h.1, h.2.1⟩

/-! ## What filtering leaves alone -/

/-- A part of the state that the indexes written are not in. Filtering an operation leaves it alone. -/
class Unindexed {γ : Type} (g : State → γ) : Prop where
  eq : ∀ s m, g { s with indexes := m } = g s

/-- What only `apply` itself changes: the entries written, and whether the limit was reached. -/
def progress (s : State) : List Doc × Bool := (s.emitted, s.limitReached)

instance : Unindexed progress := ⟨fun _ _ => rfl⟩

/-- The state but for the indexes written. -/
def account (s : State) : State := { s with indexes := fun _ => [] }

instance : Unindexed account := ⟨fun _ _ => rfl⟩

section
open Prog (Frames)

variable (f : Filter)

section
variable {γ : Type} (g : State → γ) [hg : Unindexed g]

instance addIndex_frames (db coll : String) (spec : Doc) :
    Frames g (addIndex db coll spec) := Frames.modify fun _ => hg.eq _ _

instance trackIndexes_frames (name : String) (o : Doc) (db : String) :
    Frames g (trackIndexes name o db) := by
  unfold trackIndexes
  split
  · infer_instance
  split
  · exact Frames.modify fun _ => hg.eq _ _
  split
  · exact Frames.modify fun _ => hg.eq _ _
  split
  · refine Frames.modify fun s => ?_
    by_cases h : o.str "index" = some "*" <;> simp only [h, if_true, if_false]
    · exact hg.eq _ _
    · exact hg.eq _ _
  · infer_instance

instance moveIndexes_frames (entry : Doc) (fromDB fromColl toDB toColl : String) :
    Frames g (moveIndexes entry fromDB fromColl toDB toColl) := by
  have hset : ∀ h : State → State, (∀ s, ∃ m, h s = { s with indexes := m }) →
      Frames g (Prog.modify h : M Unit) := by
    intro h hh
    refine Frames.modify fun s => ?_
    obtain ⟨m, hm⟩ := hh s
    rw [hm]
    exact hg.eq s m
  unfold moveIndexes
  refine Frames.seq inferInstance fun s => ?_
  have h1 := hset (fun s => s.setIndexes (indexKey toDB toColl) []) fun _ => ⟨_, rfl⟩
  have h2 := hset (fun t => (t.setIndexes (indexKey toDB toColl)
    (s.indexes (indexKey fromDB fromColl))).setIndexes (indexKey fromDB fromColl) []) fun _ => ⟨_, rfl⟩
  infer_instance

instance asCommand_frames (entry : Doc) (db : String) (cmd : Doc) :
    Frames g (asCommand f entry db cmd) := by
  unfold asCommand
  infer_instance

instance viewOp_frames (doc : Doc) (opType db : String) :
    Frames g (viewOp f doc opType db) := by
  unfold viewOp
  refine Frames.seq inferInstance fun o => Frames.seq inferInstance fun name => ?_
  split
  · infer_instance
  · split <;> infer_instance

instance dropTarget_frames (doc o : Doc) (dst coll : String) :
    Frames g (Filter.dropTarget doc o dst coll) := by
  unfold Filter.dropTarget
  infer_instance

instance renameCollection_frames (doc o : Doc) :
    Frames g (f.renameCollection doc o) := by
  unfold Filter.renameCollection
  infer_instance

instance commitIndexBuild_frames (doc o : Doc) (db : String) :
    Frames g (f.commitIndexBuild doc o db) := by
  unfold Filter.commitIndexBuild
  infer_instance

instance ddlOp_frames (doc o : Doc) (db name : String) :
    Frames g (f.ddlOp doc o db name) := by
  unfold Filter.ddlOp Filter.ddl
  split
  · infer_instance
  · split <;> infer_instance

instance applyOps_frames (nested : Doc → M Replaced) [∀ o, Frames g (nested o)]
    (doc o : Doc) (db : String) : Frames g (f.applyOps nested doc o db) := by
  unfold Filter.applyOps Filter.applyOpsNS
  infer_instance

instance command_frames (nested : Doc → M Replaced) [∀ o, Frames g (nested o)] (doc : Doc)
    (db : String) : Frames g (f.command nested doc db) := by
  unfold Filter.command
  infer_instance

instance opWith_frames (nested : Doc → M Replaced) [∀ o, Frames g (nested o)] (doc : Doc) :
    Frames g (f.opWith nested doc) := by
  unfold Filter.opWith Filter.crud
  infer_instance

instance nested_frames (levels : Nat) (o : Doc) : Frames g (f.nested levels o) := by
  induction levels generalizing o with
  | zero => exact Frames.fail _
  | succ levels ih =>
    unfold Filter.nested
    infer_instance

end

instance setTxn_frames (id : Go.Bytes) (t : Option TxnState) :
    Frames progress (Prog.modify (·.setTxn id t) : M Unit) := Frames.modify fun _ => rfl

instance transaction_frames (entry : Doc) (id : Go.Bytes) :
    Frames progress (f.transaction entry id) := by
  have hend : Frames progress (Filter.txnEnd entry id) := by
    unfold Filter.txnEnd
    refine Frames.seq inferInstance fun s => Frames.seq inferInstance fun _ => ?_
    split <;> infer_instance
  have happly : Frames progress (f.txnApplyOps entry id) := by
    unfold Filter.txnApplyOps
    infer_instance
  unfold Filter.transaction
  infer_instance

instance entryOp_frames (d : Doc) : Frames progress (f.entryOp d) := by
  unfold Filter.entryOp Filter.op
  split <;> infer_instance

end

end MongoRescue.Oplog.Proof
