import MongoRescue.Oplog.Proof.Operations

/-!
# Transactions in a filtered stream

A transaction instance is the entries of one transaction identifier up to its commit or abort. What the
filter writes of one is well formed: the entries with an operation that is kept, and its end when something
of it was written, with counts of what was written (`EntryOk`).

* `opWith_counted`: an operation outside of a transaction is written as entries that belong to none, and
  returned with the number mongorestore counts for them (`opCount`).
* `transaction_ok`: the one description of what an entry of a transaction does to the state, and of what
  it is written as.
* `Tracks`: the state of a transaction that is open holds the totals of what was written of it.
* `transactions_wellFormed` puts them together over a stream.
-/

namespace MongoRescue.Oplog.Proof

open Go (Bytes)
open Prog (Returns Frames)

/-! ## Operations outside of transactions -/

/-- What mongorestore counts for an operation: itself, and the operations of an applyOps. -/
def opCount (d : Doc) : Int := 1 + ((children d).attach.map fun c => opCount c.1).sum
termination_by sizeOf d
decreasing_by exact sizeOf_children c.2

theorem opCount_eq (d : Doc) : opCount d = 1 + ((children d).map opCount).sum := by
  rw [opCount, List.attach_map_val]

theorem opCount_of_children {d : Doc} (h : children d = []) : opCount d = 1 := by
  rw [opCount_eq, h]
  rfl

theorem txnID_of_lsid {d : Doc} (h : d.lookup "lsid" = none) : txnID d = none := by
  rw [Option.eq_none_iff_forall_ne_some]
  intro id hid
  obtain ⟨-, -, -, lsid, -, hl, -⟩ := txnID_iff.mp hid
  rw [h] at hl
  cases hl

/-- What replaces an operation belongs to no transaction, and is counted as mongorestore does. -/
structure Counted (r : Replaced) : Prop where
  count : (r.1.map opCount).sum = r.2
  lsid : ∀ d ∈ r.1, d.lookup "lsid" = none

theorem Plain.children {d : Doc} (h : Plain d) : children d = [] := children_of_name h.name

theorem PlainOut.counted {r : Replaced} (h : PlainOut r) : Counted r := by
  refine ⟨?_, fun d hd => (h.plain d hd).lsid⟩
  have hone : r.1.map opCount = r.1.map fun _ => 1 :=
    List.map_congr_left fun d hd => opCount_of_children (h.plain d hd).children
  rw [hone, h.count]
  simp

section
variable {f : Filter} {nested : Doc → M Replaced} {doc : Doc}

theorem applyOps_counted (hn : ∀ o, Returns (nested o) Counted) {o rest : Doc} {v : Value}
    (hop : doc.str "op" = some "c") (ho : doc.doc "o" = some o) (hc : o = ("applyOps", v) :: rest)
    (db : String) : Returns (f.applyOps nested doc o db) Counted := by
  unfold Filter.applyOps
  refine Returns.bind (hn o) fun out hout => ?_
  obtain ⟨ops, n⟩ := out
  refine Returns.ite (fun _ => Returns.pure PlainOut.nil.counted) fun _ => ?_
  refine Returns.bind (Returns.any _) fun ns _ => Returns.pure ?_
  have hch := children_wrapper (rewriteEntry_op ns hop) (rewriteEntry_doc ho)
    (applyOpsCommand_cons ops hc)
  refine ⟨?_, fun d hd => ?_⟩
  · rw [List.map_singleton, List.sum_singleton, opCount_eq, hch, hout.count]
  · rw [List.mem_singleton.mp hd]
    exact rewriteEntry_lsid doc ns _

theorem command_counted (hn : ∀ o, Returns (nested o) Counted) (hop : doc.str "op" = some "c")
    (db : String) : Returns (f.command nested doc db) Counted := by
  unfold Filter.command
  refine Returns.bind Returns.orFail fun o ho => Returns.bind Returns.orFail fun p hh => ?_
  obtain ⟨name, v⟩ := p
  have hname : o.head?.map (·.1) = some name := by simp [hh]
  have hnil : Returns (pure ([], 0) : M Replaced) Counted := Returns.pure PlainOut.nil.counted
  refine Returns.ite (fun hr => ?_) fun _ => Returns.ite (fun _ => hnil) fun _ =>
    Returns.ite (fun ha => ?_) fun hne => ?_
  · exact (renameCollection_plain hop hname (by simp [hr])).mono fun _ h => h.counted
  · subst ha
    obtain ⟨rest, hc⟩ := List.head?_eq_some_iff.mp hh
    exact applyOps_counted hn hop ho hc db
  · refine Returns.ite (fun _ => Returns.ite (fun _ => hnil) fun _ => ?_) fun _ =>
      Returns.ite (fun _ => Returns.ite (fun _ => hnil) fun _ => ?_) fun _ =>
        Returns.ite (fun _ => hnil) fun _ => Returns.fail
    · exact (ddlOp_plain hop hname hne db).mono fun _ h => h.counted
    · exact (commitIndexBuild_plain hop db).mono fun _ h => h.counted

theorem crud_counted {t : String} (hop : doc.str "op" = some t) (ht : t ≠ "c") (db coll : String) :
    Returns (f.crud doc db coll) fun d => Counted ([d], 1) := by
  unfold Filter.crud
  refine Returns.bind Returns.lift fun dst _ => Returns.pure ?_
  have hop' : Doc.str (doc.rebuild fun k v => if k ∈ strippedFields then none
      else if k = "ns" then some (.str (dst ++ "." ++ coll)) else some v) "op" = some t :=
    str_rebuild hop fun v => by simp [strippedFields]
  refine ⟨?_, fun d hd => ?_⟩
  · rw [List.map_singleton, List.sum_singleton, opCount_of_children]
    exact children_of_op (by simpa [hop'] using ht)
  · rw [List.mem_singleton.mp hd]
    exact Doc.lookup_rebuild_dropped (by simp [strippedFields])

theorem opWith_counted (hn : ∀ o, Returns (nested o) Counted) (doc : Doc) :
    Returns (f.opWith nested doc) Counted := by
  have hnil : Returns (pure ([], 0) : M Replaced) Counted := Returns.pure PlainOut.nil.counted
  unfold Filter.opWith
  refine Returns.bind Returns.orFail fun t hop => Returns.ite (fun _ => hnil) fun _ => ?_
  refine Returns.bind Returns.orFail fun ns _ => Returns.bind Returns.orFail fun p _ => ?_
  obtain ⟨db, coll⟩ := p
  refine Returns.ite (fun ht => ?_) fun _ => Returns.ite (fun ht => ?_) fun _ => Returns.fail
  · refine Returns.ite (fun _ => hnil) fun _ => Returns.ite (fun _ => ?_) fun _ => ?_
    · exact (viewOp_plain doc t db).mono fun _ h => h.counted
    · have hc : t ≠ "c" := by
        rcases ht with rfl | rfl | rfl <;> decide
      exact Returns.bind (crud_counted hop hc db coll) fun d hd => Returns.pure hd
  · exact command_counted hn (ht ▸ hop) db

/-- By induction on the levels of nesting that are left. -/
theorem nested_counted (f : Filter) (levels : Nat) (o : Doc) :
    Returns (f.nested levels o) Counted := by
  induction levels generalizing o with
  | zero => exact Returns.fail
  | succ levels ih =>
    unfold Filter.nested
    refine Returns.bind (Returns.any _) fun arr _ => ?_
    refine Returns.bind (Returns.each (R := fun _ out => Counted out) fun x _ => ?_)
      fun outs houts => Returns.pure ?_
    · exact Returns.bind Returns.orFail fun c _ => opWith_counted ih c
    · clear ih
      induction houts with
      | nil => exact PlainOut.nil.counted
      | cons h _ ih =>
        refine ⟨?_, fun d hd => ?_⟩
        · simp only [List.flatMap_cons, List.map_append, List.sum_append, List.map_cons,
            List.sum_cons]
          rw [h.count, ih.count]
        · rw [List.flatMap_cons, List.mem_append] at hd
          exact hd.elim (h.lsid d) (ih.lsid d)

end

/-! ## The entries of a transaction -/

/-- An applyOps of a transaction commits it, unless it is a part or a prepare. -/
def commits (e : Doc) : Bool :=
  !((e.doc "o").getD []).isTrue "partialTxn" && !((e.doc "o").getD []).isTrue "prepare"

/-- An entry of a transaction ends it. -/
def endsTxn (e : Doc) : Bool := commandName e ≠ "applyOps" || commits e

/-- A written entry of a transaction belongs to it and is the same command. -/
structure SameTxn (e d : Doc) : Prop where
  id : txnID d = txnID e
  name : commandName d = commandName e
  ends : endsTxn d = endsTxn e

section
variable {e : Doc} {id : Bytes}

theorem txnEntry_id {edit : String → Value → Value} (hid : txnID e = some id)
    (hname : commandName (txnEntry e edit) = commandName e) : txnID (txnEntry e edit) = some id := by
  obtain ⟨hop, hw, -, lsid, txn, hl, ht, henc⟩ := txnID_iff.mp hid
  have hkeep : ∀ k v, k ∈ ["lsid", "txnNumber"] → e.lookup k = some v →
      (txnEntry e edit).lookup k = some v := by
    intro k v hk hv
    refine Doc.lookup_rebuild hv ?_
    simp only [List.mem_cons, List.not_mem_nil, or_false] at hk
    rcases hk with rfl | rfl <;> simp [txnFields]
  have hmulti : (txnEntry e edit).lookup "multiOpType" = none :=
    Doc.lookup_rebuild_dropped fun v => by simp [strippedFields, txnFields]
  exact txnID_iff.mpr ⟨txnEntry_op hop, hname ▸ hw, by simp [hmulti], lsid, txn,
    hkeep _ _ (by simp) hl, hkeep _ _ (by simp) ht, henc⟩

theorem txnEntry_same (hid : txnID e = some id) : SameTxn e (txnEntry e fun _ v => v) := by
  have ho : (txnEntry e fun _ v => v).doc "o" = e.doc "o" := by
    unfold Doc.doc
    rcases h : e.lookup "o" with _ | v
    · rw [txnEntry, Doc.lookup_rebuild_none h]
    · rw [txnEntry, Doc.lookup_rebuild (w := v) h (by simp)]
  have hname : commandName (txnEntry e fun _ v => v) = commandName e := by simp [commandName, ho]
  exact ⟨(txnEntry_id hid hname).trans hid.symm, hname, by simp [endsTxn, commits, hname, ho]⟩

/-- The entry an applyOps of a transaction is written as: its operations are `ops`. -/
theorem txnCommand_same (hid : txnID e = some id) (hname : commandName e = "applyOps")
    (ops : List Doc) (n : Int) :
    let d := txnEntry e fun _ _ => .doc (txnCommand ((e.doc "o").getD []) ops n)
    SameTxn e d ∧ children d = ops := by
  obtain ⟨v, rest, ho⟩ := commandName_cons hname (by decide)
  rw [ho, Option.getD_some]
  intro d
  have hcmd := txnCommand_cons v rest ops n
  have hdo : d.doc "o" = some (txnCommand (("applyOps", v) :: rest) ops n) := txnEntry_command _ ho
  have hdn : commandName d = "applyOps" := by
    unfold commandName
    rw [hdo, hcmd]
  have hop : d.str "op" = some "c" := txnEntry_op (txnID_spec hid).1
  have htrue : ∀ k, k ≠ "applyOps" → k ≠ "count" →
      (txnCommand (("applyOps", v) :: rest) ops n).isTrue k =
        Doc.isTrue (("applyOps", v) :: rest) k := by
    intro k h1 h2
    unfold Doc.isTrue
    rcases h : Doc.lookup (("applyOps", v) :: rest) k with _ | w
    · rw [txnCommand, Doc.lookup_rebuild_none h]
    · rw [txnCommand, Doc.lookup_rebuild (w := w) h (by simp [h1, h2])]
  refine ⟨⟨?_, ?_, ?_⟩, children_wrapper hop hdo hcmd⟩
  · exact (txnEntry_id hid (hdn.trans hname.symm)).trans hid.symm
  · rw [hdn, hname]
  · simp only [endsTxn, commits, hdn, hname, hdo, ho, Option.getD_some]
    rw [htrue _ (by decide) (by decide), htrue _ (by decide) (by decide)]

end

/-! ## What an entry of a transaction does -/

/-- The state of a transaction, as it is before its first entry when there is none. -/
def txnState (s : State) (id : Bytes) : TxnState := (s.txns id).getD {}

/-- The operations of an entry of a transaction that are kept: none of an entry that is no applyOps. -/
def keptOps (f : Filter) (s : State) (e : Doc) : List Doc :=
  if commandName e = "applyOps" then
    match (f.nested maxApplyOpsDepth ((e.doc "o").getD []) s).1 with
    | .ok (ops, _) => ops
    | .error _ => []
  else []

/-- The commitTransaction or abortTransaction of a transaction. -/
structure Ended (e : Doc) (id : Bytes) (s t : State) (r : Replaced) : Prop where
  name : commandName e ≠ "applyOps"
  state : t = s.setTxn id none
  out : r.1 = if (txnState s id).written = 0 then [] else [txnEntry e fun _ v => v]
  count : r.2 = if (txnState s id).written = 0 ∨ commandName e = "abortTransaction" then 0
    else (txnState s id).pending

/-- An applyOps of a transaction, with `ops` left of it, which mongorestore counts as `n`. -/
structure Applied (f : Filter) (e : Doc) (id : Bytes) (s t : State) (r : Replaced) (ops : List Doc)
    (n : Int) : Prop where
  name : commandName e = "applyOps"
  kept : keptOps f s e = ops
  counted : Counted (ops, n)
  /-- Whether the entry is written: unless nothing is left of it and it does not end what was
  written. -/
  out : ∃ st : TxnState, account t = account (s.setTxn id (if commits e then none else some st)) ∧
    st.ops = (txnState s id).ops + ops.length ∧ st.pending = (txnState s id).pending + n ∧
    ((ops = [] ∧ (commits e = false ∨ (txnState s id).written = 0) ∧
        st.written = (txnState s id).written ∧ r = ([], 0)) ∨
      (¬ (ops = [] ∧ (commits e = false ∨ (txnState s id).written = 0)) ∧
        st.written = (txnState s id).written + 1 ∧
        r = ([txnEntry e fun _ _ => .doc (txnCommand ((e.doc "o").getD []) ops st.ops)],
          if commits e then st.pending else 0)))

section
variable {f : Filter} {e : Doc} {id : Bytes} {s t : State} {r : Replaced}

theorem txnEnd_ok (hname : commandName e ≠ "applyOps") (h : Filter.txnEnd e id s = (.ok r, t)) :
    Ended e id s t r := by
  unfold Filter.txnEnd at h
  obtain ⟨s0, t0, h0, h⟩ := Prog.bind_ok h
  cases h0
  obtain ⟨u, t1, h1, h⟩ := Prog.bind_ok h
  cases h1
  rcases hst : s.txns id with _ | st
  · simp only [hst] at h
    cases h
    exact ⟨hname, rfl, by simp [txnState, hst], by simp [txnState, hst]⟩
  · simp only [hst] at h
    split at h
    · rename_i hw
      cases h
      exact ⟨hname, rfl, by simp [txnState, hst, hw], by simp [txnState, hst, hw]⟩
    · rename_i hw
      split at h <;> rename_i ha <;> cases h <;>
        exact ⟨hname, rfl, by simp [txnState, hst, hw], by simp [txnState, hst, hw, ha]⟩

theorem txnApplyOps_ok (hname : commandName e = "applyOps")
    (h : f.txnApplyOps e id s = (.ok r, t)) : ∃ ops n, Applied f e id s t r ops n := by
  unfold Filter.txnApplyOps at h
  obtain ⟨s0, t0, h0, h⟩ := Prog.bind_ok h
  cases h0
  obtain ⟨⟨ops, n⟩, u, hn, h⟩ := Prog.bind_ok h
  have hkept : keptOps f s e = ops := by simp [keptOps, hname, hn]
  have hacc : account u = account s := by
    have := (nested_frames f account maxApplyOpsDepth ((e.doc "o").getD [])).eq s
    rwa [hn] at this
  have hset : ∀ st, account (u.setTxn id st) = account (s.setTxn id st) := by
    intro st
    change (account u).setTxn id st = (account s).setTxn id st
    rw [hacc]
  refine ⟨ops, n, hname, hkept, nested_counted f _ _ _ _ _ hn, ?_⟩
  have hcommits : (!((e.doc "o").getD []).isTrue "partialTxn" &&
      !((e.doc "o").getD []).isTrue "prepare") = commits e := rfl
  have hold : (s.txns id).getD {} = txnState s id := rfl
  simp only [hcommits, hold] at h
  split at h
  · rename_i hempty
    obtain ⟨_, t1, h1, h⟩ := Prog.bind_ok h
    cases h1
    cases h
    exact ⟨_, hset _, rfl, rfl, .inl ⟨by simpa using hempty.1, by simpa using hempty.2, rfl, rfl⟩⟩
  · rename_i hempty
    obtain ⟨_, t1, h1, h⟩ := Prog.bind_ok h
    cases h1
    refine ⟨⟨(txnState s id).written + 1, _, _⟩, ?_, rfl, rfl, .inr ⟨by simpa using hempty, rfl, ?_⟩⟩
    · by_cases hc : commits e = true <;> simp only [hc] at h ⊢ <;> cases h <;> exact hset _
    · by_cases hc : commits e = true <;> simp only [hc] at h ⊢ <;> cases h <;> rfl

/-- **What an entry of a transaction does**, to the state and to what is written. -/
theorem transaction_ok (hid : txnID e = some id) (h : f.transaction e id s = (.ok r, t)) :
    Ended e id s t r ∨ ∃ ops n, Applied f e id s t r ops n := by
  unfold Filter.transaction at h
  split at h
  · cases h
  split at h
  · rename_i hend
    refine .inl (txnEnd_ok ?_ h)
    rcases hend with hend | hend <;> simp [hend]
  · rename_i hend
    refine .inr (txnApplyOps_ok ?_ h)
    have hname := (txnID_spec hid).2
    simp only [wrapperNames, List.mem_cons, List.not_mem_nil, or_false] at hname
    tauto

/-- An entry outside of transactions leaves those alone. -/
theorem op_ok (h : f.op e s = (.ok r, t)) : Counted r ∧ account t = account s := by
  refine ⟨opWith_counted (nested_counted f _) e _ _ _ h, ?_⟩
  have := (opWith_frames f account (f.nested maxApplyOpsDepth) e).eq s
  rw [Filter.op] at h
  rwa [h] at this

end

/-! ## The stream, entry by entry -/

/-- An entry of the stream before the limit, the state in which it was filtered, and what was written
for it. -/
structure Written where
  before : State
  entry : Doc
  out : List Doc

/-- What a stream writes, entry by entry. -/
def writtenBy (f : Filter) : List (Filter.Raw × Option Nat) → State → List Written
  | [], _ => []
  | (.malformed, fails) :: es, s => writtenBy f es (f.apply .malformed fails s).2
  | (.doc d, fails) :: es, s =>
    let r := f.apply (.doc d) fails s
    if r.1.toOption = some false then
      ⟨s, d, r.2.emitted.drop s.emitted.length⟩ :: writtenBy f es r.2
    else writtenBy f es r.2

/-- The instances of a transaction: its entries up to each commit or abort, and those of an unfinished
one; `cur` are those of the instance that is open. -/
def instances (id : Bytes) (cur : List Written) : List Written → List (List Written)
  | [] => [cur]
  | r :: rs =>
    if txnID r.entry ≠ some id then instances id cur rs
    else if endsTxn r.entry then (cur ++ [r]) :: instances id [] rs
    else instances id (cur ++ [r]) rs

/-- The operations of an entry that are kept. -/
def Written.kept (f : Filter) (r : Written) : List Doc := keptOps f r.before r.entry

@[simp] theorem kept_mk (f : Filter) (s : State) (e : Doc) (out : List Doc) :
    Written.kept f ⟨s, e, out⟩ = keptOps f s e := rfl

/-- The number of top-level operations in what was written. -/
def topOps (rs : List Written) : Nat :=
  ((rs.flatMap (·.out)).map fun d => (children d).length).sum

/-- The count `v` of an entry is written as `v'`: the number `n`, in the same integer type unless it does
not fit. -/
structure CountAs (n : Int) (v v' : Value) : Prop where
  value : n < 2 ^ 63 → v'.asInt64? = some n
  int32 : ∀ m, v = .int32 m → n < 2 ^ 31 → ∃ m', v' = .int32 m'
  int64 : ∀ m, v = .int64 m → ∃ m', v' = .int64 m'

/-- What is written of an entry of a transaction instance, after its entries `pre`. -/
structure EntryOk (f : Filter) (pre : List Written) (r : Written) : Prop where
  /-- An entry is written exactly when an operation of it is kept, or it ends an instance of which one
  was. -/
  iff : r.out ≠ [] ↔ r.kept f ≠ [] ∨ (endsTxn r.entry ∧ ∃ p ∈ pre, p.kept f ≠ [])
  one : r.out.length ≤ 1
  same : ∀ d ∈ r.out, SameTxn r.entry d
  ops : ∀ d ∈ r.out, children d = r.kept f
  count : ∀ d ∈ r.out, commandName d = "applyOps" → ∀ o', d.doc "o" = some o' →
    ∀ v', ("count", v') ∈ o' → ∃ v, ("count", v) ∈ (r.entry.doc "o").getD [] ∧
      CountAs (topOps (pre ++ [r])) v v'

theorem countAs_sameIntType (n : Nat) (v : Value) : CountAs n v (sameIntType v n) := by
  have h64 : (n : Int) < 2 ^ 63 → (Value.int64 (Int64.ofInt n)).asInt64? = some (n : Int) := by
    intro hn
    rw [Value.asInt64?, Int64.toInt_ofInt_of_le (by omega) (by omega)]
  cases v with
  | int32 m =>
    unfold sameIntType
    dsimp only
    split
    · rename_i hfit
      refine ⟨fun _ => ?_, fun _ _ _ => ⟨_, rfl⟩, fun _ hm => ?_⟩
      · rw [Value.asInt64?, Int32.toInt_ofInt_of_le (by omega) (by omega)]
      · cases hm
    · rename_i hfit
      refine ⟨h64, fun _ _ hn => absurd hn (by omega), fun _ _ => ⟨_, rfl⟩⟩
  | _ =>
    refine ⟨h64, fun _ hm => ?_, fun _ _ => ⟨_, rfl⟩⟩
    cases hm

theorem topOps_append (a b : List Written) : topOps (a ++ b) = topOps a + topOps b := by
  simp [topOps]

/-! ## One entry of an instance -/

/-- What the state of a transaction holds of its open instance. -/
structure Tracks (f : Filter) (id : Bytes) (cur : List Written) (s : State) : Prop where
  ops : (txnState s id).ops = topOps cur
  written : 0 ≤ (txnState s id).written
  none : (txnState s id).written = 0 ↔ ∀ p ∈ cur, p.kept f = []

section
variable {f : Filter} {e : Doc} {id : Bytes} {cur : List Written} {s t : State} {r : Replaced}

theorem tracks_nil (h : s.txns id = none) : Tracks f id [] s := by
  have hst : txnState s id = {} := by simp [txnState, h]
  refine ⟨?_, ?_, ?_⟩ <;> rw [hst] <;> simp [topOps]

theorem Tracks.congr (h : Tracks f id cur s) (ht : t.txns id = s.txns id) : Tracks f id cur t := by
  have hst : txnState t id = txnState s id := by rw [txnState, txnState, ht]
  exact ⟨hst ▸ h.ops, hst ▸ h.written, hst ▸ h.none⟩

theorem account_txns (h : account t = account s) : t.txns = s.txns :=
  congrArg (fun s => s.txns) h

/-- The end of an instance. -/
theorem Ended.step (h : Ended e id s t r) (hid : txnID e = some id) (htr : Tracks f id cur s) :
    EntryOk f cur ⟨s, e, r.1⟩ ∧ t.txns id = none := by
  have hkept : keptOps f s e = [] := by simp [keptOps, h.name]
  have hends : endsTxn e = true := by simp [endsTxn, h.name]
  refine ⟨?_, by simp [h.state, State.setTxn]⟩
  by_cases hw : (txnState s id).written = 0
  · have hout : r.1 = [] := by rw [h.out, if_pos hw]
    have hnone := htr.none.mp hw
    refine ⟨?_, ?_, ?_, ?_, ?_⟩ <;> simp [hout, hkept]
    exact fun _ => hnone
  · have hout : r.1 = [txnEntry e fun _ v => v] := by rw [h.out, if_neg hw]
    have hsome : ∃ p ∈ cur, p.kept f ≠ [] := by
      have := mt htr.none.mpr hw
      push Not at this
      exact this
    have hsame := txnEntry_same hid
    refine ⟨?_, ?_, ?_, ?_, ?_⟩
    · simp [hout, hends, hsome]
    · simp [hout]
    · simpa [hout] using hsame
    · simp only [hout, List.mem_singleton, forall_eq, kept_mk, hkept]
      exact children_of_name (hsame.name ▸ h.name)
    · simp only [hout, List.mem_singleton, forall_eq]
      intro hn
      exact absurd (hsame.name ▸ hn) h.name

theorem Applied.step {ops : List Doc} {n : Int} (h : Applied f e id s t r ops n)
    (hid : txnID e = some id) (htr : Tracks f id cur s) :
    EntryOk f cur ⟨s, e, r.1⟩ ∧ (endsTxn e = true → t.txns id = none) ∧
      (endsTxn e = false → Tracks f id (cur ++ [⟨s, e, r.1⟩]) t) := by
  have hends : endsTxn e = commits e := by simp [endsTxn, h.name]
  obtain ⟨st, hacc, hops, -, hcase⟩ := h.out
  have htx := congrFun (account_txns hacc) id
  have hnone : commits e = true → t.txns id = none := by
    intro hc
    simpa [hc, State.setTxn] using htx
  have hsome : commits e = false → txnState t id = st := by
    intro hc
    simp [txnState, htx, hc, State.setTxn]
  have hwritten : (∃ p ∈ cur, p.kept f ≠ []) ↔ (txnState s id).written ≠ 0 := by
    rw [ne_eq, htr.none]
    push Not
    rfl
  rw [hends]
  rcases hcase with ⟨hnil, hwhy, hw, hr⟩ | ⟨hwhy, hw, hr⟩
  · -- nothing is left of the entry, and it does not end what was written
    have hkept : keptOps f s e = [] := h.kept.trans hnil
    have htop : topOps (cur ++ [⟨s, e, r.1⟩]) = topOps cur := by simp [topOps, hr]
    refine ⟨⟨?_, ?_, ?_, ?_, ?_⟩, hnone, fun hc => ?_⟩
    · have hno : ¬ (commits e = true ∧ ∃ p ∈ cur, p.kept f ≠ []) := by
        rw [hwritten]
        rintro ⟨hc, hne⟩
        simp [hc, hne] at hwhy
      simpa [hr, hkept, hends] using hno
    · simp [hr]
    · simp [hr]
    · simp [hr]
    · simp [hr]
    · have hst := hsome hc
      refine ⟨?_, ?_, ?_⟩ <;> rw [hst]
      · rw [hops, htr.ops, htop, hnil]
        simp
      · rw [hw]
        exact htr.written
      · rw [hw, htr.none]
        simp [hkept, or_imp, forall_and]
  · obtain ⟨hsame, hch⟩ := txnCommand_same hid h.name ops st.ops
    have hout : r.1 = [txnEntry e fun _ _ => .doc (txnCommand ((e.doc "o").getD []) ops st.ops)] := by
      rw [hr]
    have htop : (topOps (cur ++ [⟨s, e, r.1⟩]) : Int) = st.ops := by
      rw [topOps_append, hops, htr.ops]
      simp [topOps, hout, hch]
    refine ⟨⟨?_, ?_, ?_, ?_, ?_⟩, hnone, fun hc => ?_⟩
    · have hyes : keptOps f s e ≠ [] ∨ (commits e = true ∧ ∃ p ∈ cur, p.kept f ≠ []) := by
        rw [hwritten, h.kept]
        by_contra hno
        push Not at hno
        refine hwhy ⟨hno.1, ?_⟩
        by_cases hc : commits e = true
        · exact .inr (hno.2 hc)
        · exact .inl (by simpa using hc)
      simpa [hout, hends] using hyes
    · simp [hout]
    · simpa [hout] using hsame
    · simpa [hout, h.kept] using hch
    · simp only [hout, List.mem_singleton, forall_eq]
      intro _ o' ho' v' hv'
      obtain ⟨v, rest, ho⟩ := commandName_cons h.name (by decide)
      rw [txnEntry_command _ ho, Option.some.injEq] at ho'
      subst ho'
      obtain ⟨u, hu, he⟩ := Doc.mem_rebuild.mp hv'
      have hval : v' = sameIntType u st.ops := by simpa using he.symm
      refine ⟨u, hu, ?_⟩
      rw [← hout, hval, ← htop]
      exact countAs_sameIntType _ u
    · have hst := hsome hc
      refine ⟨?_, ?_, ?_⟩ <;> rw [hst]
      · exact htop.symm
      · have := htr.written
        omega
      · have hpos : st.written ≠ 0 := by
          have := htr.written
          omega
        have hne : keptOps f s e ≠ [] := by
          intro hkept
          exact hwhy ⟨h.kept.symm.trans hkept, .inl hc⟩
        refine iff_of_false hpos fun hall => hne ?_
        exact hall ⟨s, e, r.1⟩ (by simp)

/-- **One entry of an instance**: what is written of it, and what the state then holds. -/
theorem txn_step (hid : txnID e = some id) (htr : Tracks f id cur s)
    (h : f.transaction e id s = (.ok r, t)) :
    EntryOk f cur ⟨s, e, r.1⟩ ∧ (endsTxn e = true → t.txns id = none) ∧
      (endsTxn e = false → Tracks f id (cur ++ [⟨s, e, r.1⟩]) t) := by
  obtain hend | ⟨ops, n, happ⟩ := transaction_ok hid h
  · obtain ⟨hok, hnone⟩ := hend.step hid htr
    exact ⟨hok, fun _ => hnone, fun hno => absurd hno (by simp [endsTxn, hend.name])⟩
  · exact happ.step hid htr

end

/-! ## The stream -/

section
variable {f : Filter} {s s' : State} {bs : List Bool}

/-- A call of `Apply` that filters the entry `d`, and what it writes. -/
structure Filtered (f : Filter) (d : Doc) (s s' : State) (r : Replaced) : Prop where
  txns : ∃ t, f.entryOp d s = (.ok r, t) ∧ s'.txns = t.txns
  emitted : s'.emitted = s.emitted ++ r.1

/-- A stream without errors, call by call: each filters its entry, or writes nothing. -/
theorem writtenBy_cons {e : Filter.Raw × Option Nat} (es : List (Filter.Raw × Option Nat)) {b : Bool}
    (h : f.apply e.1 e.2 s = (.ok b, s')) :
    (∃ d r, Filtered f d s s' r ∧ writtenBy f (e :: es) s = ⟨s, d, r.1⟩ :: writtenBy f es s') ∨
      (s'.txns = s.txns ∧ s'.emitted = s.emitted ∧ writtenBy f (e :: es) s = writtenBy f es s') := by
  obtain ⟨raw, fails⟩ := e
  have hstep : ∀ d, raw = .doc d → b = true →
      writtenBy f ((raw, fails) :: es) s = writtenBy f es s' := by
    rintro d rfl rfl
    simp [writtenBy, h, Except.toOption]
  rcases apply_ok h with ⟨hl, rfl, rfl⟩ | ⟨hl, d, ts, rfl, hts, hrest⟩
  · right
    refine ⟨rfl, rfl, ?_⟩
    cases raw with
    | malformed => simp [writtenBy, h]
    | doc d => exact hstep d rfl rfl
  rcases hrest with ⟨-, rfl, rfl⟩ | ⟨-, rfl, out, n, t, hop, rfl⟩
  · exact .inr ⟨rfl, rfl, hstep d rfl rfl⟩
  · left
    have hem : t.emitted = s.emitted := (entryOp_progress hop).1
    refine ⟨d, (out, n), ⟨⟨t, hop, rfl⟩, by simp [emit, hem]⟩, ?_⟩
    simp [writtenBy, h, Except.toOption, emit, hem]

/-- Every entry of an instance is written as it should be after those before it. -/
def WellFormed (f : Filter) (seg : List Written) : Prop :=
  ∀ pre r post, seg = pre ++ r :: post → EntryOk f pre r

theorem WellFormed.snoc {cur : List Written} {r : Written} (h : WellFormed f cur)
    (hr : EntryOk f cur r) : WellFormed f (cur ++ [r]) := by
  intro pre x post heq
  rcases List.eq_nil_or_concat post with rfl | ⟨post, y, rfl⟩
  · obtain ⟨rfl, hx⟩ := List.append_inj' heq rfl
    rw [List.cons.injEq] at hx
    exact hx.1 ▸ hr
  · rw [List.concat_eq_append, ← List.cons_append, ← List.append_assoc] at heq
    exact h pre x post (List.append_inj' heq rfl).1

/-- What an entry that does not belong to a transaction leaves of its state. -/
theorem other_txns {d : Doc} {id : Bytes} {r : Replaced} {t : State} (hid : txnID d ≠ some id)
    (h : f.entryOp d s = (.ok r, t)) : t.txns id = s.txns id := by
  rcases hid' : txnID d with _ | id' <;> simp only [Filter.entryOp, hid'] at h
  · rw [account_txns (op_ok h).2]
  · have hne : id ≠ id' := by
      rintro rfl
      exact hid hid'
    obtain hend | ⟨ops, n, happ⟩ := transaction_ok hid' h
    · simp [hend.state, State.setTxn, Function.update_of_ne hne]
    · obtain ⟨st, hacc, -⟩ := happ.out
      rw [account_txns hacc]
      simp [State.setTxn, Function.update_of_ne hne]

/-- By induction on the stream: the instances that end in it are well formed, given that the open one
is. -/
theorem instances_wellFormed {es : List (Filter.Raw × Option Nat)} {id : Bytes} {cur : List Written}
    (h : applyAll f es s = (.ok bs, s')) (htr : Tracks f id cur s) (hcur : WellFormed f cur) :
    ∀ seg ∈ instances id cur (writtenBy f es s), WellFormed f seg := by
  induction es generalizing s bs cur with
  | nil =>
    intro seg hseg
    rw [List.mem_singleton.mp hseg]
    exact hcur
  | cons e es ih =>
    obtain ⟨b, t, bs', hb, hbs⟩ := applyAll_cons h
    obtain ⟨d, r, hf, hw⟩ | ⟨htx, -, hw⟩ := writtenBy_cons es hb
    · rw [hw]
      obtain ⟨u, hop, htx⟩ := hf.txns
      by_cases hid : txnID d = some id
      · -- an entry of the transaction
        have hop' : f.transaction d id s = (.ok r, u) := by simpa [Filter.entryOp, hid] using hop
        obtain ⟨hok, hend, hopen⟩ := txn_step hid htr hop'
        have hsnoc := hcur.snoc hok
        by_cases he : endsTxn d = true
        · simp only [instances, hid, he, ne_eq, not_true, if_false, if_true, List.mem_cons]
          rintro seg (rfl | hseg)
          · exact hsnoc
          · refine ih hbs (tracks_nil ?_) (fun pre x post hnil => ?_) seg hseg
            · rw [htx, hend he]
            · simp at hnil
        · simp only [instances, hid, he, ne_eq, not_true, if_false]
          exact ih hbs ((hopen (by simpa using he)).congr (by rw [htx])) hsnoc
      · simp only [instances, hid, ne_eq, not_false_eq_true, if_true]
        exact ih hbs (htr.congr (by rw [htx, other_txns hid hop])) hcur
    · rw [hw]
      exact ih hbs (htr.congr (by rw [htx])) hcur

/-- What is written comes from the entries, and from an entry outside of transactions comes none of a
transaction. -/
theorem writtenBy_emitted {es : List (Filter.Raw × Option Nat)}
    (h : applyAll f es s = (.ok bs, s')) :
    s'.emitted = s.emitted ++ (writtenBy f es s).flatMap (·.out) ∧
      ∀ r ∈ writtenBy f es s, txnID r.entry = none → ∀ d ∈ r.out, txnID d = none := by
  induction es generalizing s bs with
  | nil =>
    cases h
    simp [writtenBy]
  | cons e es ih =>
    obtain ⟨b, t, bs', hb, hbs⟩ := applyAll_cons h
    obtain ⟨hem, hnone⟩ := ih hbs
    obtain ⟨d, r, hf, hw⟩ | ⟨-, hsame, hw⟩ := writtenBy_cons es hb
    · rw [hw]
      refine ⟨by rw [hem, hf.emitted]; simp, fun x hx hid d' hd' => ?_⟩
      rcases List.mem_cons.mp hx with rfl | hx
      · obtain ⟨u, hop, -⟩ := hf.txns
        simp only [Filter.entryOp, show txnID d = none from hid] at hop
        exact txnID_of_lsid ((op_ok hop).1.lsid d' hd')
      · exact hnone x hx hid d' hd'
    · rw [hw, hem, hsame]
      exact ⟨rfl, hnone⟩

/-- **The transactions that are written are well formed.** What a stream without errors wrote is what was
written entry by entry; entries outside of transactions write none of a transaction; and in every instance
of a transaction each entry is written as it should be after those before it. -/
theorem transactions_wellFormed {f : Filter} {es : List (Filter.Raw × Option Nat)} {bs : List Bool}
    {s : State} (h : applyAll f es {} = (.ok bs, s)) :
    s.emitted = (writtenBy f es {}).flatMap (·.out) ∧
      (∀ r ∈ writtenBy f es {}, txnID r.entry = none → ∀ d ∈ r.out, txnID d = none) ∧
      ∀ id, ∀ seg ∈ instances id [] (writtenBy f es {}), WellFormed f seg := by
  obtain ⟨hem, hnone⟩ := writtenBy_emitted h
  refine ⟨by simpa using hem, hnone, fun id seg hseg => ?_⟩
  exact instances_wellFormed h (tracks_nil rfl) (fun pre x post hnil => by simp at hnil) seg hseg

end

/-- The last part of the transaction of `txnPart`, which commits it; 4 operations in all. -/
def txnLast : Doc :=
  [("ts", .timestamp 2 1), ("op", .str "c"), ("ns", .str "admin.$cmd"), ("lsid", .int32 7),
    ("txnNumber", .int64 1),
    ("o", .doc [("applyOps", nestedArray [insertInto "src.c"]), ("count", .int32 4)])]

/-- Three of the four top-level operations are kept, and the count says so. -/
theorem transactions_wellFormed_counted : ∃ bs s,
    applyAll cloneSrc [(.doc txnPart, none), (.doc txnLast, none)] {} = (.ok bs, s) ∧
      ((s.emitted.getLast?.bind (Doc.doc · "o")).bind (Doc.lookup · "count")).bind Value.asInt64? =
        some 3 ∧
      (instances ((txnID txnPart).getD []) []
        (writtenBy cloneSrc [(.doc txnPart, none), (.doc txnLast, none)] {})).map List.length = [2, 0] ∧
      ∀ id, ∀ seg ∈ instances id []
        (writtenBy cloneSrc [(.doc txnPart, none), (.doc txnLast, none)] {}), WellFormed cloneSrc seg := by
  have hrun : let r := applyAll cloneSrc [(.doc txnPart, none), (.doc txnLast, none)] {}
      r.1.toOption = some [false, false] ∧
        ((r.2.emitted.getLast?.bind (Doc.doc · "o")).bind (Doc.lookup · "count")).bind
          Value.asInt64? = some 3 := by
    decide +kernel
  have hinst : (instances ((txnID txnPart).getD []) [] (writtenBy cloneSrc
      [(.doc txnPart, none), (.doc txnLast, none)] {})).map List.length = [2, 0] := by
    decide +kernel
  rcases h : applyAll cloneSrc [(.doc txnPart, none), (.doc txnLast, none)] {} with ⟨r, s⟩
  rw [h] at hrun
  obtain ⟨hr, hcount⟩ := hrun
  cases r with
  | error e => cases hr
  | ok bs => exact ⟨bs, s, rfl, hcount, hinst, (transactions_wellFormed h).2.2⟩

end MongoRescue.Oplog.Proof
