import MongoRescue.Oplog.Proof.Transactions

/-!
# The operations counted while filtering

`Ops` is summed while the entries are read. mongorestore counts what was written: `tally` reads the written
entries in order, counts an entry outside of transactions with the operations nested in it, and those of a
transaction when its commit is read. `Agrees` relates the two in every state: the sums are equal, and so
is what both hold of each open transaction.
-/

namespace MongoRescue.Oplog.Proof

open Go (Bytes)

/-- mongorestore's count of the operations applied, and what it holds of the open transactions. -/
structure Tally where
  count : Int := 0
  pending : Bytes → Int := fun _ => 0

/-- mongorestore reads an entry. -/
def Tally.read (t : Tally) (d : Doc) : Tally :=
  match txnID d with
  | none => { t with count := t.count + opCount d }
  | some id =>
    let n := t.pending id + ((children d).map opCount).sum
    if commandName d = "abortTransaction" then { t with pending := Function.update t.pending id 0 }
    else if endsTxn d then ⟨t.count + n, Function.update t.pending id 0⟩
    else { t with pending := Function.update t.pending id n }

/-- mongorestore reads a stream. -/
def tally (ds : List Doc) : Tally := ds.foldl Tally.read {}

/-- What was counted while filtering agrees with the count of what was written. -/
structure Agrees (s : State) : Prop where
  ops : s.ops = (tally s.emitted).count
  entries : s.entries = s.emitted.length
  pending : ∀ id, (txnState s id).pending = (tally s.emitted).pending id
  /-- A transaction of which nothing was written has nothing to count. -/
  unwritten : ∀ id, (txnState s id).written = 0 → (txnState s id).pending = 0
  written : ∀ id, 0 ≤ (txnState s id).written

theorem tally_append (a b : List Doc) : tally (a ++ b) = b.foldl Tally.read (tally a) :=
  List.foldl_append

theorem Tally.idle {t : Tally} {id : Bytes} {p : Int} (h : t.pending id = p) :
    t = ⟨t.count + 0, Function.update t.pending id p⟩ := by
  subst h
  rw [Function.update_eq_self, Int.add_zero]

/-- Entries outside of transactions are counted at once. -/
theorem read_counted {out : List Doc} (h : ∀ d ∈ out, d.lookup "lsid" = none) (t : Tally) :
    out.foldl Tally.read t = { t with count := t.count + (out.map opCount).sum } := by
  induction out generalizing t with
  | nil => simp
  | cons d out ih =>
    have hd : t.read d = { t with count := t.count + opCount d } := by
      simp [Tally.read, txnID_of_lsid (h d List.mem_cons_self)]
    rw [List.foldl_cons, hd, ih fun d hd => h d (List.mem_cons_of_mem _ hd)]
    simp only [List.map_cons, List.sum_cons, Tally.mk.injEq, and_true]
    omega

section
variable {f : Filter} {e : Doc} {id : Bytes} {s t : State} {r : Replaced}

/-- The state after what replaces an entry was written and counted. -/
def wrote (t : State) (r : Replaced) : State := { emit t r.1 with ops := t.ops + r.2 }

theorem account_fields (h : account t = account s) :
    t.ops = s.ops ∧ t.entries = s.entries ∧ t.emitted = s.emitted ∧ t.txns = s.txns :=
  ⟨congrArg (fun s => s.ops) h, congrArg (fun s => s.entries) h, congrArg (fun s => s.emitted) h,
    congrArg (fun s => s.txns) h⟩

/-- An entry keeps the agreement when mongorestore counts what is written of it as it was counted, and
holds of the transactions what the state does. -/
theorem agrees_wrote (hs : Agrees s) (hops : t.ops = s.ops) (hent : t.entries = s.entries)
    (hem : t.emitted = s.emitted) (hread : r.1.foldl Tally.read (tally s.emitted) =
      ⟨(tally s.emitted).count + r.2, fun id => (txnState t id).pending⟩)
    (hun : ∀ id, (txnState t id).written = 0 → (txnState t id).pending = 0)
    (hpos : ∀ id, 0 ≤ (txnState t id).written) : Agrees (wrote t r) := by
  have htally : tally (wrote t r).emitted =
      ⟨(tally s.emitted).count + r.2, fun id => (txnState t id).pending⟩ := by
    change tally (t.emitted ++ r.1) = _
    rw [hem, tally_append, hread]
  refine ⟨?_, ?_, ?_, hun, hpos⟩
  · rw [htally, ← hs.ops, ← hops]
    rfl
  · change t.entries + r.1.length = ((t.emitted ++ r.1).length : Int)
    rw [hent, hs.entries, hem]
    simp
  · intro id
    rw [htally]
    rfl

theorem op_agrees (hs : Agrees s) (h : f.op e s = (.ok r, t)) : Agrees (wrote t r) := by
  obtain ⟨hc, hacc⟩ := op_ok h
  obtain ⟨hops, hent, hem, htx⟩ := account_fields hacc
  have hst : ∀ id, txnState t id = txnState s id := fun id => by rw [txnState, txnState, htx]
  refine agrees_wrote hs hops hent hem ?_ ?_ ?_
  · rw [read_counted hc.lsid, hc.count]
    simp only [Tally.mk.injEq, true_and]
    funext id
    rw [hst, hs.pending]
  · intro id
    rw [hst]
    exact hs.unwritten id
  · intro id
    rw [hst]
    exact hs.written id

/-- An entry of a transaction keeps the agreement when it leaves it in the state `x`. -/
theorem txn_agrees {x : Option TxnState} (hs : Agrees s) (hacc : account t = account (s.setTxn id x))
    (hread : r.1.foldl Tally.read (tally s.emitted) = ⟨(tally s.emitted).count + r.2,
      Function.update (tally s.emitted).pending id (x.getD {}).pending⟩)
    (hun : (x.getD {}).written = 0 → (x.getD {}).pending = 0) (hpos : 0 ≤ (x.getD {}).written) :
    Agrees (wrote t r) := by
  obtain ⟨hops, hent, hem, htx⟩ := account_fields hacc
  have hself : txnState t id = x.getD {} := by simp [txnState, htx, State.setTxn]
  have hother : ∀ i, i ≠ id → txnState t i = txnState s i := by
    intro i hi
    simp [txnState, htx, State.setTxn, Function.update_of_ne hi]
  refine agrees_wrote hs hops hent hem ?_ ?_ ?_
  · rw [hread]
    simp only [Tally.mk.injEq, true_and]
    funext i
    by_cases hi : i = id
    · rw [hi, Function.update_self, hself]
    · rw [Function.update_of_ne hi, hother i hi, hs.pending]
  · intro i
    by_cases hi : i = id
    · rw [hi, hself]
      exact hun
    · rw [hother i hi]
      exact hs.unwritten i
  · intro i
    by_cases hi : i = id
    · rw [hi, hself]
      exact hpos
    · rw [hother i hi]
      exact hs.written i

theorem Ended.agrees (h : Ended e id s t r) (hid : txnID e = some id) (hs : Agrees s) :
    Agrees (wrote t r) := by
  refine txn_agrees (x := none) hs (by rw [h.state]) ?_ (fun _ => rfl) le_rfl
  by_cases hw : (txnState s id).written = 0
  · have hp : (tally s.emitted).pending id = 0 := by rw [← hs.pending, hs.unwritten id hw]
    rw [h.out, if_pos hw, h.count, if_pos (.inl hw)]
    exact Tally.idle hp
  · have hsame := txnEntry_same hid
    have hch : children (txnEntry e fun _ v => v) = [] :=
      children_of_name (by rw [hsame.name]; exact h.name)
    have hends : endsTxn e = true := by simp [endsTxn, h.name]
    rw [h.out, if_neg hw, h.count]
    by_cases ha : commandName e = "abortTransaction"
    · simp [Tally.read, hsame.id, hid, hsame.name, ha, hw]
    · simp [Tally.read, hsame.id, hid, hsame.name, ha, hw, hsame.ends, hends, hch, hs.pending]

theorem Applied.agrees {ops : List Doc} {n : Int} (h : Applied f e id s t r ops n)
    (hid : txnID e = some id) (hs : Agrees s) : Agrees (wrote t r) := by
  have hn : (ops.map opCount).sum = n := h.counted.count
  obtain ⟨st, hacc, hops, hpend, hcase⟩ := h.out
  have hpos := hs.written id
  rcases hcase with ⟨rfl, hwhy, hw, rfl⟩ | ⟨hwhy, hw, rfl⟩
  · -- nothing is written: what is held of the transaction stays as it is
    have hn0 : n = 0 := by simpa using hn.symm
    have hst : st.pending = (tally s.emitted).pending id := by
      rw [hpend, hn0, hs.pending, Int.add_zero]
    have hun := hs.unwritten id
    have hzero : (txnState s id).written = 0 → (tally s.emitted).pending id = 0 := by
      rw [← hs.pending]
      exact hun
    refine txn_agrees hs hacc ?_ ?_ ?_
    · by_cases hc : commits e = true
      · have hp := hzero (by simpa [hc] using hwhy)
        simpa [hc] using Tally.idle hp
      · simpa [hc] using Tally.idle hst.symm
    · by_cases hc : commits e = true
      · simp [hc]
      · simpa [hc, hw, hst] using hzero
    · by_cases hc : commits e = true <;> simp [hc, hw, hpos]
  · obtain ⟨hsame, hch⟩ := txnCommand_same hid h.name ops st.ops
    have hends : endsTxn e = commits e := by simp [endsTxn, h.name]
    have hst : st.pending = (tally s.emitted).pending id + n := by rw [hpend, hs.pending]
    refine txn_agrees hs hacc ?_ ?_ ?_
    · rw [List.foldl_cons, List.foldl_nil, Tally.read, hsame.id, hid]
      simp only [hsame.name, h.name, hsame.ends, hends, hch, hn, ← hst]
      by_cases hc : commits e = true <;> simp [hc]
    · by_cases hc : commits e = true
      · simp [hc]
      · intro hz
        simp [hc] at hz
        omega
    · by_cases hc : commits e = true
      · simp [hc]
      · simp [hc]
        omega

/-- **One entry**: the agreement is kept. -/
theorem entryOp_agrees (hs : Agrees s) (h : f.entryOp e s = (.ok r, t)) : Agrees (wrote t r) := by
  rcases hid : txnID e with _ | id <;> simp only [Filter.entryOp, hid] at h
  · exact op_agrees hs h
  · obtain hend | ⟨ops, n, happ⟩ := transaction_ok hid h
    · exact hend.agrees hid hs
    · exact happ.agrees hid hs

end

/-- By induction on the stream. -/
theorem applyAll_agrees {f : Filter} {es : List (Filter.Raw × Option Nat)} {bs : List Bool}
    {s s' : State} (hs : Agrees s) (h : applyAll f es s = (.ok bs, s')) : Agrees s' := by
  induction es generalizing s bs with
  | nil =>
    cases h
    exact hs
  | cons e es ih =>
    obtain ⟨b, t, bs', hb, hbs⟩ := applyAll_cons h
    refine ih ?_ hbs
    rcases apply_ok hb with ⟨-, -, rfl⟩ | ⟨-, d, ts, -, -, ⟨-, -, rfl⟩ | ⟨-, -, out, n, u, hop, rfl⟩⟩
    · exact hs
    · exact ⟨hs.ops, hs.entries, hs.pending, hs.unwritten, hs.written⟩
    · exact entryOp_agrees hs hop

/-- **What was counted is what mongorestore counts**: after every stream without errors `Ops` is the
count of the entries written, and `Entries` their number. -/
theorem ops_counted {f : Filter} {es : List (Filter.Raw × Option Nat)} {bs : List Bool} {s : State}
    (h : applyAll f es {} = (.ok bs, s)) :
    s.ops = (tally s.emitted).count ∧ s.entries = s.emitted.length := by
  have h0 : Agrees {} := ⟨rfl, rfl, fun _ => rfl, fun _ _ => rfl, fun _ => le_rfl⟩
  have hs := applyAll_agrees h0 h
  exact ⟨hs.ops, hs.entries⟩

/-- A transaction with a nested applyOps that commits: three of its operations are left. -/
theorem ops_counted_transaction : ∃ bs s,
    applyAll cloneSrc [(.doc txnPart, none), (.doc txnCommit, none)] {} = (.ok bs, s) ∧
      s.ops = 3 ∧ s.entries = 2 ∧
      s.ops = (tally s.emitted).count ∧ s.entries = s.emitted.length := by
  have hrun : let r := applyAll cloneSrc [(.doc txnPart, none), (.doc txnCommit, none)] {}
      r.1.toOption = some [false, false] ∧ r.2.ops = 3 ∧ r.2.entries = 2 := by
    decide +kernel
  rcases h : applyAll cloneSrc [(.doc txnPart, none), (.doc txnCommit, none)] {} with ⟨r, s⟩
  rw [h] at hrun
  obtain ⟨hr, hops, hent⟩ := hrun
  cases r with
  | error e => cases hr
  | ok bs => exact ⟨bs, s, rfl, hops, hent, ops_counted h⟩

end MongoRescue.Oplog.Proof
