import MongoRescue.Oplog.Counts
import MongoRescue.Lib.Errors
import MongoRescue.Oplog.Proof.Operations

/-!
# The counts derived from a run are exact

`history` is what a run of oplog entries does to the numbers of documents, in the order in which it
becomes visible: the operations of an entry at the entry, those of a transaction at its commit, those of
an aborted or unfinished transaction never. `Effect` says what each change does to the counts.

* `countOps_changes`: the operations the code counts are those the entry's changes stand for.
* `Holds`: the transactions the code holds completely are those that are open, with their changes.
  `add_step` keeps it, and says that an entry either makes every count unknown or applies what becomes
  visible at it.
* `apply_known`: a namespace that stays known was changed by the inserts and deletes counted, and by no
  other change.
* `delta_exact` puts them together over a run.
-/

namespace MongoRescue.Oplog.Proof

open Go (Bytes)

/-! ## What entries do to the counts -/

/-- The number of documents of each collection, by namespace. -/
abbrev Counts := String → Nat

/-- What an operation does to the documents of collections. -/
inductive Change
  | insert (ns : String)
  | delete (ns : String)
  | create (ns : String)
  | drop (ns : String)
  | empty (ns : String)
  | toCapped (ns : String)
  | rename (src dst : String)
  | dropDatabase (db : String)
  /-- A command whose effect is not known, on a database. -/
  | unknown (db name : String)
  deriving DecidableEq

/-- What a change does: `c` before it, `c'` after it. The oplog does not hold every change of the `hidden`
collections: a capped one evicts documents when it is written. A delete removes a document that is there;
a conversion keeps some of the documents; an unknown command may do anything to its database. -/
def Change.Effect (hidden : String → Prop) (ch : Change) (c c' : Counts) : Prop :=
  match ch with
  | .insert ns => (∀ m, m ≠ ns → c' m = c m) ∧ (¬ hidden ns → c' ns = c ns + 1)
  | .delete ns => (∀ m, m ≠ ns → c' m = c m) ∧ (¬ hidden ns → c ns = c' ns + 1)
  | .create ns | .drop ns | .empty ns => c' = Function.update c ns 0
  | .toCapped ns => ∃ n ≤ c ns, c' = Function.update c ns n
  | .rename src dst => c' = Function.update (Function.update c src 0) dst (c src)
  | .dropDatabase db => ∀ ns, c' ns = if CountDelta.dbOf ns = db then 0 else c ns
  | .unknown db _ => ∀ ns, CountDelta.dbOf ns ≠ db → c' ns = c ns

/-- Changes made one after the other. -/
inductive Effects (hidden : String → Prop) : List Change → Counts → Counts → Prop
  | nil {c : Counts} : Effects hidden [] c c
  | cons {ch : Change} {chs : List Change} {a b c : Counts} :
      ch.Effect hidden a b → Effects hidden chs b c → Effects hidden (ch :: chs) a c

/-- The commands on a collection's indexes and options, which leave its documents alone. -/
def keepsDocuments : List String :=
  ["collMod", "createIndexes", "dropIndexes", "dropIndex", "deleteIndexes", "deleteIndex",
    "startIndexBuild", "commitIndexBuild", "abortIndexBuild", "dbCheck"]

/-- The change a command other than applyOps makes. -/
def commandChanges (o : Doc) (db : String) : List Change :=
  match o with
  | [] => []
  | (name, v) :: _ =>
    let ns := db ++ "." ++ (v.str?.getD "")
    if name = "create" then [.create ns]
    else if name = "drop" then [.drop ns]
    else if name = "emptycapped" then [.empty ns]
    else if name = "convertToCapped" then [.toCapped ns]
    else if name = "renameCollection" then
      [.rename ((o.str "renameCollection").getD "") ((o.str "to").getD "")]
    else if name = "dropDatabase" then [.dropDatabase db]
    else if name = "applyOps" ∨ name ∈ keepsDocuments then []
    else [.unknown db name]

/-- The changes an operation makes, those of its applyOps aside. -/
def ownChanges (d : Doc) : List Change :=
  let ns := (d.str "ns").getD ""
  if d.str "op" = some "i" then [.insert ns]
  else if d.str "op" = some "d" then [.delete ns]
  else if d.str "op" = some "c" then commandChanges ((d.doc "o").getD []) (CountDelta.dbOf ns)
  else []

/-- The changes of an operation in order, through its applyOps commands. -/
def changes (d : Doc) : List Change :=
  ownChanges d ++ (children d).attach.flatMap fun c => changes c.1
termination_by sizeOf d
decreasing_by exact sizeOf_children c.2

theorem changes_eq (d : Doc) : changes d = ownChanges d ++ (children d).flatMap changes := by
  rw [changes, List.flatMap_subtype (g := changes) (by simp), List.unattach_attach]

/-! ## Transactions -/

/-- The open transactions, with the changes they hold. -/
abbrev Open := Bytes → Option (List Change)

/-- The changes that become visible at an entry, and the transactions that are open after it. -/
def visible (txns : Open) (d : Doc) : List Change × Open :=
  match txnID d with
  | none => (changes d, txns)
  | some id =>
    if commandName d = "abortTransaction" then ([], Function.update txns id none)
    else if commandName d = "commitTransaction" then
      ((txns id).getD [], Function.update txns id none)
    else
      let held := (txns id).getD [] ++ changes d
      let o := (d.doc "o").getD []
      if o.isTrue "partialTxn" || o.isTrue "prepare" then ([], Function.update txns id (some held))
      else (held, Function.update txns id none)

/-- The position of an entry. -/
def posOf (d : Doc) : Timestamp := ((d.lookup "ts").bind Value.timestamp?).getD {}

/-- The changes of a run in the order in which they become visible, with the position from which on
they are. -/
def history (txns : Open) : List Filter.Raw → List (Timestamp × Change)
  | [] => []
  | .malformed :: es => history txns es
  | .doc d :: es => (visible txns d).1.map (posOf d, ·) ++ history (visible txns d).2 es

/-- The entry names an earlier entry of its transaction: the timestamp of its prevOpTime is not zero. -/
def NamesPrevious (d : Doc) : Prop :=
  ∃ prev t i, d.doc "prevOpTime" = some prev ∧ prev.lookup "ts" = some (.timestamp t i) ∧
    (t ≠ 0 ∨ i ≠ 0)

/-- What a server writes: an entry of a transaction that has an earlier entry, in the run or before it,
names that one. -/
def Linked (txns : Open) : List Filter.Raw → Prop
  | [] => True
  | .malformed :: es => Linked txns es
  | .doc d :: es =>
    (∀ id, txnID d = some id → commandName d = "applyOps" → (txns id).isSome → NamesPrevious d) ∧
      Linked (visible txns d).2 es

theorem NamesPrevious.hasPrevOpTime {d : Doc} (h : NamesPrevious d) : hasPrevOpTime d = true := by
  obtain ⟨prev, t, i, hprev, hts, hne⟩ := h
  simp only [Oplog.hasPrevOpTime, hprev, Option.bind_some, hts, Value.timestamp?]
  simp only [ne_eq, Timestamp.mk.injEq, decide_eq_true_eq]
  tauto

/-- The run of `Add` over entries. -/
def addAll (d : CountDelta) : List Filter.Raw → Except Err CountDelta
  | [] => .ok d
  | e :: es => (d.add e).bind fun d => addAll d es

/-! ## The operations that are counted -/

/-- The operations that stand for a change. -/
def Change.ops : Change → List CountOp
  | .insert ns => [{ ns, n := 1 }]
  | .delete ns => [{ ns, n := -1 }]
  | .create ns => [{ ns, what := "created" }]
  | .drop ns => [{ ns, what := "dropped" }]
  | .empty ns => [{ ns, what := "emptied" }]
  | .toCapped ns => [{ ns, what := "converted to capped" }]
  | .rename src dst =>
    [{ ns := src, what := "renamed to " ++ dst }, { ns := dst, what := "renamed from " ++ src }]
  | .dropDatabase db => [{ ns := db, what := "dropped", db := true }]
  | .unknown db name => [{ ns := db, what := "command " ++ name, db := true }]

def opsOf (chs : List Change) : List CountOp := chs.flatMap Change.ops

@[simp] theorem opsOf_nil : opsOf [] = [] := rfl

@[simp] theorem opsOf_append (a b : List Change) : opsOf (a ++ b) = opsOf a ++ opsOf b :=
  List.flatMap_append

/-- What counting the operations of an applyOps command gives. -/
def NestedCounts (nested : Doc → Except Err (List CountOp)) : Prop :=
  ∀ o ops, nested o = .ok ops →
    ∃ arr, o.array "applyOps" = some arr ∧ ops = opsOf ((docsOf arr).flatMap changes)

theorem mem_keepsDocuments {name : String} : name ∈ keepsDocuments ↔ name ∈ countNeutral := by
  simp only [keepsDocuments, countNeutral, List.mem_cons, List.not_mem_nil, or_false]
  tauto

theorem ddlWhat_none {name : String} (h : ddlWhat name = none) :
    name ≠ "create" ∧ name ≠ "drop" ∧ name ≠ "emptycapped" ∧ name ≠ "convertToCapped" := by
  unfold ddlWhat at h
  refine ⟨?_, ?_, ?_, ?_⟩ <;> rintro rfl <;> simp at h

theorem ddlWhat_changes {name what coll : String} {v : Value} (h : ddlWhat name = some what)
    (hv : v.str? = some coll) (rest : Doc) (db : String) :
    [{ ns := db ++ "." ++ coll, what }] = opsOf (commandChanges ((name, v) :: rest) db) := by
  revert h
  fun_cases ddlWhat name <;> intro h <;> cases h <;>
    simp_all [commandChanges, opsOf, Change.ops]

variable {ops : List CountOp}

theorem commandCountOps_changes {nested : Doc → Except Err (List CountOp)} (hn : NestedCounts nested)
    {doc : Doc} {db : String} (hop : doc.str "op" = some "c")
    (hdb : CountDelta.dbOf ((doc.str "ns").getD "") = db)
    (h : commandCountOps nested doc db = .ok ops) : ops = opsOf (changes doc) := by
  have hnot : ∀ {name v rest}, doc.doc "o" = some ((name, v) :: rest) → name ≠ "applyOps" →
      opsOf (changes doc) = opsOf (commandChanges ((name, v) :: rest) db) := by
    intro name v rest ho hne
    rw [changes_eq, children_of_name (by simpa [commandName, ho] using hne)]
    simp [ownChanges, hop, ho, hdb]
  revert h
  fun_cases commandCountOps nested doc db <;> intro h
  case case3 v rest ho _ =>
    obtain ⟨arr, harr, hops⟩ := hn _ _ h
    rw [changes_eq, children_applyOps hop (by rw [commandName, ho]) ho harr, hops]
    simp [ownChanges, hop, ho, commandChanges]
  all_goals cases h
  case case4 v rest src dst ho o hne hdst hsrc =>
    rw [hnot ho hne]
    simp [o, commandChanges, hsrc, hdst, opsOf, Change.ops]
  case case7 name v rest ho hne _ what hw coll hv =>
    rw [hnot ho hne]
    exact ddlWhat_changes hw hv rest db
  case case8 v rest ho hne _ _ =>
    rw [hnot ho hne]
    simp [commandChanges, opsOf, Change.ops]
  all_goals
    rename_i name v rest ho hne hren hw hdrop hneutral
    obtain ⟨h1, h2, h3, h4⟩ := ddlWhat_none hw
    rw [hnot ho hne]
    simp [commandChanges, h1, h2, h3, h4, hren, hne, hdrop, mem_keepsDocuments, hneutral, opsOf,
      Change.ops]

theorem eachCountOps_changes {count : Doc → Except Err (List CountOp)} {arr : Doc}
    (hc : ∀ doc ops, count doc = .ok ops → ops = opsOf (changes doc))
    (h : eachCountOps count arr = .ok ops) : ops = opsOf ((docsOf arr).flatMap changes) := by
  fun_induction eachCountOps count arr generalizing ops with
  | case1 =>
    cases h
    rfl
  | case2 => cases h
  | case3 k v rest doc hdoc ih =>
    obtain ⟨fst, hfst, h⟩ := Go.bind_ok h
    obtain ⟨snd, hsnd, h⟩ := Go.bind_ok h
    cases h
    rw [hc doc fst hfst, ih hsnd]
    simp [docsOf, hdoc]

theorem countOpsWith_changes {nested : Doc → Except Err (List CountOp)} (hn : NestedCounts nested)
    {doc : Doc} (h : countOpsWith nested doc = .ok ops) : ops = opsOf (changes doc) := by
  revert h
  fun_cases countOpsWith nested doc <;> intro h
  case case7 ns hns db _ hcut hop _ _ _ =>
    rw [Option.filter_eq_some_iff] at hcut
    exact commandCountOps_changes hn hop (by simp [hns, CountDelta.dbOf, hcut.1]) h
  all_goals cases h
  case case2 t ht hig =>
    simp only [ignoredOps, List.mem_cons, List.not_mem_nil, or_false] at hig
    rcases hig with (rfl | rfl | rfl | rfl | rfl) | rfl <;>
      rw [changes_eq, children_of_op (by simp [ht])] <;> simp [ownChanges, ht]
  all_goals
    rw [changes_eq, children_of_op (by simp_all)]
    simp_all [ownChanges, opsOf, Change.ops]

/-- By induction on the levels of nesting that are left. -/
theorem nestedCountOps_changes (levels : Nat) : NestedCounts (nestedCountOps levels) := by
  induction levels with
  | zero =>
    intro o ops h
    cases h
  | succ levels ih =>
    intro o ops h
    unfold nestedCountOps at h
    split at h
    · cases h
    · rename_i arr harr
      exact ⟨arr, harr, eachCountOps_changes (fun doc ops => countOpsWith_changes ih) h⟩

theorem countOps_changes {doc : Doc} (h : countOps doc = .ok ops) : ops = opsOf (changes doc) :=
  countOpsWith_changes (nestedCountOps_changes _) h

/-! ## Applying operations -/

/-- Every reason says something, so that a reason can be told from its absence. -/
structure Reasoned (d : CountDelta) : Prop where
  dbs : ∀ k, d.dbs k ≠ some ""
  unknown : ∀ k, d.unknown k ≠ some ""

/-- `Delta` knows how the count of the namespace changed. -/
structure Known (d : CountDelta) (ns : String) : Prop where
  all : d.all = ""
  db : (d.dbs (CountDelta.dbOf ns)).getD "" = ""
  coll : (d.unknown ns).getD "" = ""

theorem deltaOf_known {d : CountDelta} {ns : String} {n : Int} (h : d.deltaOf ns = (n, "")) :
    Known d ns ∧ d.delta ns = n := by
  revert h
  fun_cases d.deltaOf ns <;> intro h <;> simp_all
  constructor <;> assumption

section
variable {m : String → Option String} {key reason : String}

theorem setFirst_ne (hm : ∀ k, m k ≠ some "") (hr : reason ≠ "") (k : String) :
    setFirst m key reason k ≠ some "" := by
  unfold setFirst
  split
  · exact hm k
  · by_cases hk : k = key
    · subst hk
      simpa using hr
    · rw [Function.update_of_ne hk]
      exact hm k

/-- What is not known after a reason was set was not known before, and is not what it was set for. -/
theorem setFirst_unset (hm : ∀ k, m k ≠ some "") (hr : reason ≠ "") {k : String}
    (h : (setFirst m key reason k).getD "" = "") : k ≠ key ∧ (m k).getD "" = "" := by
  unfold setFirst at h
  split at h
  · rename_i hs
    refine ⟨?_, h⟩
    rintro rfl
    obtain ⟨r, hr⟩ := Option.isSome_iff_exists.mp hs
    rw [hr] at h
    exact hm k (by rw [hr]; simpa using h)
  · by_cases hk : k = key
    · subst hk
      rw [Function.update_self] at h
      exact absurd h hr
    · rw [Function.update_of_ne hk] at h
      exact ⟨hk, h⟩

end

/-- The operation is not on the namespace, or on its database. -/
def Misses (op : CountOp) (ns : String) : Prop :=
  if op.what ≠ "" ∧ op.db then CountDelta.dbOf ns ≠ op.ns else ns ≠ op.ns

section
variable {d : CountDelta} {pos : Timestamp} {ns : String}

theorem why_ne_nil {a b : String} (h : a ≠ "") : a ++ b ≠ "" := by
  simp [String.append_eq_empty_iff, h]

theorem applyOne_reasoned (h : Reasoned d) (op : CountOp) : Reasoned (d.applyOne pos op) := by
  unfold CountDelta.applyOne
  split
  · rename_i hw
    have hwhy : op.what ++ " at " ++ tsString pos ≠ "" := why_ne_nil (why_ne_nil hw)
    split
    · exact ⟨setFirst_ne h.dbs (why_ne_nil (why_ne_nil (why_ne_nil (by decide)))), h.unknown⟩
    · exact ⟨h.dbs, setFirst_ne h.unknown hwhy⟩
  split
  · exact ⟨h.dbs, setFirst_ne h.unknown (why_ne_nil (why_ne_nil (by decide)))⟩
  · exact ⟨h.dbs, h.unknown⟩

/-- What an operation did to a namespace that is known after it: nothing, or it was counted. -/
theorem applyOne_known (hr : Reasoned d) {op : CountOp} (h : Known (d.applyOne pos op) ns) :
    Known d ns ∧ ((Misses op ns ∧ (d.applyOne pos op).delta ns = d.delta ns) ∨
      (op.what = "" ∧ op.ns = ns ∧ d.taints pos = false ∧
        (d.applyOne pos op).delta ns = d.delta ns + op.n)) := by
  unfold CountDelta.applyOne at h ⊢
  split at h
  · rename_i hw
    have hwhy : op.what ++ " at " ++ tsString pos ≠ "" := why_ne_nil (why_ne_nil hw)
    rw [if_pos hw]
    split at h
    · rename_i hdb
      obtain ⟨hne, hdbs⟩ := setFirst_unset hr.dbs
        (why_ne_nil (why_ne_nil (why_ne_nil (by decide)))) h.db
      rw [if_pos hdb]
      exact ⟨⟨h.all, hdbs, h.coll⟩, .inl ⟨by rw [Misses, if_pos ⟨hw, hdb⟩]; exact hne, rfl⟩⟩
    · rename_i hdb
      obtain ⟨hne, hcoll⟩ := setFirst_unset hr.unknown hwhy h.coll
      rw [if_neg hdb]
      exact ⟨⟨h.all, h.db, hcoll⟩, .inl ⟨by rw [Misses, if_neg (by simp [hdb])]; exact hne, rfl⟩⟩
  rename_i hw
  have hmiss : ns ≠ op.ns → Misses op ns := by
    intro hne
    rw [Misses, if_neg (by simp [not_not.mp hw])]
    exact hne
  rw [if_neg hw]
  split at h
  · rename_i ht
    obtain ⟨hne, hcoll⟩ := setFirst_unset hr.unknown
      (why_ne_nil (why_ne_nil (by decide))) h.coll
    rw [if_pos ht]
    exact ⟨⟨h.all, h.db, hcoll⟩, .inl ⟨hmiss hne, rfl⟩⟩
  · rename_i ht
    rw [if_neg ht]
    refine ⟨⟨h.all, h.db, h.coll⟩, ?_⟩
    by_cases hns : ns = op.ns
    · subst hns
      exact .inr ⟨not_not.mp hw, rfl, by simpa using ht, by simp⟩
    · exact .inl ⟨hmiss hns, by simp [Function.update_of_ne hns]⟩

theorem apply_reasoned (h : Reasoned d) (ops : List CountOp) : Reasoned (d.apply ops pos) := by
  induction ops generalizing d with
  | nil => exact h
  | cons op ops ih => exact ih (applyOne_reasoned h op)

/-- A namespace that is known after operations that count nothing is one that they miss. -/
theorem apply_misses (hr : Reasoned d) {ops : List CountOp} (hw : ∀ op ∈ ops, op.what ≠ "")
    (h : Known (d.apply ops pos) ns) :
    Known d ns ∧ (∀ op ∈ ops, Misses op ns) ∧ (d.apply ops pos).delta ns = d.delta ns := by
  induction ops generalizing d with
  | nil => exact ⟨h, by simp, rfl⟩
  | cons op ops ih =>
    obtain ⟨hk, hmiss, hd⟩ := ih (applyOne_reasoned hr op)
      (fun o ho => hw o (List.mem_cons_of_mem _ ho)) h
    obtain ⟨hk', ⟨hm, hd'⟩ | ⟨hwhat, -⟩⟩ := applyOne_known hr hk
    · refine ⟨hk', ?_, hd.trans hd'⟩
      intro o ho
      rcases List.mem_cons.mp ho with rfl | ho
      · exact hm
      · exact hmiss o ho
    · exact absurd hwhat (hw op List.mem_cons_self)

/-! ## Changes -/

/-- The change leaves the count of the namespace alone. -/
def Spares (hidden : String → Prop) (ch : Change) (ns : String) : Prop :=
  ∀ c c', ch.Effect hidden c c' → c' ns = c ns

/-- A change whose operations miss a namespace leaves its count alone. -/
theorem spares_of_misses {hidden : String → Prop} {ch : Change}
    (h : ∀ op ∈ ch.ops, Misses op ns) : Spares hidden ch ns := by
  intro c c' he
  cases ch with
  | insert m | delete m =>
    have hm : ns ≠ m := by simpa [Change.ops, Misses] using h
    exact he.1 ns hm
  | create m | drop m | empty m =>
    have hm : ns ≠ m := by simpa [Change.ops, Misses] using h
    rw [show c' = Function.update c m 0 from he, Function.update_of_ne hm]
  | toCapped m =>
    have hm : ns ≠ m := by simpa [Change.ops, Misses] using h
    obtain ⟨n, -, he⟩ := he
    rw [he, Function.update_of_ne hm]
  | rename src dst =>
    have hm : ns ≠ src ∧ ns ≠ dst := by simpa [Change.ops, Misses] using h
    rw [show c' = _ from he, Function.update_of_ne hm.2, Function.update_of_ne hm.1]
  | dropDatabase db =>
    have hm : CountDelta.dbOf ns ≠ db := by simpa [Change.ops, Misses] using h
    rw [show c' ns = _ from he ns, if_neg hm]
  | unknown db name =>
    have hm : CountDelta.dbOf ns ≠ db := by
      have h := h _ List.mem_cons_self
      rwa [Misses, if_pos ⟨why_ne_nil (by decide), rfl⟩] at h
    exact he ns hm

theorem applyOne_taintAfter (op : CountOp) : (d.applyOne pos op).taintAfter = d.taintAfter := by
  unfold CountDelta.applyOne
  repeat' split
  all_goals rfl

theorem apply_taintAfter (ops : List CountOp) : (d.apply ops pos).taintAfter = d.taintAfter := by
  induction ops generalizing d with
  | nil => rfl
  | cons op ops ih => exact (ih (d := d.applyOne pos op)).trans (applyOne_taintAfter op)

theorem apply_append (a b : List CountOp) : d.apply (a ++ b) pos = (d.apply a pos).apply b pos :=
  List.foldl_append

end

theorem Effects.append {hidden : String → Prop} {a b : List Change} {c c' : Counts}
    (h : Effects hidden (a ++ b) c c') : ∃ m, Effects hidden a c m ∧ Effects hidden b m c' := by
  induction a generalizing c with
  | nil => exact ⟨c, .nil, h⟩
  | cons ch a ih =>
    cases h with
    | cons he h =>
      obtain ⟨m, ha, hb⟩ := ih h
      exact ⟨m, .cons he ha, hb⟩

/-- Between `d` and `d'` the counter of a namespace that is known moved as its count did over the
changes `h`, and no change after the counted part of the run touched it. -/
structure Exact (hidden : String → Prop) (h : List (Timestamp × Change)) (d d' : CountDelta)
    (ns : String) : Prop where
  known : Known d ns
  same : d'.taintAfter = d.taintAfter
  delta : ∀ c c', Effects hidden (h.map (·.2)) c c' →
    (c' ns : Int) - c ns = d'.delta ns - d.delta ns
  late : ∀ p ∈ h, d.taints p.1 → Spares hidden p.2 ns

namespace Exact

variable {hidden : String → Prop} {h h' : List (Timestamp × Change)} {d d' d'' : CountDelta}
  {ns : String}

theorem nil (hk : Known d ns) : Exact hidden [] d d ns := by
  refine ⟨hk, rfl, ?_, by simp⟩
  intro c c' he
  cases he
  omega

theorem append (h1 : Exact hidden h d d' ns) (h2 : Exact hidden h' d' d'' ns) :
    Exact hidden (h ++ h') d d'' ns := by
  refine ⟨h1.known, h2.same.trans h1.same, ?_, ?_⟩
  · intro c c' he
    rw [List.map_append] at he
    obtain ⟨m, ha, hb⟩ := he.append
    have := h1.delta c m ha
    have := h2.delta m c' hb
    omega
  · intro p hp ht
    rcases List.mem_append.mp hp with hp | hp
    · exact h1.late p hp ht
    · refine h2.late p hp ?_
      rwa [CountDelta.taints, h1.same]

end Exact

section
variable {hidden : String → Prop} {d : CountDelta} {pos : Timestamp} {ns : String}

/-- A change that leaves a namespace alone, and its counter too. -/
theorem exact_of_spares {d' : CountDelta} {ch : Change} (hk : Known d ns)
    (hsame : d'.taintAfter = d.taintAfter) (hd : d'.delta ns = d.delta ns)
    (hs : Spares hidden ch ns) : Exact hidden [(pos, ch)] d d' ns := by
  refine ⟨hk, hsame, ?_, by simpa using fun _ => hs⟩
  intro c c' he
  cases he with
  | cons he hnil =>
    cases hnil
    rw [hs _ _ he, hd]
    omega

theorem counted_exact (hr : Reasoned d) {ch : Change} {m : String} {n : Int}
    (hops : ch.ops = [{ ns := m, n }])
    (hn : ∀ c c', m = ns → ch.Effect hidden c c' → (c' ns : Int) - c ns = n)
    (h : Known (d.apply ch.ops pos) ns) :
    Exact hidden [(pos, ch)] d (d.apply ch.ops pos) ns := by
  have hone : d.apply ch.ops pos = d.applyOne pos { ns := m, n } := by rw [hops]; rfl
  rw [hone] at h
  obtain ⟨hk, ⟨hm, hd⟩ | ⟨-, hns, ht, hd⟩⟩ := applyOne_known hr h
  · refine exact_of_spares hk (apply_taintAfter _) (by rw [hone, hd]) (spares_of_misses ?_)
    simpa [hops] using hm
  · refine ⟨hk, apply_taintAfter _, ?_, by simp [ht]⟩
    intro c c' he
    cases he with
    | cons he hnil =>
      cases hnil
      rw [hn _ _ hns he, hone, hd]
      change n = d.delta ns + n - d.delta ns
      omega

/-- A change none of whose operations is counted. -/
theorem uncounted_exact (hr : Reasoned d) {ch : Change} (hw : ∀ op ∈ ch.ops, op.what ≠ "")
    (h : Known (d.apply ch.ops pos) ns) : Exact hidden [(pos, ch)] d (d.apply ch.ops pos) ns := by
  obtain ⟨hk, hm, hd⟩ := apply_misses hr hw h
  exact exact_of_spares hk (apply_taintAfter _) hd (spares_of_misses hm)

theorem change_exact (hns : ¬ hidden ns) (hr : Reasoned d) (ch : Change)
    (h : Known (d.apply ch.ops pos) ns) : Exact hidden [(pos, ch)] d (d.apply ch.ops pos) ns := by
  cases ch with
  | insert m =>
    refine counted_exact hr rfl ?_ h
    rintro c c' rfl he
    have := he.2 hns
    omega
  | delete m =>
    refine counted_exact hr rfl ?_ h
    rintro c c' rfl he
    have := he.2 hns
    omega
  | unknown db name =>
    refine uncounted_exact hr ?_ h
    intro op hop
    rw [List.mem_singleton.mp hop]
    exact why_ne_nil (by decide)
  | _ => exact uncounted_exact hr (by simp [Change.ops]) h

/-- **Applying changes is exact**: by induction on them, one change at a time. -/
theorem apply_exact (hns : ¬ hidden ns) (hr : Reasoned d) {chs : List Change}
    (h : Known (d.apply (opsOf chs) pos) ns) :
    Exact hidden (chs.map (pos, ·)) d (d.apply (opsOf chs) pos) ns := by
  induction chs generalizing d with
  | nil => exact .nil h
  | cons ch chs ih =>
    have hsplit : d.apply (opsOf (ch :: chs)) pos = (d.apply ch.ops pos).apply (opsOf chs) pos :=
      apply_append _ _
    rw [hsplit] at h ⊢
    have hrest := ih (apply_reasoned hr _) h
    exact (change_exact hns hr ch hrest.known).append hrest

end

/-! ## Transactions -/

/-- The transactions the code holds from their first entry on are open, with the changes it holds. -/
structure Holds (d : CountDelta) (txns : Open) : Prop where
  reasoned : Reasoned d
  held : ∀ id st, d.txns id = some st → st.incomplete = false →
    ∃ chs, txns id = some chs ∧ st.ops = opsOf chs

theorem applyOne_txns (d : CountDelta) (pos : Timestamp) (op : CountOp) :
    (d.applyOne pos op).txns = d.txns := by
  unfold CountDelta.applyOne
  repeat' split
  all_goals rfl

@[simp] theorem apply_txns (d : CountDelta) (ops : List CountOp) (pos : Timestamp) :
    (d.apply ops pos).txns = d.txns := by
  induction ops generalizing d with
  | nil => rfl
  | cons op ops ih => exact (ih (d.applyOne pos op)).trans (applyOne_txns d pos op)

/-- A commit applies the operations of a transaction that was seen from its first entry on; it makes
every count unknown otherwise. -/
theorem commit_cases (d : CountDelta) (st : Option CountTxn) (pos : Timestamp) :
    (∃ why, d.commit st pos = { d with all := why } ∧ why ≠ "") ∨
      ∃ s, st = some s ∧ s.incomplete = false ∧ d.commit st pos = d.apply s.ops pos := by
  unfold CountDelta.commit
  split
  · rename_i s hs
    rw [Option.filter_eq_some_iff] at hs
    exact .inr ⟨s, hs.1, by simpa using hs.2, rfl⟩
  · left
    by_cases hall : d.all = ""
    · exact ⟨_, if_pos hall, why_ne_nil (why_ne_nil (by decide))⟩
    · exact ⟨d.all, if_neg hall, hall⟩

/-- What adding an entry does: every count becomes unknown, or what becomes visible is applied. -/
def Steps (d d' : CountDelta) (chs : List Change) (pos : Timestamp) : Prop :=
  d'.all ≠ "" ∨ ∃ t, d' = CountDelta.apply { d with txns := t } (opsOf chs) pos

section
variable {d d' : CountDelta} {txns : Open} {id : Bytes} {pos : Timestamp}

theorem Holds.drop (h : Holds d txns) : Holds (d.setTxn id none) (Function.update txns id none) := by
  refine ⟨⟨h.reasoned.dbs, h.reasoned.unknown⟩, ?_⟩
  intro i st hst hinc
  by_cases hi : i = id
  · subst hi
    simp [CountDelta.setTxn] at hst
  · rw [Function.update_of_ne hi]
    exact h.held i st (by simpa [CountDelta.setTxn, Function.update_of_ne hi] using hst) hinc

theorem Holds.keep (h : Holds d txns) {st : CountTxn} {chs : List Change}
    (hst : st.incomplete = false → st.ops = opsOf chs) :
    Holds (d.setTxn id (some st)) (Function.update txns id (some chs)) := by
  refine ⟨⟨h.reasoned.dbs, h.reasoned.unknown⟩, ?_⟩
  intro i s hs hinc
  by_cases hi : i = id
  · subst hi
    obtain rfl : st = s := by simpa [CountDelta.setTxn] using hs
    exact ⟨chs, by simp, hst hinc⟩
  · rw [Function.update_of_ne hi]
    exact h.held i s (by simpa [CountDelta.setTxn, Function.update_of_ne hi] using hs) hinc

theorem Holds.apply (h : Holds d txns) (ops : List CountOp) : Holds (d.apply ops pos) txns :=
  ⟨apply_reasoned h.reasoned ops, by simpa using h.held⟩

/-- Committing a transaction whose complete changes are `chs`. -/
theorem commit_step (h : Holds (d.setTxn id none) txns) {st : Option CountTxn} {chs : List Change}
    (hst : ∀ s, st = some s → s.incomplete = false → s.ops = opsOf chs) :
    Holds ((d.setTxn id none).commit st pos) txns ∧
      Steps d ((d.setTxn id none).commit st pos) chs pos := by
  obtain ⟨why, hc, hne⟩ | ⟨s, hs, hinc, hc⟩ := commit_cases (d.setTxn id none) st pos
  · rw [hc]
    exact ⟨⟨⟨h.reasoned.dbs, h.reasoned.unknown⟩, h.held⟩, .inl hne⟩
  · rw [hc, hst s hs hinc]
    exact ⟨h.apply _, .inr ⟨_, rfl⟩⟩

theorem transaction_step {e : Doc} (h : Holds d txns) (hid : txnID e = some id)
    (hl : commandName e = "applyOps" → (txns id).isSome → NamesPrevious e)
    (ha : d.transaction e id pos = .ok d') :
    Holds d' (visible txns e).2 ∧ Steps d d' (visible txns e).1 pos := by
  simp only [visible, hid]
  revert ha
  fun_cases d.transaction e id pos <;> intro ha
  · cases ha
    rw [if_pos ‹_›]
    exact ⟨h.drop, .inr ⟨_, rfl⟩⟩
  · cases ha
    rw [if_neg ‹_›, if_pos ‹_›]
    refine commit_step h.drop ?_
    intro s hs hinc
    obtain ⟨chs, htx, hops⟩ := h.held id s hs hinc
    rw [hops, htx, Option.getD_some]
  rename_i habort hcommit o
  rw [if_neg habort, if_neg hcommit]
  obtain ⟨hop, hname⟩ := txnID_spec hid
  have happ : commandName e = "applyOps" := by
    simpa [wrapperNames, habort, hcommit] using hname
  obtain ⟨v, rest, ho⟩ := commandName_cons happ (by decide)
  obtain ⟨ops, hnest, ha⟩ := Go.bind_ok ha
  simp only [o, ho, Option.getD_some, pure, Except.pure] at hnest ha ⊢
  -- the operations of the entry are the changes of its applyOps
  obtain ⟨arr, harr, hops⟩ := nestedCountOps_changes _ _ _ hnest
  have hch : changes e = (docsOf arr).flatMap changes := by
    rw [changes_eq, children_applyOps hop happ ho harr]
    simp [ownChanges, hop, ho, commandChanges]
  have hst : ((d.txns id).getD { incomplete := hasPrevOpTime e }).incomplete = false →
      ((d.txns id).getD { incomplete := hasPrevOpTime e }).ops ++ ops =
        opsOf ((txns id).getD [] ++ changes e) := by
    intro hinc
    rw [opsOf_append, hch, ← hops]
    rcases hd : d.txns id with _ | st
    · rcases ht : txns id with _ | chs
      · rfl
      · have hprev := (hl happ (by simp [ht])).hasPrevOpTime
        simp [hd, hprev] at hinc
    · obtain ⟨chs, htx, hops⟩ := h.held id st hd (by simpa [hd] using hinc)
      simp [htx, hops]
  split at ha <;> rename_i hpart <;> cases ha
  · rw [if_pos hpart]
    exact ⟨h.keep hst, .inr ⟨_, rfl⟩⟩
  · rw [if_neg hpart]
    refine commit_step h.drop ?_
    rintro s hs hinc
    obtain rfl := Option.some.inj hs
    exact hst hinc

/-- **What adding an entry does.** -/
theorem add_step {e : Doc} (h : Holds d txns)
    (hl : ∀ id, txnID e = some id → commandName e = "applyOps" → (txns id).isSome →
      NamesPrevious e)
    (ha : d.add (.doc e) = .ok d') :
    Holds d' (visible txns e).2 ∧ Steps d d' (visible txns e).1 (posOf e) := by
  simp only [CountDelta.add] at ha
  split at ha
  · cases ha
  rename_i pos hpos
  have hp : posOf e = pos := by simp [posOf, hpos]
  rw [hp]
  split at ha
  · rename_i id hid
    exact transaction_step h hid (hl id hid) ha
  · rename_i hid
    simp only [visible, hid]
    obtain ⟨ops, hops, ha⟩ := Go.bind_ok ha
    cases ha
    rw [countOps_changes hops]
    exact ⟨h.apply _, .inr ⟨d.txns, rfl⟩⟩

end

/-! ## Runs -/

section
variable {hidden : String → Prop} {d d' : CountDelta} {ns : String}

theorem Steps.exact {chs : List Change} {pos : Timestamp} (h : Steps d d' chs pos)
    (hns : ¬ hidden ns) (hr : Reasoned d) (hk : Known d' ns) :
    Exact hidden (chs.map (pos, ·)) d d' ns := by
  obtain hall | ⟨t, ht⟩ := h
  · exact absurd hk.all hall
  · rw [ht] at hk ⊢
    have he := apply_exact (d := { d with txns := t }) hns ⟨hr.dbs, hr.unknown⟩ hk
    exact ⟨⟨he.known.all, he.known.db, he.known.coll⟩, he.same, he.delta, he.late⟩

/-- By induction on the run, one entry at a time: what is known at its end was known all along. -/
theorem addAll_exact {txns : Open} {es : List Filter.Raw} (h : Holds d txns) (hl : Linked txns es)
    (ha : addAll d es = .ok d') (hns : ¬ hidden ns) (hk : Known d' ns) :
    Exact hidden (history txns es) d d' ns := by
  induction es generalizing d txns with
  | nil =>
    cases ha
    exact .nil hk
  | cons e es ih =>
    obtain ⟨d₁, hadd, hes⟩ := Go.bind_ok (x := d.add e) ha
    cases e with
    | malformed => cases hadd
    | doc e =>
      obtain ⟨hh, hs⟩ := add_step h hl.1 hadd
      have hrest := ih hh hl.2 hes
      exact (hs.exact hns h.reasoned hrest.known).append hrest

end

/-- **A count that is known is exact.** For every run of entries, whatever transactions `txns` are open
when it begins and whatever the counts `c` are: if `Delta` gives no reason, the number of documents of the
namespace changed by what it returns, and no change that became visible after `TaintAfter` touched it.
The namespace is none of those whose changes the oplog does not hold. -/
theorem delta_exact {hidden : String → Prop} {txns : Open} {taintAfter : Timestamp}
    {es : List Filter.Raw} {d : CountDelta} {c c' : Counts} {ns : String} {n : Int}
    (hl : Linked txns es) (ha : addAll { taintAfter } es = .ok d)
    (he : Effects hidden ((history txns es).map (·.2)) c c') (hns : ¬ hidden ns)
    (hd : d.deltaOf ns = (n, "")) : (c' ns : Int) - c ns = n ∧
      (taintAfter ≠ {} → ∀ p ∈ history txns es, taintAfter.before p.1 → Spares hidden p.2 ns) := by
  obtain ⟨hk, hn⟩ := deltaOf_known hd
  have h0 : Holds { taintAfter } txns :=
    ⟨⟨by simp, by simp⟩, fun id st hst => by cases hst⟩
  have hx := addAll_exact h0 hl ha hns hk
  constructor
  · have := hx.delta c c' he
    simpa [hn] using this
  · intro hset p hp hlate
    exact hx.late p hp (by simp [CountDelta.taints, hset, hlate])

/-! ## A run -/

/-- An insert into another database after the counted part of the run. -/
def lateInsert : Doc :=
  [("ts", .timestamp 4 1), ("op", .str "i"), ("ns", .str "other.a"), ("o", .doc [])]

/-- A part of a transaction that began before the run. -/
def oldPart : Doc :=
  [("ts", .timestamp 1 2), ("op", .str "c"), ("ns", .str "admin.$cmd"), ("lsid", .int32 8),
    ("txnNumber", .int64 1), ("prevOpTime", .doc [("ts", .timestamp 0 9), ("t", .int64 1)]),
    ("o", .doc [("applyOps", nestedArray [insertInto "src.a"]), ("partialTxn", .bool true)])]

def oldAbort : Doc :=
  [("ts", .timestamp 3 1), ("op", .str "c"), ("ns", .str "admin.$cmd"), ("lsid", .int32 8),
    ("txnNumber", .int64 1), ("o", .doc [("abortTransaction", .int32 1)])]

def oldID : Bytes := (txnID oldPart).getD []

/-- When the run begins, the old transaction has inserted into `src.a`. -/
def openBefore : Open := Function.update (fun _ => none) oldID (some [.insert "src.a"])

/-- A transaction that commits while the old one goes on, which is then aborted, and an insert. -/
def txnRun : List Filter.Raw :=
  [.doc txnPart, .doc oldPart, .doc txnCommit, .doc oldAbort, .doc lateInsert]

theorem changes_insertInto (ns : String) : changes (insertInto ns) = [.insert ns] := by
  rw [changes_eq, children_of_op (by simp [insertInto, Doc.str, Doc.lookup, Value.str?])]
  rfl

theorem changes_txnPart :
    changes txnPart = [.insert "src.a", .insert "other.a", .insert "src.b"] := by
  have hpart : children txnPart = [insertInto "src.a", insertInto "other.a",
      [("op", .str "c"), ("ns", .str "admin.$cmd"),
        ("o", .doc [("applyOps", nestedArray [insertInto "src.b"])])]] := rfl
  have hinner : children [("op", .str "c"), ("ns", .str "admin.$cmd"),
      ("o", .doc [("applyOps", nestedArray [insertInto "src.b"])])] = [insertInto "src.b"] := rfl
  rw [changes_eq, hpart]
  simp only [List.flatMap_cons, List.flatMap_nil, changes_insertInto]
  rw [changes_eq, hinner, List.flatMap_cons, changes_insertInto]
  rfl

theorem history_txnRun : history openBefore txnRun =
    [(⟨2, 1⟩, .insert "src.a"), (⟨2, 1⟩, .insert "other.a"), (⟨2, 1⟩, .insert "src.b"),
      (⟨4, 1⟩, .insert "other.a")] := by
  obtain ⟨id, hpart, hcommit, hne⟩ : ∃ id, txnID txnPart = some id ∧ txnID txnCommit = some id ∧
      id ≠ oldID := ⟨_, rfl, rfl, by decide +kernel⟩
  have hold : txnID oldPart = some oldID ∧ txnID oldAbort = some oldID := ⟨rfl, rfl⟩
  have hlate : txnID lateInsert = none := rfl
  have hopen (d : Doc) (h : d = txnPart ∨ d = oldPart) : (((d.doc "o").getD []).isTrue "partialTxn" ||
      ((d.doc "o").getD []).isTrue "prepare") = true := by
    rcases h with rfl | rfl <;> rfl
  have hname : commandName txnPart = "applyOps" ∧ commandName oldPart = "applyOps" := ⟨rfl, rfl⟩
  have hend : commandName txnCommit = "commitTransaction" ∧
      commandName oldAbort = "abortTransaction" := ⟨rfl, rfl⟩
  have hins : changes lateInsert = [.insert "other.a"] := by
    rw [changes_eq, children_of_op (by simp [lateInsert, Doc.str, Doc.lookup, Value.str?])]
    rfl
  simp [txnRun, history, visible, hpart, hcommit, hold, hlate, hname, hend, hopen, hins, changes_txnPart,
    openBefore, hne, hne.symm]
  decide

theorem effect_insert (hidden : String → Prop) (ns : String) (c : Counts) :
    (Change.insert ns).Effect hidden c (Function.update c ns (c ns + 1)) :=
  ⟨fun _ hm => Function.update_of_ne hm _ _, fun _ => Function.update_self _ _ _⟩

/-- The insert of the new transaction is counted at its commit, those of the old one never, and the late
insert leaves `src.a` known. -/
theorem delta_exact_txnRun : ∃ d c₁, addAll { taintAfter := ⟨3, 0⟩ } txnRun = .ok d ∧
    Effects (fun _ => False) ((history openBefore txnRun).map (·.2)) (fun _ => 5) c₁ ∧
    d.deltaOf "src.a" = (1, "") ∧ (c₁ "src.a" : Int) - 5 = 1 ∧
    ∀ p ∈ history openBefore txnRun, Timestamp.before ⟨3, 0⟩ p.1 →
      Spares (fun _ => False) p.2 "src.a" := by
  have hlinked : Linked openBefore txnRun := by
    refine ⟨fun id hid _ hs => ?_, fun id _ _ _ => ?_, fun id _ hn => ?_, fun id _ hn => ?_,
      fun id hid => ?_, trivial⟩
    · obtain rfl := Option.some.inj hid
      exact absurd hs (by decide +kernel)
    · exact ⟨_, 0, 9, rfl, rfl, .inr (by decide)⟩
    · exact absurd hn (by decide)
    · exact absurd hn (by decide)
    · cases hid
  have hrun : (addAll { taintAfter := ⟨3, 0⟩ } txnRun).toOption.map (·.deltaOf "src.a") =
      some (1, "") := by
    decide +kernel
  rcases ha : addAll { taintAfter := ⟨3, 0⟩ } txnRun with err | d
  · rw [ha] at hrun
    cases hrun
  have hd : d.deltaOf "src.a" = (1, "") := by simpa [ha, Except.toOption] using hrun
  obtain ⟨c', he⟩ : ∃ c', Effects (fun _ => False)
      ((history openBefore txnRun).map (·.2)) (fun _ => 5) c' := by
    rw [history_txnRun]
    exact ⟨_, .cons (effect_insert _ _ _) (.cons (effect_insert _ _ _)
      (.cons (effect_insert _ _ _) (.cons (effect_insert _ _ _) .nil)))⟩
  obtain ⟨hn, hlate⟩ := delta_exact hlinked ha he id hd
  exact ⟨d, c', rfl, he, hd, hn, hlate (by decide)⟩

end MongoRescue.Oplog.Proof
