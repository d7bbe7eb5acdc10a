import MongoRescue.Lib.Utf8
import MongoRescue.Oplog.Copy
import MongoRescue.Oplog.Proof.Operations
import MongoRescue.Oplog.Proof.Scanner

/-!
# Replaying chunks replays their concatenation

`copy_eq` is `Copy` without fuel, one entry at a time. A stream that does not end inside a document is
copied before what follows it (`copy_append`), and an entry before the limit is filtered as without a
limit (`apply_unlimited`).
-/

namespace MongoRescue.Oplog.Proof

open Go (Bytes)
open Walk (next_complete next_rest_length documentSize_ok)

variable {f : Filter} {decode : Bytes → Filter.Raw} {failAt : Option Nat} {s : State}

/-! ## Streams -/

def documentsLoop : Nat → Bytes → List Bytes × Bytes
  | 0, src => ([], src)
  | fuel + 1, src =>
    match Reader.next src with
    | some (.ok (doc, rest)) =>
      let r := documentsLoop fuel rest
      (doc :: r.1, r.2)
    | _ => ([], src)

/-- The documents of a stream, and what is left after them, where it ends or `Reader.Next` fails. -/
def documents (src : Bytes) : List Bytes × Bytes := documentsLoop src.length src

/-- The stream does not end inside a document: `Reader.Next` never finds it truncated. -/
def Whole (src : Bytes) : Prop := Reader.next (documents src).2 ≠ some (.error .truncated)

variable {src : Bytes} {e : StreamErr} {entry : Filter.Raw}

/-- What a stream can go on with: it ends, it fails, or a document follows. -/
theorem next_cases (src : Bytes) : src = [] ∨ (∃ e, Reader.next src = some (.error e)) ∨
    ∃ doc rest, src = doc ++ rest ∧ Walk.Complete doc ∧ Reader.next src = some (.ok (doc, rest)) := by
  unfold Reader.next
  by_cases hnil : src.length = 0
  · exact .inl (List.length_eq_zero_iff.mp hnil)
  rw [if_neg hnil]
  by_cases hfour : src.length < 4
  · rw [if_pos hfour]
    exact .inr (.inl ⟨_, rfl⟩)
  rw [if_neg hfour]
  cases hsize : documentSize (src.take 4) with
  | error e => exact .inr (.inl ⟨_, rfl⟩)
  | ok size =>
    dsimp only
    by_cases hshort : src.length - 4 < size - 4
    · rw [if_pos hshort]
      exact .inr (.inl ⟨_, rfl⟩)
    · rw [if_neg hshort]
      have hfive := documentSize_ok hsize
      refine .inr (.inr ⟨_, _, (List.take_append_drop size src).symm, ?_, rfl⟩)
      rw [Walk.Complete, List.take_take, min_eq_left (by omega), hsize, List.length_take,
        min_eq_left (by omega)]

/-- A length out of range is found whatever follows. -/
theorem next_append_error (h : Reader.next src = some (.error e)) (he : e ≠ .truncated) (rest : Bytes) :
    Reader.next (src ++ rest) = some (.error e) ∧ (src ++ rest).drop 4 = src.drop 4 ++ rest := by
  revert h
  fun_cases Reader.next src <;> intro h <;> cases h
  case case3 hnil hfour hsize =>
    unfold Reader.next
    rw [if_neg (by rw [List.length_append]; omega), if_neg (by rw [List.length_append]; omega),
      List.take_append_of_le_length (by omega), List.drop_append_of_le_length (by omega), hsize]
    exact ⟨rfl, rfl⟩
  all_goals exact absurd rfl he

/-! ## One entry at a time -/

theorem copyLoop_fuel {n m : Nat} (hn : src.length ≤ n) (hm : src.length ≤ m) (s : State) :
    f.copyLoop decode failAt n src s = f.copyLoop decode failAt m src s := by
  induction n generalizing m src s with
  | zero =>
    obtain rfl : src = [] := List.length_eq_zero_iff.mp (by omega)
    cases m <;> rfl
  | succ n ih =>
    cases m with
    | zero =>
      obtain rfl : src = [] := List.length_eq_zero_iff.mp (by omega)
      rfl
    | succ m =>
      unfold Filter.copyLoop
      rcases hnext : Reader.next src with _ | e | ⟨doc, rest⟩
      · rfl
      · rfl
      · have hrest := next_rest_length hnext
        dsimp only
        split
        · rfl
        · rfl
        · exact ih (by omega) (by omega) _

@[simp] theorem copy_nil (s : State) : f.copy decode failAt [] s = { state := s } := rfl

theorem copy_error (h : Reader.next src = some (.error e)) (s : State) : f.copy decode failAt src s =
      ⟨s, some (.stream e), if e = .truncated then [] else src.drop 4⟩ := by
  cases src with
  | nil => cases h
  | cons b src => rw [Filter.copy, List.length_cons, Filter.copyLoop, h]

/-- What `Copy` does with what `Apply` returned. -/
def goOn (f : Filter) (decode : Bytes → Filter.Raw) (failAt : Option Nat) (rest : Bytes) :
    Except Err Bool × State → Copied
  | (.error e, s') => ⟨s', some (.filter e), rest⟩
  | (.ok true, s') => ⟨s', none, rest⟩
  | (.ok false, s') => f.copy decode failAt rest s'

theorem copy_doc {doc : Bytes} (h : Walk.Complete doc) (rest : Bytes) (s : State) :
    f.copy decode failAt (doc ++ rest) s =
      goOn f decode failAt rest (f.apply (decode doc) (Filter.failsIn failAt s) s) := by
  have hlen := h.length
  obtain ⟨n, hn⟩ : ∃ n, (doc ++ rest).length = n + 1 := ⟨(doc ++ rest).length - 1, by simp; omega⟩
  rw [Filter.copy, hn, Filter.copyLoop, next_complete h]
  dsimp only
  rcases f.apply (decode doc) (Filter.failsIn failAt s) s with ⟨_ | _ | _, s'⟩
  · rfl
  · refine copyLoop_fuel ?_ (Nat.le_refl _) s'
    rw [List.length_append] at hn
    omega
  · rfl

/-- Induction on what is left of a stream. -/
theorem stream_induct {P : Bytes → Prop} (hnil : P [])
    (herror : ∀ src e, Reader.next src = some (.error e) → P src)
    (hdoc : ∀ doc rest, Walk.Complete doc → P rest → P (doc ++ rest)) (src : Bytes) : P src := by
  induction hn : src.length using Nat.strong_induction_on generalizing src with
  | _ n ih =>
    rcases next_cases src with rfl | ⟨e, he⟩ | ⟨doc, rest, rfl, hcomplete, -⟩
    · exact hnil
    · exact herror src e he
    · have hlen := hcomplete.length
      rw [List.length_append] at hn
      exact hdoc doc rest hcomplete (ih rest.length (by omega) rest rfl)

theorem documentsLoop_fuel {n m : Nat} (hn : src.length ≤ n) (hm : src.length ≤ m) :
    documentsLoop n src = documentsLoop m src := by
  induction n generalizing m src with
  | zero =>
    obtain rfl : src = [] := List.length_eq_zero_iff.mp (by omega)
    cases m <;> rfl
  | succ n ih =>
    cases m with
    | zero =>
      obtain rfl : src = [] := List.length_eq_zero_iff.mp (by omega)
      rfl
    | succ m =>
      unfold documentsLoop
      rcases hnext : Reader.next src with _ | e | ⟨doc, rest⟩
      · rfl
      · rfl
      · have hrest := next_rest_length hnext
        dsimp only
        rw [ih (show rest.length ≤ n by omega) (show rest.length ≤ m by omega)]

theorem documents_doc {doc : Bytes} (h : Walk.Complete doc) (rest : Bytes) :
    documents (doc ++ rest) = (doc :: (documents rest).1, (documents rest).2) := by
  have hlen := h.length
  obtain ⟨n, hn⟩ : ∃ n, (doc ++ rest).length = n + 1 := ⟨(doc ++ rest).length - 1, by simp; omega⟩
  have hfuel : rest.length ≤ n := by
    rw [List.length_append] at hn
    omega
  rw [documents, hn, documentsLoop, next_complete h]
  dsimp only
  rw [documentsLoop_fuel hfuel (Nat.le_refl _)]
  rfl

theorem documents_error (h : Reader.next src = some (.error e)) : documents src = ([], src) := by
  cases src with
  | nil => cases h
  | cons b src => rw [documents, List.length_cons, documentsLoop, h]

/-! ## Chunks -/

/-- The filter goes on after an entry before the limit only. -/
theorem apply_limitReached {fails : Option Nat} {s' : State} {b : Bool} (hs : s.limitReached = false)
    (h : f.apply entry fails s = (.ok b, s')) : s'.limitReached = b := by
  rcases apply_ok h with ⟨hl, -⟩ | ⟨-, d, ts, -, -, hat | ⟨-, rfl, out, n, t, ht, rfl⟩⟩
  · rw [hs] at hl
    cases hl
  · obtain ⟨-, rfl, rfl⟩ := hat
    rfl
  · exact (entryOp_progress ht).2.trans hs

/-- A stream that does not end inside a document is copied before what follows it. -/
theorem copy_append (hw : Whole src) (rest : Bytes) (hs : s.limitReached = false) :
    let r := f.copy decode failAt src s
    f.copy decode failAt (src ++ rest) s =
      if r.err.isSome || r.state.limitReached then { r with left := r.left ++ rest }
      else f.copy decode failAt rest r.state := by
  induction src using stream_induct generalizing s with
  | hnil => simp [hs]
  | herror src e he =>
    have htrunc : e ≠ .truncated := by
      rintro rfl
      rw [Whole, documents_error he] at hw
      exact hw he
    obtain ⟨hnext, hdrop⟩ := next_append_error he htrunc rest
    simp [copy_error he, copy_error hnext, htrunc, hdrop]
  | hdoc doc tail hdoc ih =>
    rw [Whole, documents_doc hdoc] at hw
    rw [List.append_assoc]
    simp only [copy_doc hdoc]
    rcases happly : f.apply (decode doc) (Filter.failsIn failAt s) s with ⟨_ | b, s'⟩
    · rfl
    · have hlimit := apply_limitReached hs happly
      cases b with
      | true => simp [goOn, hlimit]
      | false => exact ih hw hlimit

/-- Copying the chunks one after the other. -/
theorem copyChunks_flatten {chunks : List Bytes} (hs : s.limitReached = false)
    (hw : ∀ c ∈ chunks.dropLast, Whole c) :
    (f.copyChunks decode failAt chunks s).state = (f.copy decode failAt chunks.flatten s).state ∧
      (f.copyChunks decode failAt chunks s).err = (f.copy decode failAt chunks.flatten s).err := by
  induction chunks generalizing s with
  | nil => exact ⟨rfl, rfl⟩
  | cons c chunks ih =>
    rw [Filter.copyChunks, List.flatten_cons]
    rcases chunks with _ | ⟨c', chunks⟩
    · rw [List.flatten_nil, List.append_nil]
      split
      · exact ⟨rfl, rfl⟩
      · rename_i hgo
        simp only [Bool.or_eq_true, not_or, Option.not_isSome_iff_eq_none] at hgo
        exact ⟨rfl, hgo.1.symm⟩
    · rw [copy_append (hw c (by simp)) _ hs]
      split
      · exact ⟨rfl, rfl⟩
      · rename_i hgo
        simp only [Bool.or_eq_true, not_or, Bool.not_eq_true] at hgo
        exact ih hgo.2 fun d hd => hw d (by simp [hd])

/-! ## The limit -/

/-- The filter without a limit. -/
def unlimited (f : Filter) : Filter := { f with limit := {} }

/-- The entry is at or after the limit. -/
def reaches (f : Filter) : Filter.Raw → Bool
  | .malformed => false
  | .doc d => ((d.lookup "ts").bind Value.timestamp?).any fun ts => !ts.before f.limit

/-- The first entry at or after the limit. -/
def firstReaching (f : Filter) (decode : Bytes → Filter.Raw) (src : Bytes) : Option Bytes :=
  (documents src).1.find? fun doc => reaches f (decode doc)

/-- What comes before the first entry at or after the limit. -/
def headOf (f : Filter) (decode : Bytes → Filter.Raw) (src : Bytes) : Bytes :=
  if (firstReaching f decode src).isSome then
    ((documents src).1.takeWhile fun doc => !reaches f (decode doc)).flatten
  else src

theorem nested_unlimited (levels : Nat) (o : Doc) : (unlimited f).nested levels o = f.nested levels o := by
  induction levels generalizing o with
  | zero => rfl
  | succ n ih =>
    unfold Filter.nested
    rw [show (unlimited f).nested n = f.nested n from funext ih]
    rfl

theorem entryOp_unlimited (d : Doc) : (unlimited f).entryOp d = f.entryOp d := by
  have hnested : (unlimited f).nested maxApplyOpsDepth = f.nested maxApplyOpsDepth :=
    funext (nested_unlimited _)
  unfold Filter.entryOp Filter.op Filter.transaction Filter.txnApplyOps
  rw [hnested]
  rfl

/-- Before the limit, the filter does what it does without one. -/
theorem apply_unlimited (h : reaches f entry = false) (fails : Option Nat) (s : State) :
    f.apply entry fails s = (unlimited f).apply entry fails s := by
  unfold Filter.apply
  cases entry with
  | malformed => rfl
  | doc d =>
    simp only [entryOp_unlimited]
    rcases hts : (d.lookup "ts").bind Value.timestamp? with _ | ts
    · rfl
    · have hbefore : ts.before f.limit = true := by simpa [reaches, hts] using h
      have hret (k : Timestamp → M Bool) : Prog.ret ts >>= k = k ts := rfl
      simp [Prog.orFail, unlimited, hret, hbefore]
      rfl

/-- Before the limit the filter does not stop. -/
theorem apply_goes_on (h : reaches f entry = false) (hs : s.limitReached = false) {fails : Option Nat}
    {s' : State} : f.apply entry fails s ≠ (.ok true, s') := by
  intro hb
  rcases apply_ok hb with ⟨hl, -⟩ | ⟨-, d, ts, rfl, hts, ⟨⟨-, hat⟩, -⟩ | ⟨-, hfalse, -⟩⟩
  · rw [hs] at hl
    cases hl
  · have hbefore : ts.before f.limit = true := by simpa [reaches, hts] using h
    rw [hbefore] at hat
    cases hat
  · cases hfalse

/-- At the limit the filter stops, if it has a target. -/
theorem apply_reaches (h : reaches f entry = true) (hlimit : f.limit ≠ {}) (fails : Option Nat)
    (hs : s.limitReached = false) : f.apply entry fails s = (.error .noTarget, s) ∨
      f.apply entry fails s = (.ok true, { s with limitReached := true }) := by
  cases entry with
  | malformed => cases h
  | doc d =>
    rcases hts : (d.lookup "ts").bind Value.timestamp? with _ | ts
    · simp [reaches, hts] at h
    · have hafter : ts.before f.limit = false := by simpa [reaches, hts] using h
      unfold Filter.apply
      split
      · exact .inl rfl
      · right
        simp [Prog.bind_run, Prog.get, hs, hts, Prog.orFail, Prog.ret, hlimit, hafter, Prog.modify]

/-- The reading stops after the first entry at or after the limit. -/
structure StopsAt (f : Filter) (decode : Bytes → Filter.Raw) (failAt : Option Nat) (src : Bytes) (s : State) :
    Prop where
  none : firstReaching f decode src = none →
    f.copy decode failAt src s = (unlimited f).copy decode failAt src s
  some : ∀ doc, firstReaching f decode src = some doc →
    let r := (unlimited f).copy decode failAt (headOf f decode src) s
    let q := f.copy decode failAt src s
    q.state = { r.state with limitReached := q.state.limitReached } ∧
      (q.err = .none → q.state.limitReached = true ∧ src = headOf f decode src ++ doc ++ q.left)

theorem stops_at (hlimit : f.limit ≠ {}) (src : Bytes) (hs : s.limitReached = false) :
    StopsAt f decode failAt src s := by
  induction src using stream_induct generalizing s with
  | hnil => exact ⟨fun _ => rfl, fun doc h => by cases h⟩
  | herror src e he =>
    refine ⟨fun _ => ?_, fun doc h => ?_⟩
    · rw [copy_error he, copy_error he]
    · rw [firstReaching, documents_error he] at h
      cases h
  | hdoc doc tail hdoc ih =>
    cases hreach : reaches f (decode doc) with
    | true =>
      have hfirst : firstReaching f decode (doc ++ tail) = some doc := by
        simp [firstReaching, documents_doc hdoc, hreach]
      have hhead : headOf f decode (doc ++ tail) = [] := by
        simp [headOf, hfirst, documents_doc hdoc, hreach]
      refine ⟨fun h => ?_, fun doc' h => ?_⟩
      · rw [hfirst] at h
        cases h
      · rw [hfirst] at h
        cases h
        rw [hhead, copy_doc hdoc]
        rcases apply_reaches hreach hlimit (Filter.failsIn failAt s) hs with hb | hb
        · rw [hb]
          exact ⟨rfl, fun h => by cases h⟩
        · rw [hb]
          exact ⟨rfl, fun _ => ⟨rfl, rfl⟩⟩
    | false =>
      have hfirst : firstReaching f decode (doc ++ tail) = firstReaching f decode tail := by
        simp [firstReaching, documents_doc hdoc, hreach]
      have hhead : headOf f decode (doc ++ tail) = doc ++ headOf f decode tail := by
        unfold headOf
        rw [hfirst, documents_doc hdoc]
        split
        · simp [hreach]
        · rfl
      have happly := apply_unlimited hreach (Filter.failsIn failAt s) s
      refine ⟨fun h => ?_, fun doc' h => ?_⟩
      · rw [copy_doc hdoc, copy_doc hdoc, ← happly]
        rcases hb : f.apply (decode doc) (Filter.failsIn failAt s) s with ⟨_ | _ | _, s'⟩
        · rfl
        · exact (ih (apply_limitReached hs hb)).none (hfirst ▸ h)
        · rfl
      · rw [hhead, copy_doc hdoc, copy_doc hdoc, ← happly]
        rcases hb : f.apply (decode doc) (Filter.failsIn failAt s) s with ⟨_ | _ | _, s'⟩
        · exact ⟨rfl, fun h => by cases h⟩
        · obtain ⟨hstate, hstop⟩ := (ih (apply_limitReached hs hb)).some doc' (hfirst ▸ h)
          refine ⟨hstate, fun hnone => ⟨(hstop hnone).1, ?_⟩⟩
          have hsplit := (hstop hnone).2
          simp only [List.append_assoc] at hsplit ⊢
          exact congrArg (doc ++ ·) hsplit
        · exact absurd hb (apply_goes_on hreach hs)

/-- **Replaying chunks replays their concatenation.** If no chunk before the last ends inside a document,
the filter ends the same and writes the same as for one stream. With a limit it writes what it writes
without one for the part of the stream before the first entry at or after the limit, and it reads and
writes nothing after that entry. -/
theorem chunked_replay (f : Filter) (decode : Bytes → Filter.Raw) (failAt : Option Nat) {s : State}
    (hs : s.limitReached = false) : (∀ chunks : List Bytes, (∀ c ∈ chunks.dropLast, Whole c) →
      (f.copyChunks decode failAt chunks s).state = (f.copy decode failAt chunks.flatten s).state ∧
        (f.copyChunks decode failAt chunks s).err = (f.copy decode failAt chunks.flatten s).err) ∧
      (f.limit ≠ {} → ∀ src : Bytes,
        (f.copy decode failAt src s).state.emitted =
            ((unlimited f).copy decode failAt (headOf f decode src) s).state.emitted ∧
          ∀ doc, firstReaching f decode src = some doc → (f.copy decode failAt src s).err = none →
            (f.copy decode failAt src s).state.limitReached = true ∧
              src = headOf f decode src ++ doc ++ (f.copy decode failAt src s).left) := by
  refine ⟨fun chunks hw => copyChunks_flatten hs hw, fun hlimit src => ?_⟩
  have hstop : StopsAt f decode failAt src s := stops_at hlimit src hs
  refine ⟨?_, fun doc hdoc => (hstop.some doc hdoc).2⟩
  rcases hfirst : firstReaching f decode src with _ | doc
  · rw [hstop.none hfirst, headOf, hfirst]
    rfl
  · rw [(hstop.some doc hfirst).1]

/-! ## Entries as bytes

A decoder of documents as the driver's: every value has the length that its type gives it, and a
document that does not end where it says is malformed. Texts are read as UTF-8. -/

/-- The length of a value of this type at the front of `b`. -/
def valueSize (type : UInt8) (b : Bytes) : Option Nat :=
  let n := Go.littleEndianValue (b.take 4)
  let text := (b.takeWhile (· ≠ 0)).length + 1
  match type.toNat with
  | 6 | 10 | 127 | 255 => some 0
  | 8 => some 1
  | 16 => some 4
  | 1 | 9 | 17 | 18 => some 8
  | 7 => some 12
  | 19 => some 16
  | 3 | 4 | 15 => some n
  | 2 | 13 | 14 => some (n + 4)
  | 5 => some (n + 5)
  | 12 => some (n + 16)
  | 11 => some (text + ((b.drop text).takeWhile (· ≠ 0)).length + 1)
  | _ => none

/-- What is in the frame of a document. -/
def unframe (b : Bytes) : Option Bytes :=
  if 5 ≤ b.length ∧ Go.littleEndianValue (b.take 4) = b.length ∧ b.getLast? = some 0 then
    some (b.drop 4).dropLast
  else none

def decodeValue (nested : Bytes → Option Doc) (type : UInt8) (b : Bytes) : Option Value :=
  let n := Go.littleEndianValue b
  match type.toNat with
  | 1 => some (.double (.ofNat n))
  | 2 => if b.length = 4 ∨ b.getLast? ≠ some 0 then none
    else (Go.chars (b.drop 4).dropLast).map fun cs => .str (.ofList cs)
  | 3 => ((unframe b).bind nested).map .doc
  | 4 => ((unframe b).bind nested).map .array
  | 8 => some (.bool (n = 1))
  | 16 => some (.int32 (.ofNat n))
  | 17 => some (.timestamp (.ofNat (Go.littleEndianValue (b.drop 4))) (.ofNat n))
  | 18 => some (.int64 (.ofNat n))
  | _ => some (.other type b)

def decodeElems : Nat → Bytes → Option Doc
  | _, [] => some []
  | 0, _ => none
  | fuel + 1, type :: b => do
    let key ← Go.chars (b.takeWhile (· ≠ 0))
    let b := (b.dropWhile (· ≠ 0)).drop 1
    let size ← valueSize type b
    if b.length < size then none
    else
      let v ← decodeValue (decodeElems fuel) type (b.take size)
      return (.ofList key, v) :: (← decodeElems fuel (b.drop size))

/-- Every element has a byte, so the length of the document is fuel enough. -/
def decodeDoc (b : Bytes) : Filter.Raw :=
  match (unframe b).bind (decodeElems b.length) with
  | some d => .doc d
  | none => .malformed

def documentOf (d : Doc) : Bytes := frame (encodeElems d)

/-- An insert into `src.a` in second `t`. -/
def insertAt (t : UInt32) : Bytes :=
  documentOf [("ts", .timestamp t 1), ("t", .int64 1), ("v", .int64 2), ("op", .str "i"),
    ("ns", .str "src.a"), ("ui", .other 5 ([16, 0, 0, 0, 4] ++ List.replicate 16 7)),
    ("o", .doc [("_id", .int32 1)]), ("wall", .other 9 (List.replicate 8 1))]

/-- The second chunk begins with the entry at the limit, and an earlier one follows. -/
theorem chunked_replay_limit : let f : Filter := { cloneSrc with limit := ⟨2, 1⟩ }
    let chunks : List Bytes := [insertAt 1, insertAt 2 ++ insertAt 1]
    (f.copyChunks decodeDoc none chunks {}).state = (f.copy decodeDoc none chunks.flatten {}).state ∧
      (f.copy decodeDoc none chunks.flatten {}).state.emitted =
        ((unlimited f).copy decodeDoc none (headOf f decodeDoc chunks.flatten) {}).state.emitted ∧
      (f.copy decodeDoc none chunks.flatten {}).state.entries = 1 ∧
      (f.copy decodeDoc none chunks.flatten {}).state.limitReached = true := by
  intro f chunks
  obtain ⟨hchunks, hlimit⟩ := chunked_replay f decodeDoc none (s := {}) rfl
  obtain ⟨hemitted, hstop⟩ := hlimit (by decide) chunks.flatten
  refine ⟨(hchunks chunks ?_).1, hemitted, by decide +kernel,
    (hstop (insertAt 2) (by decide +kernel) (by decide +kernel)).1⟩
  intro c hc
  obtain rfl : c = insertAt 1 := by simpa [chunks] using hc
  have hleft : (documents (insertAt 1)).2 = [] := by decide +kernel
  rw [Whole, hleft]
  exact fun h => by cases h

/-- An entry that is cut by the end of a chunk is not read, and the replay fails. -/
theorem cut_document_lost :
    (cloneSrc.copyChunks decodeDoc none [(insertAt 1).take 40, (insertAt 1).drop 40] {}).state.entries =
        0 ∧
      (cloneSrc.copy decodeDoc none (insertAt 1) {}).state.entries = 1 := by
  decide +kernel

end MongoRescue.Oplog.Proof
