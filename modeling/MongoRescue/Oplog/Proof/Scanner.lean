import MongoRescue.Oplog.Scanner

/-!
# The scanner and the reader see the same entries

The scanner takes its bytes in whatever pieces `Write` is given them. `feed` is the same machine with
one byte at a time; `scan_eq_feed` says that a `Write` is `feed` of its bytes, so where the bytes are
cut does not matter (`feed_append`). A scanner holds the bytes of an unfinished document (`pending`),
and from there on it finds what `Reader.readAll` finds in those bytes and the ones that follow
(`feed_reads`).
-/

namespace MongoRescue.Oplog.Proof.Walk

open Go (Bytes)

variable {d : Driver}

/-! ## Scanners between two bytes -/

/-- A scanner that has not failed: it is in a length prefix, or in a document whose length prefix it
has read and whose end it has not. -/
structure Ok (s : Scanner) : Prop where
  err : s.err = none
  prefixLen : s.lengthPrefix.length = 4
  prefixN : s.prefixN ≤ 4
  size : s.prefixN = 4 → documentSize s.lengthPrefix = .ok s.doc.length
  docPrefix : s.prefixN = 4 → s.doc.take 4 = s.lengthPrefix
  docN : s.prefixN = 4 → 4 ≤ s.docN ∧ s.docN < s.doc.length

/-- The bytes of the unfinished document. -/
def pending (s : Scanner) : Bytes :=
  if s.prefixN < 4 then s.lengthPrefix.take s.prefixN else s.doc.take s.docN

/-- The scanner has counted the entries at these positions. -/
structure Seen (s : Scanner) (l : List OpTime) : Prop where
  count : s.count = l.length
  first : s.first = l.head?.getD {}
  last : s.last = l.getLast?.getD {}

/-- The scanner after one more byte of the length prefix. -/
def addPrefix (s : Scanner) (b : UInt8) : Scanner :=
  { s with lengthPrefix := s.lengthPrefix.set s.prefixN b, prefixN := s.prefixN + 1 }

/-- The scanner after one more byte of the document. -/
def addDoc (s : Scanner) (b : UInt8) : Scanner :=
  { s with doc := s.doc.set s.docN b, docN := s.docN + 1 }

variable {lead doc : Bytes} {s : Scanner} {e : StreamErr} {l : List OpTime}

theorem documentSize_ok {size : Nat} (h : documentSize lead = .ok size) : 5 ≤ size := by
  unfold documentSize at h
  dsimp only at h
  split at h
  · cases h
  · rename_i hn
    cases h
    unfold minDocumentSize at hn
    omega

/-! ## The start of a document -/

/-- Whether the buffer is new or was there before, it has the document's size. -/
theorem room_eq (s : Scanner) (size : Nat) :
    ∃ doc spare, doc.length = size ∧ s.room size = { s with doc := doc, spare := spare } := by
  unfold Scanner.room
  split
  · rename_i h
    exact ⟨_, _, by simpa using h, rfl⟩
  · exact ⟨_, _, by simp, rfl⟩

/-- A document that was just started holds its length prefix and nothing else. -/
theorem start_eq {size : Nat} (h4 : s.lengthPrefix.length = 4) (hsize : 5 ≤ size) :
    ∃ doc spare, doc.length = size ∧ doc.take 4 = s.lengthPrefix ∧
      s.start size = { s with doc := doc, spare := spare, docN := 4 } := by
  obtain ⟨doc, spare, hlen, hroom⟩ := room_eq s size
  have hcopied : Go.copied doc 0 s.lengthPrefix = 4 := by
    simp only [Go.copied]
    omega
  have htake : (Go.copyAt doc 0 s.lengthPrefix).take (0 + s.lengthPrefix.length) =
      doc.take 0 ++ s.lengthPrefix := Go.take_copyAt _ (by omega)
  refine ⟨Go.copyAt doc 0 s.lengthPrefix, spare, by simpa using hlen, by simpa [h4] using htake, ?_⟩
  simp only [Scanner.start, hroom, hcopied]

/-! ## `scan` takes one byte after the other -/

theorem copied_cons {dst : Bytes} {k : Nat} (b : UInt8) (p : Bytes) (h : k < dst.length) :
    Go.copied dst k (b :: p) = Go.copied (dst.set k b) (k + 1) p + 1 := by
  simp only [Go.copied, List.length_cons, List.length_set]
  omega

theorem fill_cons (b : UInt8) (p : Bytes) (h : s.docN + 1 < s.doc.length) :
    s.fill d (b :: p) = (addDoc s b).fill d p := by
  have hc := copied_cons b p (show s.docN < s.doc.length by omega)
  simp only [Scanner.fill, hc, addDoc, Go.copyAt, Nat.add_assoc, Nat.add_comm 1,
    List.drop_succ_cons]

theorem fill_last (b : UInt8) (p : Bytes) (h : s.docN + 1 = s.doc.length) :
    s.fill d (b :: p) = (addDoc s b).complete d p := by
  have hc : Go.copied s.doc s.docN (b :: p) = 1 := by
    simp only [Go.copied, List.length_cons]
    omega
  have hd : Go.copyAt s.doc s.docN (b :: p) = s.doc.set s.docN b := by
    rw [Go.copyAt, Go.copyAt_of_length_le p (by simp; omega)]
  simp only [Scanner.fill, hc, hd, addDoc, List.length_set, h, Nat.lt_irrefl, if_false,
    List.drop_succ_cons, List.drop_zero]

theorem turn_prefix (b : UInt8) (p : Bytes) (h : s.prefixN + 1 < s.lengthPrefix.length) :
    s.turn d (b :: p) = (addPrefix s b).turn d p := by
  have hc := copied_cons b p (show s.prefixN < s.lengthPrefix.length by omega)
  simp only [Scanner.turn, show s.prefixN < s.lengthPrefix.length by omega, if_true, hc, addPrefix,
    Go.copyAt, Nat.add_assoc, Nat.add_comm 1, List.drop_succ_cons, List.length_set, h]

theorem turn_prefixLast (b : UInt8) (p : Bytes) (h : s.prefixN + 1 = s.lengthPrefix.length) :
    s.turn d (b :: p) = (addPrefix s b).sized d p := by
  have hc : Go.copied s.lengthPrefix s.prefixN (b :: p) = 1 := by
    simp only [Go.copied, List.length_cons]
    omega
  have hd : Go.copyAt s.lengthPrefix s.prefixN (b :: p) = s.lengthPrefix.set s.prefixN b := by
    rw [Go.copyAt, Go.copyAt_of_length_le p (by simp; omega)]
  have hlt : s.prefixN < s.lengthPrefix.length := by omega
  simp only [Scanner.turn, hlt, if_true, hc, hd, addPrefix, List.length_set, h, Nat.lt_irrefl,
    if_false, List.drop_succ_cons, List.drop_zero]

theorem turn_doc (p : Bytes) (h : s.lengthPrefix.length ≤ s.prefixN) : s.turn d p = s.fill d p := by
  rw [Scanner.turn, if_neg (by omega)]

/-! ## What the reader finds -/

/-- `doc` is a complete document: its length prefix is in range and gives its length. -/
def Complete (doc : Bytes) : Prop := documentSize (doc.take 4) = .ok doc.length

theorem Complete.length (h : Complete doc) : 5 ≤ doc.length := documentSize_ok h

@[simp] theorem next_nil : Reader.next [] = none := rfl

theorem next_complete (h : Complete doc) (rest : Bytes) :
    Reader.next (doc ++ rest) = some (.ok (doc, rest)) := by
  have hlen := h.length
  have htake : (doc ++ rest).take 4 = doc.take 4 := by
    rw [List.take_append_of_le_length (by omega)]
  unfold Complete at h
  unfold Reader.next
  rw [if_neg (by rw [List.length_append]; omega), if_neg (by rw [List.length_append]; omega), htake,
    h]
  dsimp only
  rw [if_neg (by simp; omega)]
  simp

theorem next_rest_length {s rest : Bytes} (h : Reader.next s = some (.ok (doc, rest))) :
    rest.length < s.length := by
  revert h
  fun_cases Reader.next s <;> intro h <;> cases h
  rename_i size hsize _
  have := documentSize_ok hsize
  rw [List.length_drop]
  omega

theorem readLoop_fuel {n m : Nat} {s : Bytes} (hn : s.length ≤ n) (hm : s.length ≤ m) :
    Reader.readLoop d n s = Reader.readLoop d m s := by
  induction n generalizing m s with
  | zero =>
    obtain rfl : s = [] := List.length_eq_zero_iff.mp (by omega)
    cases m <;> rfl
  | succ n ih =>
    cases m with
    | zero =>
      obtain rfl : s = [] := List.length_eq_zero_iff.mp (by omega)
      rfl
    | succ m =>
      unfold Reader.readLoop
      rcases hnext : Reader.next s with _ | e | ⟨doc, rest⟩
      · rfl
      · rfl
      · have := next_rest_length hnext
        dsimp only
        rw [ih (show rest.length ≤ n by omega) (show rest.length ≤ m by omega)]

theorem readAll_error {s : Bytes} (h : Reader.next s = some (.error e)) :
    Reader.readAll d s = ([], some e) := by
  cases s with
  | nil => cases h
  | cons b s => rw [Reader.readAll, List.length_cons, Reader.readLoop, h]

theorem readAll_refused (h : Complete doc) (rest : Bytes) (he : entryOpTime d doc = .error e) :
    Reader.readAll d (doc ++ rest) = ([], some e) := by
  have hlen := h.length
  obtain ⟨n, hn⟩ : ∃ n, (doc ++ rest).length = n + 1 := ⟨(doc ++ rest).length - 1, by simp; omega⟩
  simp only [Reader.readAll, hn, Reader.readLoop, next_complete h, he]

theorem readAll_entry {pos : OpTime} (h : Complete doc) (rest : Bytes)
    (he : entryOpTime d doc = .ok pos) : Reader.readAll d (doc ++ rest) =
      (pos :: (Reader.readAll d rest).1, (Reader.readAll d rest).2) := by
  have hlen := h.length
  obtain ⟨n, hn⟩ : ∃ n, (doc ++ rest).length = n + 1 := ⟨(doc ++ rest).length - 1, by simp; omega⟩
  have hfuel : Reader.readLoop d n rest = Reader.readAll d rest :=
    readLoop_fuel (by simp at hn; omega) (Nat.le_refl _)
  simp only [Reader.readAll, hn, Reader.readLoop, next_complete h, he, hfuel]

theorem next_badSize (h4 : lead.length = 4) (h : documentSize lead = .error e) (rest : Bytes) :
    Reader.next (lead ++ rest) = some (.error e) := by
  have htake : (lead ++ rest).take 4 = lead := by
    rw [List.take_append_of_le_length (by omega), List.take_of_length_le (by omega)]
  unfold Reader.next
  rw [if_neg (by rw [List.length_append]; omega), if_neg (by rw [List.length_append]; omega), htake,
    h]

/-- Where the stream ends in the middle of a document, the reader reports it truncated. -/
theorem readAll_pending (hs : Ok s) : Reader.readAll d (pending s) =
    ([], if 0 < s.prefixN then some .truncated else none) := by
  by_cases h0 : s.prefixN = 0
  · simp only [pending, h0, Nat.lt_irrefl, if_false, show (0 : Nat) < 4 by omega, if_true,
      List.take_zero]
    rfl
  · rw [if_pos (by omega)]
    apply readAll_error
    have hlen := hs.prefixLen
    unfold pending Reader.next
    by_cases h4 : s.prefixN < 4
    · rw [if_pos h4, List.length_take, if_neg (by omega), if_pos (by omega)]
    · obtain hn : s.prefixN = 4 := by have := hs.prefixN; omega
      obtain ⟨h4N, hdoc⟩ := hs.docN hn
      have htake : (s.doc.take s.docN).take 4 = s.lengthPrefix := by
        rw [List.take_take, Nat.min_eq_left h4N, hs.docPrefix hn]
      rw [if_neg h4, htake, hs.size hn, List.length_take, if_neg (by omega), if_neg (by omega)]
      dsimp only
      rw [if_pos (by omega)]

/-! ## One byte -/

theorem documentSize_error (h : documentSize lead = .error e) : e.malformed = true := by
  unfold documentSize at h
  dsimp only at h
  split at h
  · cases h
    rfl
  · cases h

theorem entryOpTime_error (h : entryOpTime d doc = .error e) : e.malformed = true := by
  unfold entryOpTime at h
  cases hv : d.validate doc with
  | error err =>
    rw [hv] at h
    cases h
    rfl
  | ok u =>
    rw [hv] at h
    cases hts : (d.lookup doc "ts").bind Value.timestamp? with
    | none =>
      rw [hts] at h
      cases h
      rfl
    | some ts =>
      rw [hts] at h
      cases h

/-- What the byte `b` does to a scanner that has counted the entries `l`: it makes the unfinished
document longer, completes it as an entry, or stops the scanner where it stops the reader. -/
inductive ByteStep (d : Driver) (s : Scanner) (l : List OpTime) (b : UInt8) : Prop
  | more (s' : Scanner) (ok : Ok s') (seen : Seen s' l) (pending_eq : pending s' = pending s ++ [b])
      (turn_eq : ∀ p, s.turn d (b :: p) = s'.turn d p)
  | entry (s' : Scanner) (pos : OpTime) (ok : Ok s') (seen : Seen s' (l ++ [pos]))
      (pending_eq : pending s' = [])
      (reads : ∀ q, Reader.readAll d (pending s ++ b :: q) =
        (pos :: (Reader.readAll d q).1, (Reader.readAll d q).2))
      (turn_eq : ∀ p, s.turn d (b :: p) = .again s' p)
  | failed (s' : Scanner) (e : StreamErr) (malformed : e.malformed = true) (seen : Seen s' l)
      (reads : ∀ q, Reader.readAll d (pending s ++ b :: q) = ([], some e))
      (turn_eq : ∀ p, s.turn d (b :: p) = .failed s' e)

/-- The scanner after its document was counted at `pos`. -/
def counted (s : Scanner) (pos : OpTime) : Scanner :=
  { s with first := if s.count = 0 then pos else s.first, last := pos, count := s.count + 1,
           prefixN := 0, docN := 0 }

theorem complete_ok {pos : OpTime} (h : entryOpTime d s.doc = .ok pos) (p : Bytes) :
    s.complete d p = .again (counted s pos) p := by
  simp only [Scanner.complete, Scanner.entry, h, counted]

theorem Seen.add (h : Seen s l) (pos : OpTime) : Seen (counted s pos) (l ++ [pos]) := by
  unfold counted
  refine ⟨by simp [h.count], ?_, by simp⟩
  cases l with
  | nil => simp [h.count]
  | cons x l => simp [h.count, h.first]

theorem byteStep_prefix (hs : Ok s) (hl : Seen s l) (b : UInt8) (h : s.prefixN + 1 < 4) :
    ByteStep d s l b := by
  have h4 := hs.prefixLen
  refine .more (addPrefix s b) ⟨hs.err, by simpa [addPrefix] using h4, ?_, ?_, ?_, ?_⟩
    ⟨hl.count, hl.first, hl.last⟩ ?_ fun p => turn_prefix b p (by omega)
  · simp only [addPrefix]
    omega
  · intro hn
    simp only [addPrefix] at hn
    omega
  · intro hn
    simp only [addPrefix] at hn
    omega
  · intro hn
    simp only [addPrefix] at hn
    omega
  · simp only [pending, addPrefix, h, if_true, show s.prefixN < 4 by omega]
    exact Go.take_succ_set b (by omega)

theorem byteStep_prefixLast (hs : Ok s) (hl : Seen s l) (b : UInt8) (h : s.prefixN + 1 = 4) :
    ByteStep d s l b := by
  have h4 := hs.prefixLen
  have hlen : (addPrefix s b).lengthPrefix.length = 4 := by simpa [addPrefix] using h4
  have hlead : (addPrefix s b).lengthPrefix = pending s ++ [b] := by
    have := Go.take_succ_set b (show s.prefixN < s.lengthPrefix.length by omega)
    rw [h, List.take_of_length_le (by simp [h4])] at this
    simpa only [pending, addPrefix, show s.prefixN < 4 by omega, if_true] using this
  have hturn (p : Bytes) := turn_prefixLast (d := d) b p (show s.prefixN + 1 = _ by omega)
  cases hsize : documentSize (addPrefix s b).lengthPrefix with
  | error e =>
    refine .failed (addPrefix s b) e (documentSize_error hsize) ⟨hl.count, hl.first, hl.last⟩ ?_ ?_
    · intro q
      have := next_badSize hlen hsize q
      rw [hlead, List.append_assoc, List.singleton_append] at this
      exact readAll_error this
    · intro p
      rw [hturn, Scanner.sized, hsize]
  | ok size =>
    obtain ⟨doc, spare, hdoc, htake, hstart⟩ := start_eq hlen (documentSize_ok hsize)
    have h5 := documentSize_ok hsize
    refine .more ((addPrefix s b).start size) ?_ ?_ ?_ ?_
    · rw [hstart]
      exact ⟨hs.err, hlen, by simp only [addPrefix]; omega, fun _ => by rw [hdoc]; exact hsize,
        fun _ => htake, fun _ => ⟨Nat.le_refl 4, by dsimp only; omega⟩⟩
    · rw [hstart]
      exact ⟨hl.count, hl.first, hl.last⟩
    · rw [hstart, ← hlead, ← htake]
      simp only [pending, addPrefix, h, Nat.lt_irrefl, if_false]
    · intro p
      rw [hturn, Scanner.sized, hsize, turn_doc]
      rw [hstart]
      simp only [addPrefix] at hlen ⊢
      omega

theorem byteStep_doc (hs : Ok s) (hl : Seen s l) (b : UInt8) (hn : s.prefixN = 4) :
    ByteStep d s l b := by
  have h4 := hs.prefixLen
  obtain ⟨h4N, hdoc⟩ := hs.docN hn
  have hpending : pending s = s.doc.take s.docN := by rw [pending, if_neg (by omega)]
  have htake := Go.take_succ_set b hdoc
  have hlead : (addDoc s b).doc.take 4 = s.lengthPrefix := by
    rw [← hs.docPrefix hn]
    exact List.take_set_of_le h4N
  have hturn (p : Bytes) := turn_doc (d := d) p (show s.lengthPrefix.length ≤ s.prefixN by omega)
  by_cases hlast : s.docN + 1 < s.doc.length
  · refine .more (addDoc s b) ⟨hs.err, h4, hs.prefixN, ?_, fun _ => hlead, ?_⟩
      ⟨hl.count, hl.first, hl.last⟩ ?_ fun p => ?_
    · intro _
      simpa [addDoc] using hs.size hn
    · intro _
      simp only [addDoc, List.length_set]
      omega
    · rw [hpending, ← htake]
      simp only [pending, addDoc, hn, Nat.lt_irrefl, if_false]
    · rw [hturn, fill_cons b p hlast, turn_doc]
      simp only [addDoc]
      omega
  · have hend : s.docN + 1 = s.doc.length := by omega
    have hwhole : (addDoc s b).doc = pending s ++ [b] := by
      rw [hpending, ← htake, hend, List.take_of_length_le (by simp)]
      rfl
    have hcomplete : Complete (pending s ++ [b]) := by
      rw [← hwhole, Complete, hlead, hs.size hn]
      simp [addDoc]
    have hfill (p : Bytes) := fill_last (d := d) b p hend
    cases hentry : entryOpTime d (addDoc s b).doc with
    | error e =>
      refine .failed (addDoc s b) e (entryOpTime_error hentry) ⟨hl.count, hl.first, hl.last⟩
        (fun q => ?_) fun p => ?_
      · rw [hwhole] at hentry
        simpa using readAll_refused hcomplete q hentry
      · rw [hturn, hfill, Scanner.complete, Scanner.entry, hentry]
    | ok pos =>
      have hseen : Seen (addDoc s b) l := ⟨hl.count, hl.first, hl.last⟩
      refine .entry (counted (addDoc s b) pos) pos ⟨hs.err, h4, Nat.zero_le 4, ?_, ?_, ?_⟩
        (hseen.add pos) rfl (fun q => ?_) fun p => by rw [hturn, hfill, complete_ok hentry]
      · intro h0
        cases h0
      · intro h0
        cases h0
      · intro h0
        cases h0
      · rw [hwhole] at hentry
        simpa using readAll_entry hcomplete q hentry

theorem byteStep (hs : Ok s) (hl : Seen s l) (b : UInt8) : ByteStep d s l b := by
  have hN := hs.prefixN
  rcases Nat.lt_trichotomy (s.prefixN + 1) 4 with h | h | h
  · exact byteStep_prefix hs hl b h
  · exact byteStep_prefixLast hs hl b h
  · exact byteStep_doc hs hl b (by omega)

/-! ## One `Write` -/

/-- What scanning `p` gives, together with all that the reader will find: whatever `q` follows `p`,
the entries in the unfinished document and `p` are those that the scanner has counted, and the reading
goes on from the document that is unfinished then. -/
inductive Scanned (d : Driver) (s : Scanner) (l : List OpTime) (p : Bytes) :
    Scanner × Option StreamErr → Prop
  | ok (s' : Scanner) (l' : List OpTime) (ok : Ok s') (seen : Seen s' (l ++ l'))
      (reads : ∀ q, Reader.readAll d (pending s ++ (p ++ q)) =
        (l' ++ (Reader.readAll d (pending s' ++ q)).1, (Reader.readAll d (pending s' ++ q)).2)) :
      Scanned d s l p (s', none)
  | failed (s' : Scanner) (l' : List OpTime) (e : StreamErr) (malformed : e.malformed = true)
      (seen : Seen s' (l ++ l'))
      (reads : ∀ q, Reader.readAll d (pending s ++ (p ++ q)) = (l', some e)) :
      Scanned d s l p (s', some e)

theorem turn_nil (hs : Ok s) : s.turn d [] = .done s := by
  have h4 := hs.prefixLen
  by_cases h : s.prefixN < 4
  · simp [Scanner.turn, Go.copied, Go.copyAt, h4, h]
  · have hn : s.prefixN = 4 := by have := hs.prefixN; omega
    rw [turn_doc [] (by omega)]
    simp [Scanner.fill, Go.copied, Go.copyAt, (hs.docN hn).2]

theorem scanLoop_nil (fuel : Nat) (s : Scanner) : s.scanLoop d fuel [] = (s, none) := by
  cases fuel <;> rfl

/-- A byte that completes no document leaves the loop where it would be without the byte. -/
theorem scanLoop_more {s' : Scanner} {b : UInt8} (fuel : Nat) (p : Bytes) (hs' : Ok s')
    (h : s.turn d (b :: p) = s'.turn d p) :
    s.scanLoop d (fuel + 1) (b :: p) = s'.scanLoop d (fuel + 1) p := by
  cases p with
  | nil =>
    rw [scanLoop_nil, Scanner.scanLoop, h, turn_nil hs']
    rfl
  | cons c p => simp only [Scanner.scanLoop, h, List.length_cons, Nat.succ_ne_zero, if_false]

theorem scanLoop_scanned {fuel : Nat} {p : Bytes} (hs : Ok s) (hl : Seen s l) (hp : p.length ≤ fuel) :
    Scanned d s l p (s.scanLoop d fuel p) := by
  induction p generalizing s l fuel with
  | nil =>
    rw [scanLoop_nil]
    exact .ok s [] hs (by simpa using hl) fun q => by simp
  | cons b p ih =>
    obtain ⟨fuel, rfl⟩ : ∃ n, fuel = n + 1 := ⟨fuel - 1, by simp at hp; omega⟩
    simp only [List.length_cons, Nat.add_le_add_iff_right] at hp
    cases byteStep (d := d) hs hl b with
    | more s' ok seen pending_eq turn_eq =>
      rw [scanLoop_more fuel p ok (turn_eq p)]
      have hreads (q : Bytes) : pending s ++ (b :: p ++ q) = pending s' ++ (p ++ q) := by
        rw [pending_eq]
        simp
      have hscan := ih ok seen (Nat.le_succ_of_le hp)
      generalize s'.scanLoop d (fuel + 1) p = r at hscan ⊢
      cases hscan with
      | ok s'' l' ok seen reads => exact .ok s'' l' ok seen fun q => by rw [hreads, reads]
      | failed s'' l' e malformed seen reads =>
        exact .failed s'' l' e malformed seen fun q => by rw [hreads, reads]
    | entry s' pos ok seen pending_eq reads turn_eq =>
      have hloop : s.scanLoop d (fuel + 1) (b :: p) = s'.scanLoop d fuel p := by
        rw [Scanner.scanLoop, turn_eq p]
        rfl
      rw [hloop]
      have hscan := ih ok seen hp
      generalize s'.scanLoop d fuel p = r at hscan ⊢
      cases hscan with
      | ok s'' l' ok seen reads' =>
        refine .ok s'' (pos :: l') ok (by simpa using seen) fun q => ?_
        have := reads' q
        rw [pending_eq, List.nil_append] at this
        rw [List.cons_append, reads, this]
        rfl
      | failed s'' l' e malformed seen reads' =>
        refine .failed s'' (pos :: l') e malformed (by simpa using seen) fun q => ?_
        have := reads' q
        rw [pending_eq, List.nil_append] at this
        rw [List.cons_append, reads, this]
    | failed s' e malformed seen reads turn_eq =>
      have hloop : s.scanLoop d (fuel + 1) (b :: p) = (s', some e) := by
        rw [Scanner.scanLoop, turn_eq p]
        rfl
      rw [hloop]
      exact .failed s' [] e malformed (by simpa using seen) fun q => reads _

/-! ## Any number of `Write` calls -/

/-- A pipe after `Write` calls with the bytes `s` in all: as long as none failed, it has passed `s` on
and the reader's work on what follows `s` is left; after a failure the reader's result is known. -/
inductive Written (d : Driver) (s : Bytes) (w : Pipe) : Prop
  | ok (l : List OpTime) (ok : Ok w.scanner) (seen : Seen w.scanner l) (out : w.out = s)
      (results : ∀ r ∈ w.results, r = none)
      (reads : ∀ q, Reader.readAll d (s ++ q) = (l ++ (Reader.readAll d (pending w.scanner ++ q)).1,
        (Reader.readAll d (pending w.scanner ++ q)).2))
  | failed (l : List OpTime) (e : StreamErr) (malformed : e.malformed = true)
      (err : w.scanner.err = some e) (seen : Seen w.scanner l) (result : some e ∈ w.results)
      (reads : ∀ q, Reader.readAll d (s ++ q) = (l, some e))

theorem Written.write {s : Bytes} {w : Pipe} (h : Written d s w) (p : Bytes) :
    Written d (s ++ p) (w.write d p) := by
  cases h with
  | ok l ok seen out results reads =>
    have hscan : Scanned d w.scanner l p (w.scanner.scan d p) :=
      scanLoop_scanned ok seen (Nat.le_refl _)
    unfold Pipe.write
    rw [ok.err]
    rcases hr : w.scanner.scan d p with ⟨s', _ | e⟩
    · rw [hr] at hscan
      cases hscan with
      | ok s' l' ok' seen' reads' =>
        refine .ok (l ++ l') ok' seen' (by simp [out]) ?_ fun q => ?_
        · intro r hmem
          simp only [List.mem_append, List.mem_singleton] at hmem
          exact hmem.elim (results r) id
        · rw [List.append_assoc, reads, reads', List.append_assoc]
    · rw [hr] at hscan
      cases hscan with
      | failed s' l' e malformed seen' reads' =>
        refine .failed (l ++ l') e malformed rfl ⟨seen'.count, seen'.first, seen'.last⟩ (by simp)
          fun q => ?_
        rw [List.append_assoc, reads, reads']
  | failed l e malformed err seen result reads =>
    unfold Pipe.write
    rw [err]
    exact .failed l e malformed err seen (by simp [result]) fun q => by
      rw [List.append_assoc, reads]

theorem Written.writes (ps : List Bytes) {s : Bytes} {w : Pipe} (h : Written d s w) :
    Written d (s ++ ps.flatten) (ps.foldl (Pipe.write d) w) := by
  induction ps generalizing s w with
  | nil => simpa using h
  | cons p ps ih =>
    have := ih (h.write p)
    rwa [List.append_assoc] at this

theorem written_nil : Written d [] {} :=
  .ok [] ⟨rfl, rfl, Nat.zero_le 4, fun h => (by cases h), fun h => (by cases h),
    fun h => (by cases h)⟩ ⟨rfl, rfl, rfl⟩ rfl (fun _ h => (by cases h)) fun _ => rfl

/-- **The scanner finds what the reader finds, however its bytes are cut into `Write` calls.** The
entries it has counted and the first and last of them are those of reading the bytes document by
document, `Finish` returns what ended the reading (nothing at `io.EOF`), some `Write` fails with
`ErrMalformed` exactly if the reading does, and without a failure the bytes were passed on unchanged. -/
theorem scanner_agrees_with_reader (d : Driver) (ps : List Bytes) :
    (Pipe.writes d ps).scanner.count = (Reader.readAll d ps.flatten).1.length ∧
    (Pipe.writes d ps).scanner.first = (Reader.readAll d ps.flatten).1.head?.getD {} ∧
    (Pipe.writes d ps).scanner.last = (Reader.readAll d ps.flatten).1.getLast?.getD {} ∧
    (Pipe.writes d ps).scanner.finish = (Reader.readAll d ps.flatten).2 ∧
    ((∃ e : StreamErr, some e ∈ (Pipe.writes d ps).results ∧ e.malformed = true) ↔
      ∃ e : StreamErr, (Reader.readAll d ps.flatten).2 = some e ∧ e.malformed = true) ∧
    ((∀ r ∈ (Pipe.writes d ps).results, r = none) → (Pipe.writes d ps).out = ps.flatten) := by
  have h : Written d ps.flatten (Pipe.writes d ps) := written_nil.writes ps
  cases h with
  | ok l ok seen out results reads =>
    have hread := reads []
    rw [List.append_nil, List.append_nil, readAll_pending ok, List.append_nil] at hread
    rw [hread]
    refine ⟨seen.count, seen.first, seen.last, ?_, ?_, fun _ => out⟩
    · rw [Scanner.finish, ok.err]
    · constructor
      · rintro ⟨e, he, -⟩
        cases results _ he
      · rintro ⟨e, he, hm⟩
        dsimp only at he
        split at he
        · cases he
          cases hm
        · cases he
  | failed l e malformed err seen result reads =>
    have hread := reads []
    rw [List.append_nil] at hread
    rw [hread]
    refine ⟨seen.count, seen.first, seen.last, ?_, ?_, fun hall => ?_⟩
    · rw [Scanner.finish, err]
    · exact ⟨fun _ => ⟨e, rfl, malformed⟩, fun _ => ⟨e, result, malformed⟩⟩
    · cases hall _ result

end MongoRescue.Oplog.Proof.Walk
