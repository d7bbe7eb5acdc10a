import MongoRescue.Redact.Proof.Mask

/-!
# The text that is written does not depend on a password

The matches of `schemePattern` on the two sides of the `@` are found separately (`findAll_append`). The
connection string that the password belongs to (`Holds`) is decided by the text before it
(`exists_holds`): every match up to the `@` lies inside it (`Holds.inside`), and what the matches after the
`@` decide does not depend on the password (`select_across`). So everything is written the same
(`render_front`, `render_across`), with the password masked (`uri_password`).
-/

namespace MongoRescue.Redact.Proof

open Go

/-! ## Matches -/

/-- A byte that can be in no match of `schemePattern`. -/
structure Breaks (c : UInt8) : Prop where
  scheme : isSchemeByte c = false
  notColon : c ≠ colon
  notSlash : c ≠ slash

variable {c : UInt8} {s a p user : Bytes} {m l : Nat × Nat} {ms : List (Nat × Nat)}

theorem Breaks.letter (h : Breaks c) : isLetter c = false := by
  have := h.scheme
  simp only [isSchemeByte, Bool.or_eq_false_iff] at this
  exact this.1.1

theorem breaks_atSign : Breaks atSign := ⟨by decide, by decide, by decide⟩

/-- A byte that is not glued to a connection string before it. -/
theorem breaks_of_not_glued (h : gluedToURI c = false) : Breaks c := by
  simp only [gluedToURI, Bool.or_eq_false_iff] at h
  obtain ⟨⟨hset, hdigit⟩, hletter⟩ := h
  have hsub : ∀ b ∈ ascii ":@/%.+-_", c ≠ b := by
    rintro b hb rfl
    rw [List.contains_iff_mem.mpr hb] at hset
    cases hset
  refine ⟨?_, hsub _ (by decide), hsub _ (by decide)⟩
  simp only [isSchemeByte, hletter, hdigit, Bool.false_or]
  rw [← Bool.not_eq_true, List.contains_iff_mem]
  intro hc
  have hsubset : ascii "+.-" ⊆ ascii ":@/%.+-_" := by simp [ascii]
  exact hsub c (hsubset hc) rfl

theorem colon_not_scheme : isSchemeByte colon = false := by decide

theorem schemeAt_spec {n : Nat} (h : schemeAt s = some n) :
    0 < n ∧ n ≤ s.length ∧ ∃ sch, s.take n = sch ++ schemeEnd ∧ colon ∉ sch := by
  cases s with
  | nil => cases h
  | cons c rest =>
    rw [schemeAt] at h
    split_ifs at h with hc
    cases h
    obtain ⟨hletter, hend⟩ := hc
    obtain ⟨tail, htail⟩ := List.isPrefixOf_iff_prefix.mp hend
    have hwhole : c :: rest = (c :: rest.takeWhile isSchemeByte ++ schemeEnd) ++ tail := by
      rw [List.append_assoc, htail, List.cons_append, List.takeWhile_append_dropWhile]
    have hlen : (c :: rest.takeWhile isSchemeByte ++ schemeEnd).length =
        1 + (rest.takeWhile isSchemeByte).length + 3 := by
      simp [schemeEnd]
      omega
    refine ⟨by omega, ?_, c :: rest.takeWhile isSchemeByte, ?_, ?_⟩
    · rw [← hlen, hwhole]
      exact (List.prefix_append _ _).length_le
    · rw [← hlen, hwhole, List.take_left]
    · intro hmem
      rcases List.mem_cons.mp hmem with rfl | hmem
      · exact absurd hletter (by decide)
      · have := List.mem_takeWhile_imp hmem
        rw [colon_not_scheme] at this
        cases this

theorem isPrefixOf_append_cons (hc : c ∉ schemeEnd) (s t : Bytes) :
    schemeEnd.isPrefixOf (s ++ c :: t) = schemeEnd.isPrefixOf s := by
  rw [Bool.eq_iff_iff, List.isPrefixOf_iff_prefix, List.isPrefixOf_iff_prefix]
  constructor
  · intro h
    by_cases hlen : schemeEnd.length ≤ s.length
    · exact List.prefix_of_prefix_length_le h (List.prefix_append _ _) hlen
    · -- the byte would lie in the match
      have : s ++ [c] <+: schemeEnd := by
        refine List.prefix_of_prefix_length_le ?_ h (by simp; omega)
        exact ⟨t, by simp⟩
      exact absurd (this.subset (by simp)) hc
  · intro h
    exact h.trans (List.prefix_append _ _)

theorem schemeAt_append (hc : Breaks c) (hs : s ≠ []) (t : Bytes) :
    schemeAt (s ++ c :: t) = schemeAt s := by
  have hend : c ∉ schemeEnd := by
    simp only [schemeEnd, List.mem_cons, List.not_mem_nil, or_false, not_or]
    exact ⟨hc.notColon, hc.notSlash, hc.notSlash⟩
  cases s with
  | nil => exact absurd rfl hs
  | cons b rest =>
    have htake := takeWhile_append_cons hc.scheme rest t
    have hdrop : (rest ++ c :: t).dropWhile isSchemeByte = rest.dropWhile isSchemeByte ++ c :: t := by
      refine (List.append_right_inj (rest.takeWhile isSchemeByte)).mp ?_
      rw [← List.append_assoc, List.takeWhile_append_dropWhile, ← htake,
        List.takeWhile_append_dropWhile]
    rw [List.cons_append, schemeAt, schemeAt, htake, hdrop, isPrefixOf_append_cons hend]

theorem schemeAt_breaks (hc : Breaks c) (t : Bytes) : schemeAt (c :: t) = none := by
  rw [schemeAt, if_neg (by simp [hc.letter])]

/-- **Matches on the two sides of such a byte are found separately.** -/
theorem findAll_append (hc : Breaks c) {skip : Nat} (hskip : skip ≤ s.length) (pos : Nat) (t : Bytes) :
    findAll pos skip (s ++ c :: t) = findAll pos skip s ++ findAll (pos + s.length + 1) 0 t := by
  induction s generalizing pos skip with
  | nil =>
    obtain rfl : skip = 0 := by simpa using hskip
    have hstep : findAll pos 0 (c :: t) = findAll (pos + 1) 0 t := by
      rw [findAll, schemeAt_breaks hc]
    exact hstep
  | cons b s ih =>
    have hpos : pos + (b :: s).length + 1 = pos + 1 + s.length + 1 := by
      rw [List.length_cons]
      omega
    cases skip with
    | succ skip =>
      rw [List.cons_append, findAll, findAll, ih (by simpa using hskip), hpos]
    | zero =>
      have hat := schemeAt_append hc (List.cons_ne_nil b s) t
      rw [List.cons_append] at hat ⊢
      rw [findAll, findAll, hat, hpos]
      cases hs : schemeAt (b :: s) with
      | none =>
        simp only
        rw [ih (by omega)]
      | some n =>
        have hn := (schemeAt_spec hs).2.1
        simp only [List.cons_append]
        rw [ih (by rw [List.length_cons] at hn; omega)]

/-- A match `n` bytes further on. -/
def shift (n : Nat) (m : Nat × Nat) : Nat × Nat := (n + m.1, n + m.2)

theorem findAll_shift (d pos skip : Nat) (s : Bytes) :
    findAll (d + pos) skip s = (findAll pos skip s).map (shift d) := by
  induction s generalizing pos skip with
  | nil => rfl
  | cons b s ih =>
    cases skip with
    | succ skip => rw [findAll, findAll, Nat.add_assoc, ih]
    | zero =>
      rw [findAll, findAll, Nat.add_assoc]
      cases schemeAt (b :: s) with
      | none => exact ih _ _
      | some n =>
        simp only [List.map_cons, shift]
        rw [ih, Nat.add_assoc]

/-- A match of the text is a scheme with its end. -/
structure Match (s : Bytes) (m : Nat × Nat) : Prop where
  lt : m.1 < m.2
  le : m.2 ≤ s.length
  scheme : ∃ sch, slice s m.1 m.2 = sch ++ schemeEnd ∧ colon ∉ sch

theorem findAll_spec {pos skip : Nat} (h : m ∈ findAll pos skip s) :
    pos + skip ≤ m.1 ∧ ∀ pre : Bytes, pre.length = pos → Match (pre ++ s) m := by
  induction s generalizing pos skip with
  | nil => cases skip <;> cases h
  | cons b s ih =>
    have hnext {k : Nat} (h : m ∈ findAll (pos + 1) k s) :
        pos + 1 + k ≤ m.1 ∧ ∀ pre : Bytes, pre.length = pos → Match (pre ++ b :: s) m := by
      refine ⟨(ih h).1, fun pre hpre => ?_⟩
      have := (ih h).2 (pre ++ [b]) (by simp [hpre])
      rwa [List.append_assoc] at this
    cases skip with
    | succ skip =>
      rw [findAll] at h
      have := hnext h
      exact ⟨by omega, this.2⟩
    | zero =>
      rw [findAll] at h
      cases hs : schemeAt (b :: s) with
      | none =>
        rw [hs] at h
        have := hnext h
        exact ⟨by omega, this.2⟩
      | some n =>
        rw [hs] at h
        rcases List.mem_cons.mp h with rfl | h
        · obtain ⟨hpos, hlen, sch, hsch, hcolon⟩ := schemeAt_spec hs
          refine ⟨by simp, fun pre hpre => ⟨by simpa using hpos, ?_, sch, ?_, hcolon⟩⟩
          · rw [List.length_append, hpre]
            simp only
            omega
          · have hslice := slice_append_right pre (b :: s) 0 n
            rw [Nat.add_zero, hpre, slice, slice, List.drop_zero, hsch] at hslice
            rw [slice]
            exact hslice
        · have := hnext h
          exact ⟨by omega, this.2⟩

/-! ## Selected matches -/

theorem select_append (s : Bytes) (last : Option (Nat × Nat)) (ms ms' : List (Nat × Nat)) :
    select s last (ms ++ ms') =
      select s last ms ++ select s ((select s last ms).getLast?.or last) ms' := by
  induction ms generalizing last with
  | nil => rfl
  | cons m ms ih =>
    rw [List.cons_append, select, select]
    split_ifs with h
    · exact ih last
    · rw [ih, List.cons_append, List.getLast?_cons]
      cases (select s (some m) ms).getLast? <;> rfl

theorem select_sublist (s : Bytes) (last : Option (Nat × Nat)) (ms : List (Nat × Nat)) :
    (select s last ms).Sublist ms := by
  induction ms generalizing last with
  | nil => exact List.Sublist.refl _
  | cons m ms ih =>
    rw [select]
    split_ifs
    · exact (ih last).cons m
    · exact (ih (some m)).cons_cons m

theorem select_inside (h : ∀ m ∈ ms, inside s l m = true) : select s (some l) ms = [] := by
  induction ms with
  | nil => rfl
  | cons m ms ih =>
    rw [select, if_pos (by simpa using h m (by simp))]
    exact ih fun m' hm' => h m' (by simp [hm'])

theorem select_congr {s' : Bytes} {last : Option (Nat × Nat)}
    (h : ∀ l m, m ∈ ms → inside s l m = inside s' l m) : select s last ms = select s' last ms := by
  induction ms generalizing last with
  | nil => rfl
  | cons m ms ih =>
    have hm : (last.any fun l => inside s l m) = last.any fun l => inside s' l m := by
      cases last with
      | none => rfl
      | some l => exact h l m (by simp)
    rw [select, select, hm, ih fun l m' hm' => h l m' (by simp [hm'])]
    rw [@ih (some m) fun l m' hm' => h l m' (by simp [hm'])]

/-- What decides on a match in the front part of a text lies in it. -/
theorem inside_front (hm : m.1 ≤ a.length) (ha : a ≠ []) (r : Bytes) (l : Nat × Nat) :
    inside (a ++ r) l m = inside a l m := by
  have hpos := List.length_pos_iff.mpr ha
  rw [inside, inside, slice_append_left hm, slice_append_left hm,
    List.getElem?_append_left (by omega)]

theorem inside_back (a b : Bytes) (l : Nat × Nat) (hm : 1 ≤ m.1) :
    inside (a ++ b) (shift a.length l) (shift a.length m) = inside b l m := by
  have hbyte : (a ++ b)[a.length + m.1 - 1]? = b[m.1 - 1]? := by
    rw [List.getElem?_append_right (by omega)]
    congr 1
    omega
  simp only [inside, shift]
  rw [slice_append_right, slice_append_right, hbyte]

theorem select_back (a b : Bytes) (l : Nat × Nat) (hms : ∀ m ∈ ms, 1 ≤ m.1) :
    select (a ++ b) (some (shift a.length l)) (ms.map (shift a.length)) =
      (select b (some l) ms).map (shift a.length) := by
  induction ms generalizing l with
  | nil => rfl
  | cons m ms ih =>
    have hrest : ∀ m ∈ ms, 1 ≤ m.1 := fun m hm => hms m (by simp [hm])
    rw [List.map_cons, select, select, Option.any_some, Option.any_some,
      inside_back a b l (hms m (by simp)), ih l hrest, ih m hrest]
    split_ifs <;> rfl

/-- The match that the connection string with the password belongs to: from it to the password there is
no space, and from its end no `@`. -/
structure Holds (a : Bytes) (l : Nat × Nat) : Prop where
  scheme : Match a l
  colon : colon ∈ a.drop l.2
  noSpace : ∀ b ∈ a.drop l.1, isSpace b = false
  noAt : atSign ∉ a.drop l.2

/-- A password: it has no `@` and no space. -/
structure Password (pw : Bytes) : Prop where
  noSpace : ∀ b ∈ pw, isSpace b = false
  noAt : atSign ∉ pw

namespace Holds

variable {a pw : Bytes} {l : Nat × Nat}

theorem append (h : Holds a l) (hpw : Password pw) : Holds (a ++ pw) l := by
  have hlt := h.scheme.lt
  have hle := h.scheme.le
  have h1 : (a ++ pw).drop l.1 = a.drop l.1 ++ pw := List.drop_append_of_le_length (by omega)
  have h2 : (a ++ pw).drop l.2 = a.drop l.2 ++ pw := List.drop_append_of_le_length hle
  refine ⟨⟨hlt, by rw [List.length_append]; omega, ?_⟩, ?_, ?_, ?_⟩
  · rw [slice_append_left hle]
    exact h.scheme.scheme
  · rw [h2]
    exact List.mem_append_left _ h.colon
  · rw [h1]
    intro b hb
    rcases List.mem_append.mp hb with hb | hb
    · exact h.noSpace b hb
    · exact hpw.noSpace b hb
  · rw [h2, List.mem_append, not_or]
    exact ⟨h.noAt, hpw.noAt⟩

/-- Every match up to the `@` lies inside the connection string. -/
theorem inside (h : Holds a l) (r : Bytes) {m : Nat × Nat} (hm : m.1 ≤ a.length) :
    Redact.inside (a ++ r) l m = true := by
  have hspace : (slice a l.1 m.1).any isSpace = false := by
    rw [List.any_eq_false]
    intro b hb
    rw [h.noSpace b (mem_slice hb)]
    exact Bool.false_ne_true
  have hat : (slice a l.2 m.1).contains atSign = false := by
    rw [← Bool.not_eq_true, List.contains_iff_mem]
    exact fun hc => h.noAt (mem_slice hc)
  rw [Redact.inside, slice_append_left hm, slice_append_left hm, hspace, hat]
  simp

end Holds

/-- Whether a match after the `@` starts a new connection string does not depend on the password. -/
theorem inside_across (hl : Holds a l) {pw : Bytes} (hpw : Password pw) (t : Bytes) (hm : 1 ≤ m.1) :
    inside (a ++ pw ++ atSign :: t) l (shift (a ++ pw).length m) =
      (!(t.take (m.1 - 1)).any isSpace && ((atSign :: t)[m.1 - 1]?).any gluedToURI) := by
  have h := hl.append hpw
  have hlt := h.scheme.lt
  have hle := h.scheme.le
  obtain ⟨i, hi⟩ : ∃ i, m.1 = i + 1 := ⟨m.1 - 1, by omega⟩
  have hspace : (slice (a ++ pw ++ atSign :: t) l.1 ((a ++ pw).length + m.1)).any isSpace =
      (t.take i).any isSpace := by
    have hfront : ((a ++ pw).drop l.1).any isSpace = false := by
      rw [List.any_eq_false]
      intro b hb
      rw [h.noSpace b hb]
      exact Bool.false_ne_true
    rw [slice_across (by omega), List.any_append, hfront, hi, List.take_succ_cons, List.any_cons]
    rfl
  have hat : (slice (a ++ pw ++ atSign :: t) l.2 ((a ++ pw).length + m.1)).contains atSign = true := by
    rw [slice_across hle, hi, List.take_succ_cons, List.contains_iff_mem]
    simp
  have hbyte : (a ++ pw ++ atSign :: t)[(a ++ pw).length + m.1 - 1]? = (atSign :: t)[m.1 - 1]? := by
    rw [List.getElem?_append_right (by omega)]
    congr 1
    omega
  simp only [inside, shift]
  rw [hspace, hat, hbyte, hi]
  simp

/-- The matches after the `@` that start a connection string do not depend on the password. -/
theorem select_across (hl : Holds a l) (t : Bytes) (hms : ∀ m ∈ ms, 1 ≤ m.1) :
    ∃ sel : List (Nat × Nat), sel.Sublist ms ∧ ∀ pw, Password pw →
      select (a ++ pw ++ atSign :: t) (some l) (ms.map (shift (a ++ pw).length)) =
        sel.map (shift (a ++ pw).length) := by
  induction ms with
  | nil => exact ⟨[], List.Sublist.refl _, fun _ _ => rfl⟩
  | cons m ms ih =>
    have hrest : ∀ m ∈ ms, 1 ≤ m.1 := fun m hm => hms m (by simp [hm])
    obtain ⟨sel, hsub, hsel⟩ := ih hrest
    have hm := hms m (by simp)
    cases hin : !(t.take (m.1 - 1)).any isSpace && ((atSign :: t)[m.1 - 1]?).any gluedToURI with
    | true =>
      refine ⟨sel, hsub.cons m, fun pw hpw => ?_⟩
      rw [List.map_cons, select, Option.any_some, inside_across hl hpw t hm, hin, if_pos rfl]
      exact hsel pw hpw
    | false =>
      refine ⟨m :: select (atSign :: t) (some m) ms, (select_sublist _ _ _).cons_cons m,
        fun pw hpw => ?_⟩
      rw [List.map_cons, select, Option.any_some, inside_across hl hpw t hm, hin, if_neg (by simp),
        select_back _ _ _ hrest, List.map_cons]

/-! ## What is written -/

theorem tokenEnd_le (s : Bytes) (m : Nat × Nat) (next : Nat) : tokenEnd s m next ≤ next := by
  rw [tokenEnd]
  cases hws : (slice s m.2 next).findIdx? isSpace with
  | none => exact Nat.le_refl _
  | some ws =>
    have hlt := (List.findIdx?_eq_some_iff_getElem.mp hws).1
    rw [slice, List.length_drop, List.length_take] at hlt
    simp only
    omega

theorem tokenEnd_back (a b : Bytes) (m : Nat × Nat) (next : Nat) :
    tokenEnd (a ++ b) (shift a.length m) (a.length + next) = a.length + tokenEnd b m next := by
  simp only [tokenEnd, shift]
  rw [slice_append_right]
  cases (slice b m.2 next).findIdx? isSpace with
  | none => rfl
  | some ws => exact Nat.add_assoc _ _ _

/-- The start of the next connection string, or the end of the text, of a text with more before it. -/
theorem next_back (a b : Bytes) (ms : List (Nat × Nat)) :
    (((ms.map (shift a.length)).head?.map Prod.fst).getD (a ++ b).length) =
      a.length + (ms.head?.map Prod.fst).getD b.length := by
  cases ms with
  | nil => exact List.length_append
  | cons m ms => rfl

theorem render_back (a b : Bytes) (prev : Nat) (ms : List (Nat × Nat)) :
    render (a ++ b) (a.length + prev) (ms.map (shift a.length)) = render b prev ms := by
  induction ms generalizing prev with
  | nil => exact List.drop_length_add_append _
  | cons m ms ih =>
    rw [List.map_cons, render, render]
    by_cases hprev : m.1 < prev
    · rw [if_pos (by simpa [shift] using hprev), if_pos hprev]
      exact ih prev
    · rw [if_neg (by simpa [shift] using hprev), if_neg hprev]
      simp only
      rw [next_back, tokenEnd_back, ih]
      simp only [shift]
      rw [slice_append_right, slice_append_right]

/-- The part of the text before the match that the password belongs to is written as it is without what
follows. -/
theorem render_front {r r' : Bytes} {ms' : List (Nat × Nat)} (hl : l.1 ≤ a.length)
    (hlast : ∀ prev ≤ l.1, render (a ++ r) prev (l :: ms) = render (a ++ r') prev (l :: ms'))
    {front : List (Nat × Nat)} (hfront : ∀ m ∈ front, m.1 ≤ a.length) {prev : Nat}
    (hprev : ∀ m, (front ++ [l]).head? = some m → prev ≤ m.1) :
    render (a ++ r) prev (front ++ l :: ms) = render (a ++ r') prev (front ++ l :: ms') := by
  induction front generalizing prev with
  | nil => exact hlast prev (hprev l rfl)
  | cons m front ih =>
    obtain ⟨next, hnext, hle⟩ : ∃ next, (front ++ [l]).head? = some next ∧ next.1 ≤ a.length := by
      cases front with
      | nil => exact ⟨l, rfl, hl⟩
      | cons m' front => exact ⟨m', rfl, hfront m' (by simp)⟩
    have hhead (ms₀ : List (Nat × Nat)) : (front ++ l :: ms₀).head? = some next := by
      cases front with
      | nil => exact hnext
      | cons m' front => exact hnext
    have hm := hfront m (by simp)
    have hge : ¬ m.1 < prev := by
      have := hprev m rfl
      omega
    rw [List.cons_append, List.cons_append, render, render, if_neg hge, if_neg hge]
    simp only [hhead, Option.map_some, Option.getD_some]
    have hend (r₀ : Bytes) : tokenEnd (a ++ r₀) m next.1 = tokenEnd a m next.1 := by
      rw [tokenEnd, tokenEnd, slice_append_left hle]
    have hfin := tokenEnd_le a m next.1
    rw [hend, hend, slice_append_left hm, slice_append_left hm, slice_append_left (by omega),
      slice_append_left (by omega), ih (fun m' hm' => hfront m' (by simp [hm']))]
    intro m' hm'
    rw [hnext] at hm'
    cases hm'
    exact hfin

/-- The connection string with the password is masked in one way. -/
theorem uri_password (hl : Holds a l) (t : Bytes) :
    ∃ out : Bytes, ∀ pw, uri ((a ++ pw).drop l.1 ++ atSign :: t) = out := by
  obtain ⟨sch, hsch, hcolon⟩ := hl.scheme.scheme
  obtain ⟨pre, rest, hrest, hpre⟩ := List.eq_append_cons_of_mem hl.colon
  obtain ⟨x, post, ht, hpost⟩ := exists_last (show atSign ∈ atSign :: t by simp)
  have hlt := hl.scheme.lt
  have hle := hl.scheme.le
  have hdrop : a.drop l.1 = sch ++ schemeEnd ++ (pre ++ colon :: rest) := by
    rw [← hsch, ← hrest, slice]
    conv_lhs => rw [← List.take_append_drop l.2 a]
    rw [List.drop_append_of_le_length (by rw [List.length_take]; omega)]
  refine ⟨maskQuerySecrets (sch ++ schemeEnd ++ (pre ++ colon :: mask ++ atSign :: post)),
    fun pw => ?_⟩
  have hbody : (a ++ pw).drop l.1 ++ atSign :: t =
      sch ++ schemeEnd ++ (pre ++ colon :: (rest ++ pw ++ x) ++ atSign :: post) := by
    rw [List.drop_append_of_le_length (by omega), hdrop, ht]
    simp
  rw [hbody, uri, maskUserinfo_eq hcolon hpre hpost]

/-- The connection string with the password ends after its `@`, at a place that the password does not
decide. -/
theorem tokenEnd_across (hl : Holds a l) {pw : Bytes} (hpw : Password pw) (t : Bytes) (next : Nat) :
    tokenEnd (a ++ pw ++ atSign :: t) l ((a ++ pw).length + (next + 1)) =
      (a ++ pw).length + (((t.take next).findIdx? isSpace).getD next + 1) := by
  have h := hl.append hpw
  have hlt := h.scheme.lt
  have hle := h.scheme.le
  have hfront : ((a ++ pw).drop l.2).findIdx? isSpace = none := by
    rw [List.findIdx?_eq_none_iff]
    intro b hb
    refine h.noSpace b ?_
    obtain ⟨k, hk⟩ : ∃ k, l.2 = l.1 + k := ⟨l.2 - l.1, by omega⟩
    rw [hk, ← List.drop_drop] at hb
    exact List.mem_of_mem_drop hb
  have hat : isSpace atSign = false := by decide
  rw [tokenEnd, slice_across hle, List.take_succ_cons, List.findIdx?_append, hfront,
    List.findIdx?_cons, hat]
  cases (t.take next).findIdx? isSpace with
  | none => rfl
  | some ws =>
    simp only [Bool.false_eq_true, if_false, Option.map_some, Option.none_or, List.length_drop,
      Option.getD_some]
    omega

/-- From the match that the password belongs to on, what is written does not depend on the password. -/
theorem render_across (hl : Holds a l) (t : Bytes) {sel : List (Nat × Nat)} (hsel : ∀ m ∈ sel, 1 ≤ m.1)
    {prev : Nat} (hprev : prev ≤ l.1) : ∃ out : Bytes, ∀ pw, Password pw →
      render (a ++ pw ++ atSign :: t) prev (l :: sel.map (shift (a ++ pw).length)) = out := by
  obtain ⟨next, hnext⟩ : ∃ next, (sel.head?.map Prod.fst).getD (atSign :: t).length = next + 1 := by
    cases sel with
    | nil => exact ⟨t.length, rfl⟩
    | cons m sel =>
      have := hsel m (by simp)
      exact ⟨m.1 - 1, by simp; omega⟩
  obtain ⟨out, hout⟩ := uri_password hl (t.take (((t.take next).findIdx? isSpace).getD next))
  refine ⟨slice a prev l.1 ++ out ++
    render (atSign :: t) (((t.take next).findIdx? isSpace).getD next + 1) sel, fun pw hpw => ?_⟩
  have hlt := hl.scheme.lt
  have hle := hl.scheme.le
  have hlen : (a ++ pw).length = a.length + pw.length := List.length_append
  rw [render, if_neg (by omega)]
  simp only
  rw [next_back, hnext, tokenEnd_across hl hpw, render_back, slice_across (by omega),
    List.take_succ_cons, hout, List.append_assoc a, slice_append_left (by omega)]

/-! ## The connection string in its text -/

def mongodb : Bytes := ascii "mongodb"

/-- The text before the connection string: it is empty, or its last byte is not glued to what
follows. -/
def Unglued (p : Bytes) : Prop := ∀ c ∈ p.getLast?, gluedToURI c = false

theorem findAll_unglued (hp : Unglued p) (r : Bytes) :
    findAll 0 0 (p ++ r) = findAll 0 0 p ++ findAll p.length 0 r := by
  rcases List.eq_nil_or_concat p with rfl | ⟨init, c, rfl⟩
  · rfl
  · rw [List.concat_eq_append] at hp ⊢
    have hc := breaks_of_not_glued (hp c (by simp))
    have h0 := Nat.zero_le init.length
    rw [List.append_assoc, List.singleton_append, findAll_append hc h0, findAll_append hc h0]
    simp [findAll]

theorem inside_unglued (hp : Unglued p) {e : Nat} (h : inside p l (p.length, e) = true) :
    (∀ b ∈ p.drop l.1, isSpace b = false) ∧ atSign ∉ p.drop l.2 := by
  have hglued : (p[p.length - 1]?).any gluedToURI = false := by
    rw [← List.getLast?_eq_getElem?]
    cases hlast : p.getLast? with
    | none => rfl
    | some c => exact hp c hlast
  rw [inside, slice_length, slice_length, hglued] at h
  simp only [Bool.and_eq_true, Bool.not_eq_true', List.any_eq_false, Bool.false_or] at h
  refine ⟨fun b hb => by simpa using h.1 b hb, fun hc => ?_⟩
  rw [List.contains_iff_mem.mpr hc] at h
  cases h.2

/-- The text up to the password. -/
def upToPassword (p user : Bytes) : Bytes := p ++ (mongodb ++ schemeEnd ++ user ++ [colon])

structure User (user : Bytes) : Prop where
  noSpace : ∀ b ∈ user, isSpace b = false
  noAt : atSign ∉ user

theorem user_front (hu : User user) :
    (∀ b ∈ mongodb ++ schemeEnd ++ user ++ [colon], isSpace b = false) ∧
      atSign ∉ mongodb ++ schemeEnd ++ user ++ [colon] := by
  have hscheme : (∀ b ∈ mongodb ++ schemeEnd, isSpace b = false) ∧ atSign ∉ mongodb ++ schemeEnd :=
    ⟨none_of_all (by decide), by decide⟩
  constructor
  · intro b hb
    rcases List.mem_append.mp hb with hb | hb
    · rcases List.mem_append.mp hb with hb | hb
      · exact hscheme.1 b hb
      · exact hu.noSpace b hb
    · rw [List.mem_singleton.mp hb]
      decide
  · intro hc
    rcases List.mem_append.mp hc with hc | hc
    · rcases List.mem_append.mp hc with hc | hc
      · exact hscheme.2 hc
      · exact hu.noAt hc
    · exact absurd (List.mem_singleton.mp hc) (by decide)

/-- A match in the text before, which no space and no `@` separate from the connection string, holds the
password. -/
theorem holds_before (hu : User user) (hl : Match p l) (hspace : ∀ b ∈ p.drop l.1, isSpace b = false)
    (hat : atSign ∉ p.drop l.2) : Holds (upToPassword p user) l := by
  have hlt := hl.lt
  have hle := hl.le
  have huser := user_front hu
  have h1 : (upToPassword p user).drop l.1 = p.drop l.1 ++ (mongodb ++ schemeEnd ++ user ++ [colon]) :=
    List.drop_append_of_le_length (by omega)
  have h2 : (upToPassword p user).drop l.2 = p.drop l.2 ++ (mongodb ++ schemeEnd ++ user ++ [colon]) :=
    List.drop_append_of_le_length hle
  refine ⟨⟨hlt, ?_, ?_⟩, ?_, ?_, ?_⟩
  · rw [upToPassword, List.length_append]
    omega
  · rw [upToPassword, slice_append_left hle]
    exact hl.scheme
  · rw [h2]
    simp
  · rw [h1]
    intro b hb
    rcases List.mem_append.mp hb with hb | hb
    · exact hspace b hb
    · exact huser.1 b hb
  · rw [h2, List.mem_append, not_or]
    exact ⟨hat, huser.2⟩

theorem holds_own (p : Bytes) (hu : User user) :
    Holds (upToPassword p user) (p.length, p.length + 10) := by
  have huser := user_front hu
  have hten : (mongodb ++ schemeEnd).length = 10 := rfl
  have hdrop : (upToPassword p user).drop (p.length + 10) = user ++ [colon] := by
    rw [upToPassword, List.drop_length_add_append, ← hten, List.append_assoc, List.drop_left]
  refine ⟨⟨by simp, ?_, mongodb, ?_, by decide⟩, ?_, ?_, ?_⟩
  · rw [upToPassword, List.length_append, List.length_append, List.length_append, hten]
    simp only
    omega
  · have h := slice_append_right p (mongodb ++ schemeEnd ++ user ++ [colon]) 0 10
    rw [Nat.add_zero] at h
    rw [upToPassword, h, slice, List.drop_zero, ← hten, List.append_assoc _ user, List.take_left]
  · rw [hdrop]
    simp
  · rw [upToPassword, List.drop_left]
    exact huser.1
  · rw [hdrop]
    intro hc
    rcases List.mem_append.mp hc with hc | hc
    · exact hu.noAt hc
    · exact absurd (List.mem_singleton.mp hc) (by decide)

theorem length_upToPassword (p user : Bytes) :
    (upToPassword p user).length = p.length + (10 + user.length + 1) := by
  have hten : (mongodb ++ schemeEnd).length = 10 := rfl
  rw [upToPassword, List.length_append, List.length_append, List.length_append, hten]
  rfl

/-- The matches of the whole text: those before the connection string, its own scheme, those in the user
and the password, and those after the `@`. -/
theorem findAll_whole (hp : Unglued p) (user pw t : Bytes) :
    ∃ inner : List (Nat × Nat), (∀ m ∈ inner, m.1 ≤ (upToPassword p user ++ pw).length) ∧
      findAll 0 0 (upToPassword p user ++ pw ++ atSign :: t) =
        findAll 0 0 p ++ (p.length, p.length + 10) ::
          (inner ++ (findAll 1 0 t).map (shift (upToPassword p user ++ pw).length)) := by
  have hlen : (upToPassword p user ++ pw).length =
      p.length + (mongodb ++ schemeEnd ++ (user ++ [colon] ++ pw)).length := by
    simp only [upToPassword, List.length_append]
    omega
  have hsplit : upToPassword p user ++ pw ++ atSign :: t =
      p ++ (mongodb ++ schemeEnd ++ (user ++ [colon] ++ pw) ++ atSign :: t) := by
    simp [upToPassword]
  have hown : findAll p.length 0 (mongodb ++ schemeEnd ++ (user ++ [colon] ++ pw)) =
      (p.length, p.length + 10) ::
        findAll (p.length + 1) 9 (mongodb ++ schemeEnd ++ (user ++ [colon] ++ pw)).tail := rfl
  refine ⟨findAll (p.length + 1) 9 (mongodb ++ schemeEnd ++ (user ++ [colon] ++ pw)).tail, ?_, ?_⟩
  · intro m hm
    have hmatch := (findAll_spec (hown ▸ List.mem_cons_of_mem _ hm)).2 p rfl
    have hlt := hmatch.lt
    have hle := hmatch.le
    rw [List.length_append, ← hlen] at hle
    omega
  · rw [hsplit, findAll_unglued hp, findAll_append breaks_atSign (Nat.zero_le _), hown, ← hlen,
      findAll_shift (upToPassword p user ++ pw).length 1 0 t]
    rfl

/-- **The connection string that the password belongs to**, which the text up to the password decides. -/
theorem exists_holds (hp : Unglued p) (hu : User user) :
    ∃ (front : List (Nat × Nat)) (l : Nat × Nat), Holds (upToPassword p user) l ∧
      (∀ m ∈ front, m.1 ≤ (upToPassword p user).length) ∧
      ∀ (r : Bytes) (inner ms : List (Nat × Nat)),
        (∀ m ∈ inner, inside (upToPassword p user ++ r) l m = true) →
        select (upToPassword p user ++ r) none
            (findAll 0 0 p ++ (p.length, p.length + 10) :: (inner ++ ms)) =
          front ++ l :: select (upToPassword p user ++ r) (some l) ms := by
  have hlen := length_upToPassword p user
  have hmem {m : Nat × Nat} (hm : m ∈ select p none (findAll 0 0 p)) : Match p m :=
    (findAll_spec ((select_sublist _ _ _).mem hm)).2 [] rfl
  -- what decides on the matches before the connection string lies before it
  have hbefore (r : Bytes) : select (upToPassword p user ++ r) none (findAll 0 0 p) =
      select p none (findAll 0 0 p) := by
    refine select_congr fun l m hm => ?_
    have hm' := (findAll_spec hm).2 [] rfl
    have hlt := hm'.lt
    have hle := hm'.le
    rw [List.nil_append] at hle
    rw [upToPassword, List.append_assoc]
    exact inside_front (by omega) (List.ne_nil_of_length_pos (by omega)) _ l
  have hinner {r : Bytes} {l : Nat × Nat} {inner : List (Nat × Nat)} (ms : List (Nat × Nat))
      (h : ∀ m ∈ inner, inside (upToPassword p user ++ r) l m = true) :
      select (upToPassword p user ++ r) (some l) (inner ++ ms) =
        select (upToPassword p user ++ r) (some l) ms := by
    rw [select_append, select_inside h]
    rfl
  rcases List.eq_nil_or_concat (select p none (findAll 0 0 p)) with hnil | ⟨front, l, hsel⟩
  · refine ⟨[], _, holds_own p hu, by simp, fun r inner ms h => ?_⟩
    rw [select_append, hbefore, hnil, List.nil_append, List.nil_append, select]
    simp only [List.getLast?_nil, Option.none_or, Option.any_none, Bool.false_eq_true, if_false]
    rw [hinner ms h]
  · rw [List.concat_eq_append] at hsel
    have hl : Match p l := hmem (by rw [hsel]; simp)
    have hlt := hl.lt
    have hle := hl.le
    have hne : p ≠ [] := List.ne_nil_of_length_pos (by omega)
    have hfront : ∀ m ∈ front ++ [l], m.1 ≤ (upToPassword p user).length := by
      intro m hm
      have h := hmem (hsel ▸ hm)
      have := h.lt
      have := h.le
      omega
    have hown (r : Bytes) : inside (upToPassword p user ++ r) l (p.length, p.length + 10) =
        inside p l (p.length, p.length + 10) := by
      rw [upToPassword, List.append_assoc]
      exact inside_front (Nat.le_refl _) hne _ l
    cases hin : inside p l (p.length, p.length + 10) with
    | true =>
      obtain ⟨hspace, hat⟩ := inside_unglued hp hin
      refine ⟨front, l, holds_before hu hl hspace hat, fun m hm => hfront m (by simp [hm]),
        fun r inner ms h => ?_⟩
      rw [select_append, hbefore, hsel, List.getLast?_concat, Option.some_or, select, Option.any_some,
        hown, hin, if_pos rfl, hinner ms h, List.append_assoc]
      rfl
    | false =>
      refine ⟨front ++ [l], _, holds_own p hu, hfront, fun r inner ms h => ?_⟩
      rw [select_append, hbefore, hsel, List.getLast?_concat, Option.some_or, select, Option.any_some,
        hown, hin, if_neg (by simp), hinner ms h]

/-- A text with a connection string with a password in it. -/
def withPassword (p user pw host s : Bytes) : Bytes :=
  p ++ ascii "mongodb://" ++ user ++ ascii ":" ++ pw ++ ascii "@" ++ host ++ s

/-- **`Text` writes the same for any two passwords**, whatever stands before and after the connection
string. -/
theorem text_of_password {p user pw pw' : Bytes} (hp : Unglued p) (hu : User user) (hpw : Password pw)
    (hpw' : Password pw') (host s : Bytes) :
    text (withPassword p user pw host s) = text (withPassword p user pw' host s) := by
  have hwhole (x : Bytes) : withPassword p user x host s =
      upToPassword p user ++ x ++ atSign :: (host ++ s) := by
    have h1 : ascii "mongodb://" = mongodb ++ schemeEnd := rfl
    have h2 : ascii ":" = [colon] := rfl
    have h3 : ascii "@" = [atSign] := rfl
    simp [withPassword, upToPassword, h1, h2, h3]
  rw [hwhole, hwhole]
  generalize host ++ s = t
  obtain ⟨front, l, hl, hfront, hselect⟩ := exists_holds hp hu
  have hafter : ∀ m ∈ findAll 1 0 t, 1 ≤ m.1 := fun m hm => (findAll_spec hm).1
  obtain ⟨sel, hsub, hsel⟩ := select_across hl t hafter
  have hpos : ∀ m ∈ sel, 1 ≤ m.1 := fun m hm => hafter m (hsub.mem hm)
  have htext {x : Bytes} (hx : Password x) : text (upToPassword p user ++ x ++ atSign :: t) =
      render (upToPassword p user ++ (x ++ atSign :: t)) 0
        (front ++ l :: sel.map (shift (upToPassword p user ++ x).length)) := by
    obtain ⟨inner, hinner, hall⟩ := findAll_whole hp user x t
    have hin : ∀ m ∈ inner, inside (upToPassword p user ++ (x ++ atSign :: t)) l m = true := by
      intro m hm
      rw [← List.append_assoc]
      exact (hl.append hx).inside (atSign :: t) (hinner m hm)
    have hne : (findAll 0 0 (upToPassword p user ++ x ++ atSign :: t)).isEmpty = false := by
      rw [hall]
      simp
    rw [text]
    simp only [hne, Bool.false_eq_true, if_false]
    rw [hall, List.append_assoc (upToPassword p user), hselect _ _ _ hin, ← List.append_assoc,
      hsel x hx]
  rw [htext hpw, htext hpw']
  refine render_front ?_ (fun prev hprev => ?_) hfront fun m hm => Nat.zero_le _
  · have hlt := hl.scheme.lt
    have hle := hl.scheme.le
    omega
  · obtain ⟨out, hout⟩ := render_across hl t hpos hprev
    rw [← List.append_assoc, ← List.append_assoc, hout pw hpw, hout pw' hpw']

/-- A password with a scheme in it, in a text with another connection string. -/
theorem text_of_password_scheme :
    text (withPassword (ascii "dial ") (ascii "u") (ascii "a/x://?y=&") (ascii "h") (ascii ", b://c:d@e")) =
      text (withPassword (ascii "dial ") (ascii "u") (ascii "z") (ascii "h") (ascii ", b://c:d@e")) :=
  text_of_password (by simp [Unglued, ascii]; decide) ⟨none_of_all (by decide), by decide⟩
    ⟨none_of_all (by decide), by decide⟩ ⟨none_of_all (by decide), by decide⟩ _ _

end MongoRescue.Redact.Proof
