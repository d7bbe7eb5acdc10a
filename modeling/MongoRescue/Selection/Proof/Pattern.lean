import MongoRescue.Lib.Wildcard
import MongoRescue.Selection.Pattern

/-!
# What a database pattern matches

The loop of `MatchDatabasePattern` finds exactly the matches in which a `*` of the pattern that stands
at a `*` of the name takes that one character (`matchRunes_spec`): it compares the characters before it
looks for wildcards. The invariant is `Reached`, everything since the last `*` went in lockstep, and a
round keeps what can still be found (`Finds`): the rest of the pattern at the rest of the name, or the
pattern after the last `*` further on in the name. So a name is matched as the pattern says unless it
matches with a longer or shorter run at one of its own `*` only (`matchDatabasePattern_glob_iff`).
-/

namespace MongoRescue.Selection.Proof

open Go (Bytes)
open Wildcard (Lock LitGlob)

/-- The pattern, as people write it, matches the name. -/
abbrev Glob (pattern name : Bytes) : Prop :=
  Wildcard.Glob '?' '*' (toRunes pattern) (toRunes name)

/-- The same, with a `*` of the pattern at a `*` of the name read as that character. -/
abbrev GlobLit (pattern name : Bytes) : Prop :=
  LitGlob '?' '*' (toRunes pattern) (toRunes name)

@[simp] theorem toRunes_utf8 (cs : List Char) : toRunes (Go.utf8 cs) = cs := by
  rw [toRunes, Go.runes_utf8, List.map_map]
  exact List.map_id'' (fun _ => rfl) cs

theorem one_ne_run : '?' ≠ '*' := by decide

section

variable (p n : List Char)

/-- Where the loop stands: inside both, and in lockstep since the last star. -/
structure Reached (s : Cursor) : Prop where
  pi_le : s.pi ≤ p.length
  ni_le : s.ni ≤ n.length
  mark_le : s.mark ≤ s.ni
  star_lt : ∀ star, s.star = some star → star < p.length
  locked : ∀ star, s.star = some star → ∃ q x, Lock '?' q x ∧
    p.drop (star + 1) = q ++ p.drop s.pi ∧ n.drop s.mark = x ++ n.drop s.ni

/-- What the loop can still find. -/
def Finds (s : Cursor) : Prop :=
  LitGlob '?' '*' (p.drop s.pi) (n.drop s.ni) ∨
    ∃ star, s.star = some star ∧
      ∃ t, t <:+ n.drop (s.mark + 1) ∧ LitGlob '?' '*' (p.drop (star + 1)) t

/-- The rounds left: positions of `mark`, and of the pattern between two of them. -/
def left (s : Cursor) : Nat := (n.length - s.mark) * (p.length + 2) + (p.length - s.pi)

variable {p n}

/-! ## The three kinds of round -/

theorem drop_eq_cons {l : List Char} {i : Nat} {c : Char} (h : l[i]? = some c) :
    l.drop i = c :: l.drop (i + 1) := by
  obtain ⟨hi, rfl⟩ := List.getElem?_eq_some_iff.mp h
  exact List.drop_eq_getElem_cons hi

/-- A round compares, passes a star, or goes back to the last one. -/
theorem matchStep_cases {s : Cursor} (hn : s.ni < n.length) :
    (∃ c a, p.drop s.pi = c :: p.drop (s.pi + 1) ∧ n.drop s.ni = a :: n.drop (s.ni + 1) ∧
        (c = '?' ∨ c = a) ∧ matchStep p n s = some { s with pi := s.pi + 1, ni := s.ni + 1 }) ∨
      (∃ a, p.drop s.pi = '*' :: p.drop (s.pi + 1) ∧ n.drop s.ni = a :: n.drop (s.ni + 1) ∧
        a ≠ '*' ∧ matchStep p n s = some { s with star := some s.pi, mark := s.ni, pi := s.pi + 1 }) ∨
      (¬ LitGlob '?' '*' (p.drop s.pi) (n.drop s.ni) ∧ matchStep p n s = s.star.map fun star =>
        { s with pi := star + 1, mark := s.mark + 1, ni := s.mark + 1 }) := by
  obtain ⟨a, ha⟩ : ∃ a, n[s.ni]? = some a := ⟨_, List.getElem?_eq_getElem hn⟩
  have hna := drop_eq_cons ha
  rcases hc : p[s.pi]? with _ | c
  · have hp : ¬ s.pi < p.length := by
      rw [List.getElem?_eq_none_iff] at hc
      omega
    have hnil : p.drop s.pi = [] := List.drop_eq_nil_of_le (by omega)
    refine .inr (.inr ⟨?_, ?_⟩)
    · rw [hnil, hna]
      exact Wildcard.not_litGlob_nil_cons
    · rw [matchStep, if_neg (fun h => hp h.1), if_neg (fun h => hp h.1)]
      cases s.star <;> rfl
  have hp : s.pi < p.length := (List.getElem?_eq_some_iff.mp hc).1
  have hpc := drop_eq_cons hc
  by_cases heq : c = '?' ∨ c = a
  · refine .inl ⟨c, a, hpc, hna, heq, ?_⟩
    rw [matchStep, if_pos ⟨hp, by simpa [hc, ha] using heq⟩]
  have hne : ¬ (s.pi < p.length ∧ (p[s.pi]? = some '?' ∨ p[s.pi]? = n[s.ni]?)) := by
    rw [hc, ha, Option.some.injEq, Option.some.injEq]
    exact fun h => heq h.2
  rw [not_or] at heq
  by_cases hstar : c = '*'
  · subst hstar
    exact .inr (.inl ⟨a, hpc, hna, fun h => heq.2 h.symm, by
      rw [matchStep, if_neg hne, if_pos ⟨hp, hc⟩]⟩)
  · refine .inr (.inr ⟨?_, ?_⟩)
    · rw [hpc, hna]
      exact Wildcard.not_litGlob_cons heq.1 hstar heq.2
    · rw [matchStep, if_neg hne, if_neg (by simp [hc, hstar])]
      cases s.star <;> rfl

/-- In lockstep since the last star, what comes after it further back is found here as well. -/
theorem Reached.of_star {s : Cursor} (h : Reached p n s) {star : Nat} (hstar : s.star = some star)
    {t : List Char} (ht : t <:+ n.drop (s.mark + 1)) (hm : LitGlob '?' '*' (p.drop (star + 1)) t) :
    ∃ u, u <:+ n.drop s.ni ∧ LitGlob '?' '*' (p.drop s.pi) u := by
  obtain ⟨q, x, hlock, hq, hx⟩ := h.locked star hstar
  rw [hq] at hm
  refine LitGlob.of_lock one_ne_run hlock ?_ hm
  rw [← hx]
  have hsub : n.drop (s.mark + 1) <:+ n.drop s.mark := by
    rw [← List.drop_drop]
    exact List.drop_suffix 1 _
  exact ht.trans hsub

/-- The suffixes of a rest are the rest and those of what comes after its first character. -/
theorem exists_suffix_drop {l : List Char} {i : Nat} {P : List Char → Prop} :
    (∃ t, t <:+ l.drop i ∧ P t) ↔ P (l.drop i) ∨ ∃ t, t <:+ l.drop (i + 1) ∧ P t := by
  rw [← List.drop_drop]
  generalize l.drop i = m
  cases m with
  | nil => simp
  | cons a m => simp only [List.suffix_cons_iff, List.drop_succ_cons, List.drop_zero, or_and_right,
      exists_or, exists_eq_left]

/-! ## A round -/

theorem step_compare {s : Cursor} {c a : Char} (hp : p.drop s.pi = c :: p.drop (s.pi + 1))
    (hn : n.drop s.ni = a :: n.drop (s.ni + 1)) (hc : c = '?' ∨ c = a) (h : Reached p n s) :
    Reached p n { s with pi := s.pi + 1, ni := s.ni + 1 } ∧
      (Finds p n { s with pi := s.pi + 1, ni := s.ni + 1 } ↔ Finds p n s) := by
  have hpl : s.pi < p.length := by
    have := congrArg List.length hp
    simp only [List.length_drop, List.length_cons] at this
    omega
  have hnl : s.ni < n.length := by
    have := congrArg List.length hn
    simp only [List.length_drop, List.length_cons] at this
    omega
  refine ⟨⟨hpl, hnl, Nat.le_succ_of_le h.mark_le, h.star_lt, ?_⟩, ?_⟩
  · intro star hstar
    obtain ⟨q, x, hlock, hq, hx⟩ := h.locked star hstar
    refine ⟨q ++ [c], x ++ [a], hlock.snoc hc, ?_, ?_⟩
    · rw [hq, hp]
      simp
    · rw [hx, hn]
      simp
  · rw [Finds, Finds, hp, hn, Wildcard.litGlob_cons_iff one_ne_run hc]

theorem step_star {s : Cursor} {a : Char} (hp : p.drop s.pi = '*' :: p.drop (s.pi + 1))
    (hn : n.drop s.ni = a :: n.drop (s.ni + 1)) (ha : a ≠ '*') (h : Reached p n s) :
    Reached p n { s with star := some s.pi, mark := s.ni, pi := s.pi + 1 } ∧
      (Finds p n { s with star := some s.pi, mark := s.ni, pi := s.pi + 1 } ↔ Finds p n s) := by
  have hpl : s.pi < p.length := by
    have := congrArg List.length hp
    simp only [List.length_drop, List.length_cons] at this
    omega
  have hhead : (n.drop s.ni).head? ≠ some '*' := by
    rw [hn]
    simpa using ha
  have hrun := Wildcard.litGlob_run_iff (p := p.drop (s.pi + 1)) one_ne_run hhead
  refine ⟨⟨hpl, h.ni_le, le_rfl, ?_, ?_⟩, ?_⟩
  · intro star hstar
    cases hstar
    exact hpl
  · intro star hstar
    cases hstar
    exact ⟨[], [], .nil, rfl, rfl⟩
  · -- what the new star can take is all that can be found here, also from an earlier star
    have hnew : Finds p n { s with star := some s.pi, mark := s.ni, pi := s.pi + 1 } ↔
        LitGlob '?' '*' (p.drop s.pi) (n.drop s.ni) := by
      rw [hp, hrun, exists_suffix_drop, Finds]
      simp
    rw [hnew, Finds]
    constructor
    · exact .inl
    · rintro (hm | ⟨star, hstar, t, ht, hm⟩)
      · exact hm
      · obtain ⟨u, hu, hm⟩ := h.of_star hstar ht hm
        rw [hp] at hm ⊢
        rw [hrun]
        rcases Wildcard.litGlob_run one_ne_run hm with ⟨v, rfl, hv⟩ | ⟨-, v, hv, hm⟩
        · exact ⟨v, (List.suffix_cons _ v).trans hu, hv⟩
        · exact ⟨v, hv.trans hu, hm⟩

theorem step_back {s : Cursor} {star : Nat} (hnot : ¬ LitGlob '?' '*' (p.drop s.pi) (n.drop s.ni))
    (hni : s.ni < n.length) (hstar : s.star = some star) (h : Reached p n s) :
    Reached p n { s with pi := star + 1, mark := s.mark + 1, ni := s.mark + 1 } ∧
      (Finds p n { s with pi := star + 1, mark := s.mark + 1, ni := s.mark + 1 } ↔ Finds p n s) := by
  have hmark : s.mark + 1 ≤ n.length := by
    have := h.mark_le
    omega
  refine ⟨⟨h.star_lt star hstar, hmark, le_rfl, h.star_lt, ?_⟩, ?_⟩
  · intro star' hstar'
    obtain rfl : star = star' := Option.some.inj (hstar.symm.trans hstar')
    exact ⟨[], [], .nil, rfl, rfl⟩
  · rw [Finds, Finds, or_iff_right hnot]
    simp only [hstar, Option.some.injEq, exists_eq_left']
    rw [exists_suffix_drop (i := s.mark + 1)]

/-- Past the name, what is left of the pattern decides. -/
theorem finds_end {s : Cursor} (hni : ¬ s.ni < n.length) (h : Reached p n s) :
    Finds p n s ↔ (p.drop s.pi).dropWhile (· == '*') = [] := by
  have hnil : n.drop s.ni = [] := List.drop_eq_nil_of_le (by omega)
  have hhere : LitGlob '?' '*' (p.drop s.pi) [] ↔ (p.drop s.pi).dropWhile (· == '*') = [] := by
    rw [Wildcard.litGlob_nil_iff one_ne_run, List.dropWhile_eq_nil_iff]
    simp
  rw [Finds, hnil, ← hhere]
  constructor
  · rintro (hm | ⟨star, hstar, t, ht, hm⟩)
    · exact hm
    · obtain ⟨u, hu, hm⟩ := h.of_star hstar ht hm
      rw [hnil, List.suffix_nil] at hu
      exact hu ▸ hm
  · exact .inl

/-! ## The loop -/

/-- **With the rounds that are left the loop returns, and says whether there was anything to find.** -/
theorem matchLoop_spec {fuel : Nat} {s : Cursor} (h : Reached p n s) (hfuel : left p n s < fuel) :
    ∃ b, matchLoop p n fuel s = some b ∧ (b = true ↔ Finds p n s) := by
  induction fuel generalizing s with
  | zero => omega
  | succ fuel ih =>
    rw [matchLoop]
    by_cases hni : s.ni < n.length
    · rw [if_pos hni]
      have hmark := h.mark_le
      rcases matchStep_cases (p := p) hni with
        ⟨c, a, hp, hn, hc, hstep⟩ | ⟨a, hp, hn, ha, hstep⟩ | ⟨hnot, hstep⟩
      · obtain ⟨hr, hf⟩ := step_compare hp hn hc h
        rw [hstep]
        dsimp only
        rw [← hf]
        refine ih hr ?_
        have hpl := hr.pi_le
        simp only [left] at hfuel hpl ⊢
        omega
      · obtain ⟨hr, hf⟩ := step_star hp hn ha h
        rw [hstep]
        dsimp only
        rw [← hf]
        refine ih hr ?_
        have hpl := hr.pi_le
        have hmul := Nat.mul_le_mul_right (p.length + 2) (Nat.sub_le_sub_left hmark n.length)
        simp only [left] at hfuel hpl ⊢
        omega
      · rcases hstar : s.star with _ | star
        · rw [hstep, hstar]
          refine ⟨false, rfl, ?_⟩
          rw [Finds, or_iff_right hnot]
          simp [hstar]
        · obtain ⟨hr, hf⟩ := step_back hnot hni hstar h
          rw [hstep, hstar]
          dsimp only [Option.map_some]
          rw [← hstar, ← hf]
          refine ih hr ?_
          have hpl := hr.pi_le
          obtain ⟨k, hk⟩ : ∃ k, n.length - s.mark = k + 1 := ⟨n.length - s.mark - 1, by omega⟩
          have hk' : n.length - (s.mark + 1) = k := by omega
          simp only [left, hk, hk', Nat.succ_mul] at hfuel hpl ⊢
          omega
    · rw [if_neg hni]
      refine ⟨_, rfl, ?_⟩
      rw [finds_end hni h, beq_iff_eq]

end

theorem matchRunes_spec (p n : List Char) :
    ∃ b, matchRunes p n = some b ∧ (b = true ↔ LitGlob '?' '*' p n) := by
  have hstart : Reached p n { pi := 0, ni := 0, star := none, mark := 0 } :=
    ⟨Nat.zero_le _, Nat.zero_le _, le_rfl, by simp, by simp⟩
  have hrounds : left p n { pi := 0, ni := 0, star := none, mark := 0 } < matchRounds p n := by
    simp only [left, matchRounds, Nat.sub_zero]
    omega
  obtain ⟨b, hb, hiff⟩ := matchLoop_spec hstart hrounds
  refine ⟨b, hb, hiff.trans ?_⟩
  simp [Finds]

theorem matchDatabasePattern_iff {pattern name : Bytes} :
    matchDatabasePattern pattern name = true ↔ GlobLit pattern name := by
  obtain ⟨b, hb, hiff⟩ := matchRunes_spec (toRunes pattern) (toRunes name)
  rw [matchDatabasePattern, hb, GlobLit, ← hiff]
  simp

/-- For a name without a `*` the patterns mean what they say. -/
theorem matchDatabasePattern_iff_glob {pattern name : Bytes} (hname : '*' ∉ toRunes name) :
    matchDatabasePattern pattern name = true ↔ Glob pattern name := by
  rw [matchDatabasePattern_iff]
  exact ⟨LitGlob.glob, fun h => h.litGlob hname⟩

/-- **A pattern matches as it is read, unless the name matches it only with a `*` that stands at a `*` of
the name and takes another run than this character.** -/
theorem matchDatabasePattern_glob_iff (pattern name : Bytes) :
    (matchDatabasePattern pattern name = true ↔ Glob pattern name) ↔
      (Glob pattern name → GlobLit pattern name) := by
  rw [matchDatabasePattern_iff]
  exact ⟨fun h => h.mpr, fun h => ⟨LitGlob.glob, h⟩⟩

/-- The pattern `*` does not match the name `*a`. -/
theorem star_misses_star : ¬ (matchDatabasePattern (Go.utf8 ['*']) (Go.utf8 ['*', 'a']) = true ↔
      Glob (Go.utf8 ['*']) (Go.utf8 ['*', 'a'])) := by
  have hglob : Glob (Go.utf8 ['*']) (Go.utf8 ['*', 'a']) := by
    rw [Glob, toRunes_utf8, toRunes_utf8]
    exact .run ['*', 'a'] .nil
  have hmiss : matchDatabasePattern (Go.utf8 ['*']) (Go.utf8 ['*', 'a']) = false := by
    rw [matchDatabasePattern, toRunes_utf8, toRunes_utf8]
    decide
  rw [hmiss]
  exact fun h => Bool.false_ne_true (h.mpr hglob)

/-- Patterns never match system collections. -/
theorem matchCollectionPattern_iff {pattern name : Bytes} :
    matchCollectionPattern pattern name = true ↔
      ¬ Go.ascii "system." <+: name ∧ GlobLit pattern name := by
  rw [matchCollectionPattern, Bool.and_eq_true, matchDatabasePattern_iff, Bool.not_eq_true',
    Bool.eq_false_iff, ne_eq, List.isPrefixOf_iff_prefix]

end MongoRescue.Selection.Proof
