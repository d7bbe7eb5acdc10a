import Mathlib.Data.List.Infix

/-!
# Wildcard patterns

A pattern over the symbols of the words it matches, with one symbol for any one symbol and one for any
run of them. `Glob` is what such a pattern means. `LitGlob` reads a run symbol that stands at a run
symbol of the word as that symbol and nothing else: what a matcher finds that compares symbols before it
looks for wildcards. It allows less (`LitGlob.glob`).

A greedy matcher walks through the pattern and the word in lockstep (`Lock`) and goes back to the last
run symbol only. `LitGlob.of_lock` is why that is enough: whatever an earlier run symbol could still
take, the pattern after a lockstep part matches the end of the word behind it as well.
-/

namespace Wildcard

section

variable {α : Type}

/-- The word can be split along the pattern. -/
inductive Glob (one run : α) : List α → List α → Prop
  | nil : Glob one run [] []
  | one {p w : List α} (a : α) : Glob one run p w → Glob one run (one :: p) (a :: w)
  | run {p w : List α} (taken : List α) : Glob one run p w → Glob one run (run :: p) (taken ++ w)
  | lit {p w : List α} {a : α} : a ≠ one → a ≠ run → Glob one run p w → Glob one run (a :: p) (a :: w)

/-- The word can be split along the pattern such that a run symbol at a run symbol takes just this. -/
inductive LitGlob (one run : α) : List α → List α → Prop
  | nil : LitGlob one run [] []
  | one {p w : List α} (a : α) : LitGlob one run p w → LitGlob one run (one :: p) (a :: w)
  | same {p w : List α} : LitGlob one run p w → LitGlob one run (run :: p) (run :: w)
  | run {p w : List α} (taken : List α) : (taken ++ w).head? ≠ some run → LitGlob one run p w →
      LitGlob one run (run :: p) (taken ++ w)
  | lit {p w : List α} {a : α} : a ≠ one → a ≠ run → LitGlob one run p w →
      LitGlob one run (a :: p) (a :: w)

/-- Every symbol of the pattern takes one symbol of the word. -/
inductive Lock (one : α) : List α → List α → Prop
  | nil : Lock one [] []
  | cons {p w : List α} {c a : α} : (c = one ∨ c = a) → Lock one p w → Lock one (c :: p) (a :: w)

variable {one run : α}

theorem LitGlob.glob {p w : List α} (h : LitGlob one run p w) : Glob one run p w := by
  induction h with
  | nil => exact .nil
  | one a _ ih => exact .one a ih
  | same _ ih => exact .run [run] ih
  | run taken _ _ ih => exact .run taken ih
  | lit h1 h2 _ ih => exact .lit h1 h2 ih

/-- Both readings agree on words without the run symbol. -/
theorem Glob.litGlob {p w : List α} (h : Glob one run p w) (hw : run ∉ w) : LitGlob one run p w := by
  induction h with
  | nil => exact .nil
  | one a _ ih => exact .one a (ih fun hr => hw (List.mem_cons_of_mem a hr))
  | run taken _ ih =>
    have hhead : (taken ++ _).head? ≠ some run := fun hr => hw (List.mem_of_head? hr)
    exact .run taken hhead (ih fun hr => hw (List.mem_append_right taken hr))
  | lit h1 h2 _ ih => exact .lit h1 h2 (ih fun hr => hw (List.mem_cons_of_mem _ hr))

theorem Lock.snoc {p w : List α} {c a : α} (h : Lock one p w) (hc : c = one ∨ c = a) :
    Lock one (p ++ [c]) (w ++ [a]) := by
  induction h with
  | nil => exact .cons hc .nil
  | cons hd _ ih => exact .cons hd ih

/-! ## One symbol of the pattern -/

theorem not_litGlob_nil_cons {a : α} {w : List α} : ¬ LitGlob one run [] (a :: w) := by
  intro h
  cases h

/-- A symbol that is no wildcard takes itself. -/
theorem litGlob_lit {c : α} {p w : List α} (h1 : c ≠ one) (h2 : c ≠ run)
    (h : LitGlob one run (c :: p) w) : ∃ t, w = c :: t ∧ LitGlob one run p t := by
  cases h with
  | one a _ => exact absurd rfl h1
  | same _ => exact absurd rfl h2
  | run taken _ _ => exact absurd rfl h2
  | lit _ _ h => exact ⟨_, rfl, h⟩

theorem litGlob_one {p w : List α} (hne : one ≠ run) (h : LitGlob one run (one :: p) w) :
    ∃ a t, w = a :: t ∧ LitGlob one run p t := by
  cases h with
  | one a h => exact ⟨a, _, rfl, h⟩
  | same _ => exact absurd rfl hne
  | run taken _ _ => exact absurd rfl hne
  | lit h1 _ _ => exact absurd rfl h1

/-- A run symbol takes the run symbol it stands at, or any run. -/
theorem litGlob_run {p w : List α} (hne : one ≠ run) (h : LitGlob one run (run :: p) w) :
    (∃ t, w = run :: t ∧ LitGlob one run p t) ∨
      (w.head? ≠ some run ∧ ∃ t, t <:+ w ∧ LitGlob one run p t) := by
  cases h with
  | one a _ => exact absurd rfl hne
  | same h => exact .inl ⟨_, rfl, h⟩
  | run taken hhead h => exact .inr ⟨hhead, _, List.suffix_append taken _, h⟩
  | lit _ h2 _ => exact absurd rfl h2

theorem litGlob_run_of_suffix {p w t : List α} (hhead : w.head? ≠ some run) (ht : t <:+ w)
    (h : LitGlob one run p t) : LitGlob one run (run :: p) w := by
  obtain ⟨taken, rfl⟩ := ht
  exact .run taken hhead h

theorem litGlob_run_iff {p w : List α} (hne : one ≠ run) (hhead : w.head? ≠ some run) :
    LitGlob one run (run :: p) w ↔ ∃ t, t <:+ w ∧ LitGlob one run p t := by
  constructor
  · intro h
    rcases litGlob_run hne h with ⟨t, rfl, _⟩ | ⟨_, h⟩
    · exact absurd rfl hhead
    · exact h
  · rintro ⟨t, ht, h⟩
    exact litGlob_run_of_suffix hhead ht h

/-- Where the symbols agree, both go one on. -/
theorem litGlob_cons_iff {c a : α} {p w : List α} (hne : one ≠ run) (hc : c = one ∨ c = a) :
    LitGlob one run (c :: p) (a :: w) ↔ LitGlob one run p w := by
  by_cases h1 : c = one
  · subst h1
    refine ⟨fun h => ?_, .one a⟩
    obtain ⟨_, _, heq, h⟩ := litGlob_one hne h
    cases heq
    exact h
  obtain rfl : c = a := hc.resolve_left h1
  by_cases h2 : c = run
  · subst h2
    refine ⟨fun h => ?_, .same⟩
    rcases litGlob_run hne h with ⟨_, heq, h⟩ | ⟨hhead, _⟩
    · cases heq
      exact h
    · exact absurd rfl hhead
  · refine ⟨fun h => ?_, .lit h1 h2⟩
    obtain ⟨_, heq, h⟩ := litGlob_lit h1 h2 h
    cases heq
    exact h

/-- Where the symbols differ and the pattern has no run symbol, nothing matches. -/
theorem not_litGlob_cons {c a : α} {p w : List α} (h1 : c ≠ one) (h2 : c ≠ run) (hc : c ≠ a) :
    ¬ LitGlob one run (c :: p) (a :: w) := by
  intro h
  obtain ⟨_, heq, _⟩ := litGlob_lit h1 h2 h
  cases heq
  exact hc rfl

theorem litGlob_nil_iff {p : List α} (hne : one ≠ run) :
    LitGlob one run p [] ↔ ∀ c ∈ p, c = run := by
  constructor
  · intro h
    generalize hw : ([] : List α) = w at h
    induction h with
    | nil => simp
    | one a _ _ => cases hw
    | same _ _ => cases hw
    | run taken _ _ ih =>
      obtain ⟨rfl, rfl⟩ := List.append_eq_nil_iff.mp hw.symm
      intro c hc
      rcases List.mem_cons.mp hc with rfl | hc
      · rfl
      · exact ih rfl c hc
    | lit _ _ _ _ => cases hw
  · intro h
    induction p with
    | nil => exact .nil
    | cons c p ih =>
      obtain rfl := h c List.mem_cons_self
      exact .run [] (by simp) (ih fun d hd => h d (List.mem_cons_of_mem _ hd))

/-! ## Only the last run symbol is taken back -/

theorem suffix_of_suffix_cons {a : α} {w t : List α} (h : t <:+ a :: w) (hne : t.head? ≠ some a) :
    t <:+ w := by
  rcases List.suffix_cons_iff.mp h with rfl | h
  · exact absurd rfl hne
  · exact h

theorem tail_suffix_of_suffix_cons {a b : α} {w t : List α} (h : b :: t <:+ a :: w) : t <:+ w := by
  rcases List.suffix_cons_iff.mp h with h | h
  · cases h
    exact List.suffix_refl _
  · exact (List.suffix_cons b t).trans h

/-- **If a pattern matches an end of a word that starts in lockstep with it, what comes after the
lockstep part matches an end of the rest.** -/
theorem LitGlob.of_lock {q x p w t : List α} (hne : one ≠ run) (hlock : Lock one q x)
    (ht : t <:+ x ++ w) (h : LitGlob one run (q ++ p) t) : ∃ u, u <:+ w ∧ LitGlob one run p u := by
  induction hlock generalizing t with
  | nil => exact ⟨t, ht, h⟩
  | @cons q x c a hc _ ih =>
    rw [List.cons_append] at h ht
    by_cases h1 : c = one
    · obtain ⟨b, u, rfl, hu⟩ := litGlob_one hne (h1 ▸ h)
      exact ih (tail_suffix_of_suffix_cons ht) hu
    by_cases h2 : c = run
    · obtain rfl : c = a := hc.resolve_left h1
      subst h2
      -- a run that is not the run symbol itself starts after it
      rcases litGlob_run hne h with ⟨u, rfl, hu⟩ | ⟨hhead, u, hsub, hu⟩
      · exact ih (tail_suffix_of_suffix_cons ht) hu
      · exact ih (hsub.trans (suffix_of_suffix_cons ht hhead)) hu
    · obtain ⟨u, rfl, hu⟩ := litGlob_lit h1 h2 h
      exact ih (tail_suffix_of_suffix_cons ht) hu

end

end Wildcard
