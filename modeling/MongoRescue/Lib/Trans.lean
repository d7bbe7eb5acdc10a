import Mathlib.Logic.Relation

/-!
# Transition systems with partial steps

`Sys σ ε` is a system whose states are `σ` and whose events are `ε`; an event that is not enabled
has no step. `Sys.Reach M ok s`: some run reaches `s` whose every step `(t, e)` meets `ok t e`,
the condition under which a property is claimed (`Sys.Any` when there is none). Invariants are
proved with `Reach.inv`; concrete runs are evaluated by `Sys.exec` and turned into a `Reach` by
`Sys.reach_of_exec`.
-/

namespace Trans

structure Sys (σ ε : Type) where
  init : σ → Prop
  step : σ → ε → Option σ

namespace Sys

variable {σ ε : Type}

/-- No condition on the steps of a run. -/
def Any : σ → ε → Prop := fun _ _ => True

inductive Reach (M : Sys σ ε) (ok : σ → ε → Prop) : σ → Prop
  | init {s : σ} : M.init s → Reach M ok s
  | step {s s' : σ} {e : ε} : Reach M ok s → ok s e → M.step s e = some s' → Reach M ok s'

/-- Runs a list of events; `none` when one of them is not enabled. -/
def exec (M : Sys σ ε) (s : σ) : List ε → Option σ
  | [] => some s
  | e :: es => (M.step s e).bind fun s' => exec M s' es

/-- Every step of the run of a list of events meets `ok`. -/
def Along (M : Sys σ ε) (ok : σ → ε → Prop) (s : σ) : List ε → Prop
  | [] => True
  | e :: es => ok s e ∧ ∀ s', M.step s e = some s' → Along M ok s' es

variable {M : Sys σ ε} {ok ok' : σ → ε → Prop}

/-- **The invariant rule**: what holds initially and is kept by every step holds in every state
reached. -/
theorem Reach.inv {I : σ → Prop} (h0 : ∀ s, M.init s → I s)
    (hs : ∀ s e s', I s → ok s e → M.step s e = some s' → I s') {s : σ} (h : Reach M ok s) :
    I s := by
  induction h with
  | init hi => exact h0 _ hi
  | step _ hok hst ih => exact hs _ _ _ ih hok hst

/-- A concrete run whose steps meet the condition reaches its last state. -/
theorem reach_of_exec {s s' : σ} {es : List ε} (h : Reach M ok s) (ha : M.Along ok s es)
    (he : M.exec s es = some s') : Reach M ok s' := by
  induction es generalizing s with
  | nil =>
    cases he
    exact h
  | cons e es ih =>
    obtain ⟨hok, hrest⟩ := ha
    simp only [exec, Option.bind_eq_some_iff] at he
    obtain ⟨t, hst, he⟩ := he
    exact ih (.step h hok hst) (hrest t hst) he

/-- Events that meet the condition in every state. -/
theorem along_of_all {es : List ε} (h : ∀ e ∈ es, ∀ s, ok s e) (s : σ) : M.Along ok s es := by
  induction es generalizing s with
  | nil => trivial
  | cons e es ih =>
    exact ⟨h e List.mem_cons_self s, fun t _ => ih (fun e he => h e (List.mem_cons_of_mem _ he)) t⟩

/-- A condition on the events alone. -/
theorem along_of_forall {P : ε → Prop} {es : List ε} (h : ∀ e ∈ es, P e) (s : σ) :
    M.Along (fun _ e => P e) s es :=
  along_of_all (fun e he _ => h e he) s

/-- A concrete run, by evaluation: its last state meets a decidable test. -/
theorem exists_exec (s : σ) (es : List ε) (test : σ → Bool) (h : (M.exec s es).any test = true) :
    ∃ s', M.exec s es = some s' ∧ test s' = true := by
  simpa only [Option.any_eq_true] using h

/-- Every step of the run of a list of events meets a test. -/
def meets (M : Sys σ ε) (test : σ → ε → Bool) (s : σ) : List ε → Bool
  | [] => true
  | e :: es => test s e && (M.step s e).all fun s' => meets M test s' es

/-- A concrete run meets the condition, by evaluation of a test that implies it. -/
theorem along_of_meets (test : σ → ε → Bool) (ht : ∀ s e, test s e = true → ok s e) {s : σ}
    {es : List ε} (h : M.meets test s es = true) : M.Along ok s es := by
  induction es generalizing s with
  | nil => trivial
  | cons e es ih =>
    simp only [meets, Bool.and_eq_true] at h
    refine ⟨ht s e h.1, fun s' hs => ih ?_⟩
    have hall := h.2
    rw [hs] at hall
    exact hall

theorem along_any (s : σ) (es : List ε) : M.Along Any s es :=
  along_of_forall (P := fun _ => True) (fun _ _ => trivial) s

end Sys

end Trans
