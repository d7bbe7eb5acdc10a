import Mathlib.Data.List.Basic

/-!
# Functions that return an error

A Go function with an error result is an `Except`: a check is `refuse`, and a block of checks returns a
value only if each of them passed (`bind_ok`, `forM_ok`).
-/

namespace Go

section

variable {ε α β : Type}

/-- `if bad { return e }`. -/
def refuse (bad : Prop) [Decidable bad] (e : ε) : Except ε Unit := if bad then .error e else .ok ()

theorem bind_ok {x : Except ε α} {f : α → Except ε β} {b : β} (h : x >>= f = .ok b) :
    ∃ a, x = .ok a ∧ f a = .ok b := by
  cases x with
  | error e => cases h
  | ok a => exact ⟨a, rfl, h⟩

@[simp] theorem refuse_eq_ok {bad : Prop} [Decidable bad] {e : ε} : refuse bad e = .ok () ↔ ¬ bad := by
  by_cases h : bad <;> simp [refuse, h]

theorem forM_ok {f : α → Except ε Unit} {l : List α} (h : l.forM f = .ok ()) :
    ∀ a ∈ l, f a = .ok () := by
  induction l with
  | nil => simp
  | cons a l ih =>
    obtain ⟨_, ha, h⟩ := bind_ok (x := f a) (f := fun _ => l.forM f) h
    intro b hb
    rcases List.mem_cons.mp hb with rfl | hb
    · exact ha
    · exact ih h b hb

end

end Go
