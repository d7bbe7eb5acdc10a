import Mathlib.Tactic.Tauto

/-!
# One element of a list among the others

A table of processes is a list in which one element changes at a time: the element at an index with
what is before and after it (`exists_of_getElem?`), and the others, which stay.
-/

namespace Lists

theorem getElem?_modify_self {α : Type} {xs : List α} {i : Nat} {x : α} (f : α → α)
    (h : xs[i]? = some x) : (xs.modify i f)[i]? = some (f x) := by
  rw [List.getElem?_modify, h]
  simp

theorem getElem?_modify_ne {α : Type} {xs : List α} {i j : Nat} (f : α → α) (h : i ≠ j) :
    (xs.modify i f)[j]? = xs[j]? := by
  rw [List.getElem?_modify]
  simp [h]

/-- The element at an index, with the others around it. -/
theorem exists_of_getElem? {α : Type} {xs : List α} {i : Nat} {x : α} (h : xs[i]? = some x)
    (f : α → α) : ∃ pre post, xs = pre ++ x :: post ∧ pre.length = i ∧
      xs.modify i f = pre ++ f x :: post := by
  induction xs generalizing i with
  | nil => cases h
  | cons y xs ih =>
    cases i with
    | zero =>
      cases h
      exact ⟨[], xs, rfl, rfl, rfl⟩
    | succ i =>
      obtain ⟨pre, post, hxs, hlen, hmod⟩ := ih h
      refine ⟨y :: pre, post, ?_, ?_, ?_⟩
      · rw [hxs, List.cons_append]
      · rw [List.length_cons, hlen]
      · rw [List.modify_succ_cons, hmod, List.cons_append]

theorem mem_middle {α : Type} {pre post : List α} {x y : α} :
    y ∈ pre ++ x :: post ↔ y = x ∨ y ∈ pre ++ post := by
  simp only [List.mem_append, List.mem_cons]
  tauto

end Lists
