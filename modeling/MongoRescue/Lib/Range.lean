import Mathlib.Order.Lattice
import Mathlib.Data.List.Basic

/-!
# Runs of adjacent ranges

A range `(lo, hi]` over a linear order is the pair of its ends. `Linked a rs b`: the ranges `rs` lead
from `a` to `b`, each starting where the one before ends. Every position after `a` up to `b` is then in
exactly one of them (`Linked.existsUnique`).

`within incl a b` is the same range as a test, with or without its start. Over a list that is sorted by
a key, adjacent ranges concatenate (`filter_within_append`), and a contiguous part of the list that
reaches from `a` to `b` has all of the range (`filter_within_of_infix`).
-/

namespace Range

variable {α : Type} [LinearOrder α]

/-- `x` is in `(p.1, p.2]`. -/
def Holds (p : α × α) (x : α) : Prop := p.1 < x ∧ x ≤ p.2

inductive Linked : α → List (α × α) → α → Prop
  | nil (a : α) : Linked a [] a
  | cons {a m b : α} {rs : List (α × α)} : a ≤ m → Linked m rs b → Linked a ((a, m) :: rs) b

namespace Linked

variable {a b : α} {rs : List (α × α)}

/-- A run goes on with a range that starts where it ends. -/
theorem concat {c : α} (h : Linked a rs b) (hbc : b ≤ c) : Linked a (rs ++ [(b, c)]) c := by
  induction h with
  | nil a => exact .cons hbc (.nil c)
  | cons hle _ ih => exact .cons hle (ih hbc)

/-- A run ends where its last range does. -/
theorem end_eq (h : Linked a rs b) : b = (rs.getLast?.map (·.2)).getD a := by
  induction h with
  | nil a => rfl
  | @cons a m b rs hle hl ih =>
    cases rs with
    | nil =>
      cases hl
      rfl
    | cons p rs => rw [List.getLast?_cons_cons, ih, List.getLast?_cons, Option.map_some, Option.getD_some,
        Option.getD_some]

/-- Every range of a run starts at or after the run's start. -/
theorem start_le (h : Linked a rs b) {p : α × α} (hp : p ∈ rs) : a ≤ p.1 := by
  induction h with
  | nil a => cases hp
  | cons hle _ ih =>
    rcases List.mem_cons.mp hp with rfl | hp
    · exact le_rfl
    · exact le_trans hle (ih hp)

/-- Every position of a run is in exactly one of its ranges. -/
theorem existsUnique (h : Linked a rs b) {x : α} (h1 : a < x) (h2 : x ≤ b) :
    ∃! i : Nat, ∃ p, rs[i]? = some p ∧ Holds p x := by
  induction h with
  | nil a => exact absurd h1 (not_lt.mpr h2)
  | @cons a m b rs hle hl ih =>
    by_cases hx : x ≤ m
    · refine ⟨0, ⟨(a, m), rfl, h1, hx⟩, fun j hj => ?_⟩
      obtain ⟨p, hp, hlt, -⟩ := hj
      cases j with
      | zero => rfl
      | succ j =>
        rw [List.getElem?_cons_succ] at hp
        have := hl.start_le (List.mem_of_getElem? hp)
        exact absurd hlt (not_lt.mpr (le_trans hx this))
    · obtain ⟨i, hi, huniq⟩ := ih (not_le.mp hx) h2
      refine ⟨i + 1, by simpa using hi, fun j hj => ?_⟩
      obtain ⟨p, hp, hh⟩ := hj
      cases j with
      | zero =>
        rw [List.getElem?_cons_zero, Option.some.injEq] at hp
        subst hp
        exact absurd hh.2 hx
      | succ j => rw [huniq j ⟨p, by simpa using hp, hh⟩]

end Linked

/-! ## Ranges of a sorted list -/

/-- `x` is after `a`, or at `a` if `incl`, and up to `b`. -/
def within (incl : Bool) (a b x : α) : Bool := (if incl then a ≤ x else a < x) && x ≤ b

theorem within_le {incl : Bool} {a b x : α} (h : within incl a b x) : x ≤ b := by
  rw [within, Bool.and_eq_true, decide_eq_true_eq] at h
  exact h.2

theorem within_ge {incl : Bool} {a b x : α} (h : within incl a b x) : a ≤ x := by
  cases incl with
  | true => exact (by simpa [within] using h : a ≤ x ∧ x ≤ b).1
  | false => exact (by simpa [within] using h : a < x ∧ x ≤ b).1.le

theorem within_or {incl : Bool} {a m b x : α} (ham : a ≤ m) (hmb : m ≤ b) :
    within incl a b x = (within incl a m x || within false m b x) := by
  rw [Bool.eq_iff_iff]
  cases incl with
  | true => simp [within]; grind
  | false => simp [within]; grind

section Sorted

variable {β : Type} {f : β → α} {l : List β}

/-- The items selected by `p` and then those by `q`, when none of the first comes after one of the
second. -/
theorem filter_append_filter {p q : β → Bool} (h : l.Pairwise fun x y => q x → ¬ p y)
    (hd : ∀ x ∈ l, p x → ¬ q x) : l.filter p ++ l.filter q = l.filter fun x => p x || q x := by
  induction l with
  | nil => rfl
  | cons x l ih =>
    obtain ⟨hx, hl⟩ := List.pairwise_cons.mp h
    have ih := ih hl fun y hy => hd y (List.mem_cons_of_mem _ hy)
    by_cases hp : p x
    · have hq : q x = false := by simpa using hd x List.mem_cons_self hp
      rw [List.filter_cons_of_pos hp, List.filter_cons_of_neg (by simp [hq]),
        List.filter_cons_of_pos (by simp [hp]), List.cons_append, ih]
    · by_cases hq : q x
      · have hnil : l.filter p = [] := List.filter_eq_nil_iff.mpr fun y hy => hx y hy hq
        rw [List.filter_cons_of_neg hp, List.filter_cons_of_pos hq,
          List.filter_cons_of_pos (by simp [hq]), ← ih, hnil]
        rfl
      · rw [List.filter_cons_of_neg hp, List.filter_cons_of_neg hq,
          List.filter_cons_of_neg (by simp [hp, hq]), ih]

/-- A range up to `m` and the one from there to `b`. -/
theorem filter_within_append (hl : l.Pairwise fun x y => f x < f y) {incl : Bool} {a m b : α}
    (ham : a ≤ m) (hmb : m ≤ b) :
    l.filter (fun x => within incl a m (f x)) ++ l.filter (fun x => within false m b (f x)) =
      l.filter fun x => within incl a b (f x) := by
  have hlt : ∀ {x}, within false m b (f x) → m < f x := fun {x} hx => by
    simp only [within, Bool.and_eq_true] at hx
    simpa using hx.1
  rw [filter_append_filter]
  · exact List.filter_congr fun x _ => (within_or ham hmb).symm
  · refine hl.imp fun {x y} hxy hq hp => ?_
    exact absurd (lt_trans (hlt hq) hxy) (not_lt.mpr (within_le hp))
  · intro x _ hp hq
    exact absurd (hlt hq) (not_lt.mpr (within_le hp))

theorem filter_within_self (a : α) : l.filter (fun x => within false a a (f x)) = [] := by
  refine List.filter_eq_nil_iff.mpr fun x _ => ?_
  simp [within]

/-- Items after the end of a range do not add to it. -/
theorem filter_within_grow {l' : List β} (hl : (l ++ l').Pairwise fun x y => f x < f y)
    {incl : Bool} {a b : α} (hb : ∃ y ∈ l, f y = b) :
    (l ++ l').filter (fun x => within incl a b (f x)) = l.filter fun x => within incl a b (f x) := by
  obtain ⟨y, hy, rfl⟩ := hb
  have hnil : l'.filter (fun x => within incl a (f y) (f x)) = [] := by
    refine List.filter_eq_nil_iff.mpr fun x hx h => ?_
    exact absurd ((List.pairwise_append.mp hl).2.2 y hy x hx) (not_lt.mpr (within_le h))
  rw [List.filter_append, hnil, List.append_nil]

/-- A contiguous part of the list with both ends of a range has all of it. -/
theorem filter_within_of_infix {es : List β} (hl : l.Pairwise fun x y => f x < f y)
    (hes : es <:+: l) {incl : Bool} {a b : α} (ha : ∃ x ∈ es, f x = a) (hb : ∃ y ∈ es, f y = b) :
    l.filter (fun x => within incl a b (f x)) = es.filter fun x => within incl a b (f x) := by
  obtain ⟨pre, post, rfl⟩ := hes
  rw [filter_within_grow hl (by obtain ⟨y, hy, h⟩ := hb; exact ⟨y, List.mem_append_right _ hy, h⟩)]
  obtain ⟨x, hx, rfl⟩ := ha
  have hnil : pre.filter (fun z => within incl (f x) b (f z)) = [] := by
    refine List.filter_eq_nil_iff.mpr fun z hz h => ?_
    have := (List.pairwise_append.mp (List.pairwise_append.mp hl).1).2.2 z hz x hx
    exact absurd this (not_lt.mpr (within_ge h))
  rw [List.filter_append, hnil, List.nil_append]

end Sorted

end Range
