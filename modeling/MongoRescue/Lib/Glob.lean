import Mathlib.Data.List.Basic

/-!
# Patterns with holes

A pattern is a list of symbols and named holes, and a hole takes any run of symbols, as short as the rest
of the pattern allows. `find` gives what the holes of a pattern took, `fill` puts it into the holes of
another pattern. The lemmas are about patterns of the shapes a reader writes: literal symbols
(`find_lits`), a hole at the end (`find_hole`), and a hole up to the first separator (`find_until`).
-/

namespace Glob

inductive Tok (α ν : Type)
  | lit (a : α)
  | hole (name : ν)
  deriving DecidableEq

section

variable {α ν : Type}

/-- The first hole takes one more symbol. -/
def longer (a : α) : List (ν × List α) → List (ν × List α)
  | [] => []
  | (name, run) :: found => (name, a :: run) :: found

/-- Tries the shortest run first. -/
def lazily (name : ν) (rest : List α → Option (List (ν × List α))) : List α → Option (List (ν × List α))
  | [] => (rest []).map ((name, []) :: ·)
  | a :: l =>
    match rest (a :: l) with
    | some found => some ((name, []) :: found)
    | none => (lazily name rest l).map (longer a)

/-- The pattern with its holes filled. -/
def fill (value : ν → List α) : List (Tok α ν) → List α
  | [] => []
  | .lit a :: ts => a :: fill value ts
  | .hole name :: ts => value name ++ fill value ts

/-- The symbols as a pattern. -/
def lits (l : List α) : List (Tok α ν) := l.map .lit

theorem fill_append {value : ν → List α} {ts us : List (Tok α ν)} :
    fill value (ts ++ us) = fill value ts ++ fill value us := by
  induction ts with
  | nil => rfl
  | cons t ts ih => cases t <;> simp [fill, ih]

theorem fill_lits {value : ν → List α} {xs : List α} : fill value (lits xs) = xs := by
  induction xs with
  | nil => rfl
  | cons x xs ih => simpa [lits, fill] using ih

/-- What comes before the first separator, and what comes after it. -/
theorem append_separator_inj {a : α} {xs ys l l' : List α} (hx : a ∉ xs) (hy : a ∉ ys)
    (h : xs ++ a :: l = ys ++ a :: l') : xs = ys ∧ l = l' := by
  induction xs generalizing ys with
  | nil =>
    cases ys with
    | nil => exact ⟨rfl, (List.cons.inj h).2⟩
    | cons y ys => exact absurd ((List.cons.inj h).1 ▸ List.mem_cons_self) hy
  | cons x xs ih =>
    cases ys with
    | nil => exact absurd ((List.cons.inj h).1.symm ▸ List.mem_cons_self) hx
    | cons y ys =>
      obtain ⟨hxy, h⟩ := List.cons.inj h
      obtain ⟨rfl, hl⟩ := ih (fun hm => hx (List.mem_cons_of_mem _ hm))
        (fun hm => hy (List.mem_cons_of_mem _ hm)) h
      exact ⟨by rw [hxy], hl⟩

end

/-! ## Matching -/

section Matching

variable {α ν : Type} [DecidableEq α]

/-- What the holes of a pattern take of a word, or `none` if the word does not match. -/
def find : List (Tok α ν) → List α → Option (List (ν × List α))
  | [], l => if l = [] then some [] else none
  | .lit _ :: _, [] => none
  | .lit a :: ts, b :: l => if a = b then find ts l else none
  | .hole name :: ts, l => lazily name (find ts) l

/-- The word matches the pattern. -/
def matchesWord (ts : List (Tok α ν)) (l : List α) : Bool := (find ts l).isSome

theorem find_lits {xs l : List α} {ts : List (Tok α ν)} :
    find (lits xs ++ ts) (xs ++ l) = find ts l := by
  induction xs with
  | nil => rfl
  | cons x xs ih => simpa [lits, find] using ih

/-- A word that matches starts with the symbols the pattern starts with. -/
theorem eq_append_of_find {xs l : List α} {ts : List (Tok α ν)} {found : List (ν × List α)}
    (h : find (lits xs ++ ts) l = some found) : ∃ rest, l = xs ++ rest ∧ find ts rest = some found := by
  induction xs generalizing l with
  | nil => exact ⟨l, rfl, h⟩
  | cons x xs ih =>
    cases l with
    | nil => cases h
    | cons b l =>
      simp only [lits, List.map_cons, List.cons_append, find] at h
      split at h
      · rename_i hx
        obtain ⟨rest, rfl, hr⟩ := ih h
        exact ⟨rest, by rw [hx, List.cons_append], hr⟩
      · cases h

/-- Symbols match themselves only. -/
theorem matchesWord_lits {xs l : List α} : matchesWord (lits xs : List (Tok α ν)) l = true ↔ l = xs := by
  constructor
  · intro h
    obtain ⟨found, hf⟩ := Option.isSome_iff_exists.mp h
    rw [← List.append_nil (lits xs)] at hf
    obtain ⟨rest, rfl, hr⟩ := eq_append_of_find hf
    by_cases hrest : rest = []
    · rw [hrest, List.append_nil]
    · simp [find, hrest] at hr
  · rintro rfl
    have h : find (lits l ++ []) (l ++ []) = find ([] : List (Tok α ν)) [] := find_lits
    rw [List.append_nil, List.append_nil] at h
    simp [matchesWord, h, find]

/-- A hole at the end takes all. -/
theorem find_hole {name : ν} {l : List α} : find [.hole name] l = some [(name, l)] := by
  rw [find]
  induction l with
  | nil => rfl
  | cons a l ih =>
    have hnone : find ([] : List (Tok α ν)) (a :: l) = none := rfl
    rw [lazily, hnone, ih]
    rfl

/-- A hole before a symbol takes what comes before its first occurrence, if the rest matches. -/
theorem find_until {name : ν} {a : α} {xs l : List α} {ts : List (Tok α ν)} {found : List (ν × List α)}
    (hxs : a ∉ xs) (h : find ts l = some found) :
    find (.hole name :: .lit a :: ts) (xs ++ a :: l) = some ((name, xs) :: found) := by
  rw [find]
  induction xs with
  | nil => simp [lazily, find, h]
  | cons x xs ih =>
    have hx : a ≠ x := fun heq => hxs (heq ▸ List.mem_cons_self)
    have ih := ih fun hmem => hxs (List.mem_cons_of_mem _ hmem)
    have hnone : find (.lit a :: ts) (x :: (xs ++ a :: l)) = none := by rw [find, if_neg hx]
    rw [List.cons_append, lazily, hnone, ih]
    rfl

end Matching

end Glob
