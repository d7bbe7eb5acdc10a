import Mathlib.Data.List.Sort

/-!
# Stable sorting

`List.insertionSort` keeps the order of elements that compare equal: if the list was ordered by `s`, the
sorted list is ordered by `r` and, among equals, by `s` (`insertionSort_stable`). What comes before an
element is what compares less, and what compares equal and stood before it (`insertionSort_split`). In a
list ordered by a strict order the elements before one of them are those that the order puts before it
(`before_eq_filter`), so their number says where it is (`mem_drop_iff`).
-/

namespace Stable

variable {α : Type} {r s : α → α → Prop} [DecidableRel r]

theorem orderedInsert_stable [Std.Total r] [IsTrans α r] {a : α} {l : List α} (ha : ∀ b ∈ l, s a b)
    (hl : l.Pairwise fun b c => r b c ∧ (r c b → s b c)) :
    (l.orderedInsert r a).Pairwise fun b c => r b c ∧ (r c b → s b c) := by
  induction l with
  | nil => exact List.pairwise_singleton _ _
  | cons b l ih =>
    obtain ⟨hb, hl⟩ := List.pairwise_cons.mp hl
    by_cases hab : r a b
    · rw [List.orderedInsert_cons_of_le r l hab]
      refine List.pairwise_cons.mpr ⟨fun c hc => ⟨?_, fun _ => ha c hc⟩, List.pairwise_cons.mpr ⟨hb, hl⟩⟩
      rcases List.mem_cons.mp hc with rfl | hc
      · exact hab
      · exact IsTrans.trans _ _ _ hab (hb c hc).1
    · rw [List.orderedInsert_of_not_le r l hab]
      refine List.pairwise_cons.mpr ⟨fun c hc => ?_, ih (fun c hc => ha c (List.mem_cons_of_mem _ hc)) hl⟩
      rcases (List.mem_orderedInsert r).mp hc with rfl | hc
      · exact ⟨(Std.Total.total _ _).resolve_left hab, fun h => absurd h hab⟩
      · exact hb c hc

/-- Equal elements keep the order `s` they had. -/
theorem insertionSort_stable [Std.Total r] [IsTrans α r] {l : List α} (h : l.Pairwise s) :
    (l.insertionSort r).Pairwise fun b c => r b c ∧ (r c b → s b c) := by
  induction l with
  | nil => exact List.Pairwise.nil
  | cons a l ih =>
    obtain ⟨ha, hl⟩ := List.pairwise_cons.mp h
    exact orderedInsert_stable (fun b hb => ha b ((List.mem_insertionSort r).mp hb)) (ih hl)

theorem orderedInsert_before {x b : α} (h : r x b) (first last : List α) :
    (first ++ b :: last).orderedInsert r x = first.orderedInsert r x ++ b :: last := by
  induction first with
  | nil => rw [List.nil_append, List.orderedInsert_cons_of_le r last h]; rfl
  | cons a first ih =>
    rw [List.cons_append]
    by_cases hxa : r x a
    · rw [List.orderedInsert_cons_of_le r _ hxa, List.orderedInsert_cons_of_le r _ hxa]; rfl
    · rw [List.orderedInsert_of_not_le r _ hxa, List.orderedInsert_of_not_le r _ hxa, ih]; rfl

theorem orderedInsert_after {x : α} {first : List α} (h : ∀ a ∈ first, ¬r x a) (last : List α) :
    (first ++ last).orderedInsert r x = first ++ last.orderedInsert r x := by
  induction first with
  | nil => rfl
  | cons a first ih =>
    rw [List.cons_append, List.orderedInsert_of_not_le r _ (h a List.mem_cons_self),
      ih fun c hc => h c (List.mem_cons_of_mem _ hc), List.cons_append]

/-- What stands before an element of the sorted list: what is less, and what is equal and came before. -/
theorem insertionSort_split [Std.Total r] [IsTrans α r] (pre post : List α) (b : α) :
    ∃ first last, (pre ++ b :: post).insertionSort r = first ++ b :: last ∧
      ∀ y, y ∈ first ↔ y ∈ pre ∧ r y b ∨ y ∈ post ∧ ¬r b y := by
  induction pre with
  | nil =>
    -- the sorted rest is cut where `b` is put
    have hcut : ∀ l : List α, l.Pairwise r → ∃ first last, l.orderedInsert r b = first ++ b :: last ∧
        ∀ y, y ∈ first ↔ y ∈ l ∧ ¬r b y := by
      intro l hl
      induction l with
      | nil => exact ⟨[], [], rfl, by simp⟩
      | cons a l ih =>
        obtain ⟨ha, hl⟩ := List.pairwise_cons.mp hl
        by_cases hba : r b a
        · have hall : ∀ c ∈ l, r b c := fun c hc => IsTrans.trans _ _ _ hba (ha c hc)
          exact ⟨[], a :: l, List.orderedInsert_cons_of_le r l hba, by simp_all⟩
        · obtain ⟨first, last, hsplit, hfirst⟩ := ih hl
          refine ⟨a :: first, last, by rw [List.orderedInsert_of_not_le r l hba, hsplit]; rfl, fun y => ?_⟩
          rw [List.mem_cons, hfirst, List.mem_cons]
          by_cases hy : y = a <;> simp [hy, hba]
    obtain ⟨first, last, hsplit, hfirst⟩ := hcut _ (List.pairwise_insertionSort r post)
    exact ⟨first, last, hsplit, fun y => by simp [hfirst]⟩
  | cons x pre ih =>
    obtain ⟨first, last, hsplit, hfirst⟩ := ih
    rw [List.cons_append, List.insertionSort_cons, hsplit]
    by_cases hxb : r x b
    · refine ⟨_, last, orderedInsert_before hxb first last, fun y => ?_⟩
      rw [List.mem_orderedInsert, hfirst, List.mem_cons]
      by_cases hy : y = x <;> simp [hy, hxb]
    · have hnot : ∀ a ∈ first ++ [b], ¬r x a := by
        intro a ha hxa
        rcases List.mem_append.mp ha with ha | ha
        · rcases (hfirst a).mp ha with ⟨-, hab⟩ | ⟨-, hba⟩
          · exact hxb (IsTrans.trans _ _ _ hxa hab)
          · exact hxb (IsTrans.trans _ _ _ hxa ((Std.Total.total a b).resolve_right hba))
        · exact hxb (List.mem_singleton.mp ha ▸ hxa)
      refine ⟨first, last.orderedInsert r x, ?_, fun y => ?_⟩
      · rw [List.append_cons, orderedInsert_after hnot, ← List.append_cons]
      · rw [hfirst, List.mem_cons]
        by_cases hy : y = x <;> simp [hy, hxb]

/-- In a list ordered by a strict order, the elements before `x` are those the order puts before it. -/
theorem before_eq_filter {t : α → α → Bool} (hasymm : ∀ a b, t a b = true → t b a = false)
    {pre post : List α} {x : α} (h : (pre ++ x :: post).Pairwise fun a b => t a b = true) :
    (pre ++ x :: post).filter (t · x) = pre := by
  obtain ⟨_, hx, hpre⟩ := List.pairwise_append.mp h
  have hpost := (List.pairwise_cons.mp hx).1
  have hirr : t x x = false := by
    by_contra hc
    exact hc (hasymm x x (by simpa using hc))
  rw [List.filter_append, List.filter_cons_of_neg (by simp [hirr])]
  rw [List.filter_eq_self.mpr fun a ha => hpre a ha x List.mem_cons_self,
    List.filter_eq_nil_iff.mpr fun a ha => by simp [hasymm x a (hpost a ha)], List.append_nil]

/-- An element is beyond the first `k` when the order puts `k` elements before it. -/
theorem mem_drop_iff {t : α → α → Bool} (hasymm : ∀ a b, t a b = true → t b a = false) {l : List α}
    (h : l.Pairwise fun a b => t a b = true) (k : Nat) {x : α} (hx : x ∈ l) :
    x ∈ l.drop k ↔ k ≤ (l.filter (t · x)).length := by
  have hirr : t x x = false := by
    by_contra hc
    exact hc (hasymm x x (by simpa using hc))
  obtain ⟨pre, post, rfl⟩ := List.append_of_mem hx
  rw [before_eq_filter hasymm h]
  constructor
  · intro hd
    by_contra hk
    obtain ⟨n, rfl⟩ : ∃ n, k = pre.length + (n + 1) := ⟨k - pre.length - 1, by omega⟩
    rw [List.drop_append, List.drop_eq_nil_of_le (by omega), Nat.add_sub_cancel_left, List.drop_succ_cons,
      List.nil_append] at hd
    have hself := (List.pairwise_cons.mp (List.pairwise_append.mp h).2.1).1 x (List.mem_of_mem_drop hd)
    exact absurd hself (by simp [hirr])
  · intro hk
    rw [List.drop_append_of_le_length hk]
    exact List.mem_append_right _ List.mem_cons_self

end Stable
