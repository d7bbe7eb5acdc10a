import MongoRescue.Lib.Utf8

/-!
# Searching in byte strings

The parts of Go's `strings` that look for bytes: slices (`slice`), the first and the last occurrence
of a byte (`indexByte`, `lastIndexByte`) and the first of a substring (`index`), with what they are at
a string whose occurrences are known.
-/

namespace Go

/-- The bytes of a text that is all ASCII. -/
def ascii (s : String) : Bytes := s.toList.map Char.toUInt8

/-- `s[i:j]`. -/
def slice (s : Bytes) (i j : Nat) : Bytes := (s.take j).drop i

/-- `strings.IndexByte`, none for -1. -/
def indexByte (s : Bytes) (c : UInt8) : Option Nat := s.findIdx? (· == c)

/-- `strings.LastIndexByte`, none for -1. -/
def lastIndexByte : Bytes → UInt8 → Option Nat
  | [], _ => none
  | b :: s, c =>
    match lastIndexByte s c with
    | some i => some (i + 1)
    | none => if b = c then some 0 else none

/-- `strings.Index` of a text that is not empty, none for -1. -/
def index (sub : Bytes) : Bytes → Option Nat
  | [] => none
  | b :: s => if sub.isPrefixOf (b :: s) then some 0 else (index sub s).map (· + 1)

def Rune.isSpace : Rune → Bool
  | .char c => Go.isSpace c
  | .invalid _ => false

/-- `strings.TrimSpace`, on any bytes. -/
def trimSpaceBytes (s : Bytes) : Bytes :=
  (((runes s).dropWhile Rune.isSpace).reverse.dropWhile Rune.isSpace).reverse.flatMap Rune.bytes

/-! ## Slices -/

variable {s t : Bytes} {i : Nat} {c : UInt8}

theorem slice_append_left {j : Nat} (h : j ≤ s.length) : slice (s ++ t) i j = slice s i j := by
  rw [slice, slice, List.take_append_of_le_length h]

theorem slice_length (s : Bytes) (i : Nat) : slice s i s.length = s.drop i := by
  rw [slice, List.take_length]

theorem slice_append_right (s t : Bytes) (i j : Nat) :
    slice (s ++ t) (s.length + i) (s.length + j) = slice t i j := by
  rw [slice, slice, List.take_length_add_append, List.drop_length_add_append]

/-- A slice that starts in the front part and ends in the back part. -/
theorem slice_across (h : i ≤ s.length) (j : Nat) :
    slice (s ++ t) i (s.length + j) = s.drop i ++ t.take j := by
  rw [slice, List.take_length_add_append, List.drop_append_of_le_length h]

theorem mem_slice {j : Nat} {b : UInt8} (h : b ∈ slice s i j) : b ∈ s.drop i := by
  rw [slice, List.drop_take] at h
  exact List.mem_of_mem_take h

/-! ## Occurrences -/

theorem indexByte_eq_none : indexByte s c = none ↔ c ∉ s := by
  rw [indexByte, List.findIdx?_eq_none_iff]
  constructor
  · intro h hc
    simpa using h c hc
  · intro h b hb
    rw [beq_eq_false_iff_ne]
    rintro rfl
    exact h hb

theorem indexByte_append_cons (h : c ∉ s) (t : Bytes) : indexByte (s ++ c :: t) c = some s.length := by
  rw [indexByte, List.findIdx?_append, ← indexByte, indexByte_eq_none.mpr h]
  simp [List.findIdx?_cons]

theorem lastIndexByte_eq_none : lastIndexByte s c = none ↔ c ∉ s := by
  induction s with
  | nil => simp [lastIndexByte]
  | cons b s ih =>
    rw [lastIndexByte]
    cases hs : lastIndexByte s c with
    | some i =>
      have : c ∈ s := by
        by_contra hc
        rw [ih.mpr hc] at hs
        cases hs
      simp [this]
    | none =>
      have := ih.mp hs
      by_cases hb : b = c
      · simp [hb]
      · simp [hb, this, Ne.symm hb]

theorem lastIndexByte_append_cons (s : Bytes) (h : c ∉ t) :
    lastIndexByte (s ++ c :: t) c = some s.length := by
  induction s with
  | nil => simp [lastIndexByte, lastIndexByte_eq_none.mpr h]
  | cons b s ih => simp [lastIndexByte, ih]

/-- No byte of a string meets a condition, by evaluation. -/
theorem none_of_all {p : UInt8 → Bool} (h : (s.all fun b => !p b) = true) : ∀ b ∈ s, p b = false := by
  intro b hb
  simpa using List.all_eq_true.mp h b hb

/-- Something that does not meet the condition ends the search for the first ones that do. -/
theorem takeWhile_append_cons {α : Type} {p : α → Bool} {c : α} (hc : p c = false) (s t : List α) :
    (s ++ c :: t).takeWhile p = s.takeWhile p := by
  rw [List.takeWhile_append]
  split_ifs with h
  · rw [List.takeWhile_cons_of_neg (by simp [hc]), List.append_nil]
    exact ((List.takeWhile_prefix _).eq_of_length h).symm
  · rfl

/-- A string with a byte in it, split at its last occurrence. -/
theorem exists_last (h : c ∈ s) : ∃ a b, s = a ++ c :: b ∧ c ∉ b := by
  obtain ⟨a, b, hab, ha⟩ := List.eq_append_cons_of_mem (List.mem_reverse.mpr h)
  refine ⟨b.reverse, a.reverse, ?_, by simpa using ha⟩
  rw [← List.reverse_reverse s, hab]
  simp

/-- The first occurrence of a substring whose first byte does not occur before. -/
theorem index_append (h : c ∉ s) (sub t : Bytes) :
    index (c :: sub) (s ++ c :: sub ++ t) = some s.length := by
  induction s with
  | nil =>
    rw [List.nil_append, List.cons_append, index, if_pos (by simp)]
    rfl
  | cons b s ih =>
    have hb : b ≠ c := fun hb => h (by simp [hb])
    rw [List.cons_append, List.cons_append, index,
      if_neg (by simp [List.isPrefixOf, Ne.symm hb]), ih fun hc => h (by simp [hc])]
    rfl

end Go
