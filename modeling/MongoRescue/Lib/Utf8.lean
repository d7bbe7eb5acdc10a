import MongoRescue.Lib.Go

/-!
# Go strings as runes

A Go string is any sequence of bytes. Ranging over it gives its runes, and the bytes that are part of
none (`runes`); together they are the string again (`bytes_runes`), and the runes of an encoded text
are its characters (`runes_utf8`). An ASCII byte of an encoded text is one of its characters
(`utf8_eq_append_cons`).
-/

namespace Go

/-- The UTF-8 encoding of a text. -/
def utf8 (cs : List Char) : Bytes := cs.flatMap String.utf8EncodeChar

inductive Rune
  | char (c : Char)
  /-- A byte where no encoded character starts. -/
  | invalid (b : UInt8)
  deriving DecidableEq

def Rune.bytes : Rune → Bytes
  | .char c => String.utf8EncodeChar c
  | .invalid b => [b]

/-- `utf8.DecodeRuneInString`, none for a `RuneError` of one byte. -/
def decodeRune (s : Bytes) : Option Char := s.toByteArray.utf8DecodeChar? 0

/-- The runes after the first `k` bytes, which belong to a character that was decoded before. -/
def runesFrom : Nat → Bytes → List Rune
  | _, [] => []
  | k + 1, _ :: s => runesFrom k s
  | 0, b :: s =>
    match decodeRune (b :: s) with
    | some c => .char c :: runesFrom (c.utf8Size - 1) s
    | none => .invalid b :: runesFrom 0 s

def runes (s : Bytes) : List Rune := runesFrom 0 s

theorem decodeRune_append (c : Char) (s : Bytes) :
    decodeRune (String.utf8EncodeChar c ++ s) = some c := by
  rw [decodeRune, List.toByteArray_append]
  exact ByteArray.utf8DecodeChar?_utf8EncodeChar_append

theorem exists_of_decodeRune {s : Bytes} {c : Char} (h : decodeRune s = some c) :
    ∃ t, s = String.utf8EncodeChar c ++ t := by
  obtain ⟨l, hl⟩ := ByteArray.exists_of_utf8DecodeChar?_eq_some h
  refine ⟨l.data.toList, ?_⟩
  have := congrArg (fun b => b.data.toList) hl
  simpa using this

theorem runesFrom_eq (k : Nat) (s : Bytes) : runesFrom k s = runes (s.drop k) := by
  induction s generalizing k with
  | nil => cases k <;> rfl
  | cons b s ih =>
    cases k with
    | zero => rfl
    | succ k => exact ih k

@[simp] theorem runes_nil : runes [] = [] := rfl

theorem runes_char_append (c : Char) (s : Bytes) :
    runes (String.utf8EncodeChar c ++ s) = .char c :: runes s := by
  have hlen := String.length_utf8EncodeChar c
  have hpos := c.utf8Size_pos
  cases he : String.utf8EncodeChar c with
  | nil => simp [he] at hlen; omega
  | cons b bs =>
    have hdec := decodeRune_append c s
    rw [he, List.length_cons] at hlen
    rw [he, List.cons_append] at hdec
    rw [List.cons_append, runes, runesFrom, hdec]
    simp only [runesFrom_eq]
    rw [show c.utf8Size - 1 = bs.length by omega, List.drop_left]

/-- A byte where no character starts stands for itself. -/
theorem runes_invalid_cons {b : UInt8} {s : Bytes} (h : decodeRune (b :: s) = none) :
    runes (b :: s) = .invalid b :: runes s := by
  rw [runes, runesFrom, h]
  rfl

@[simp] theorem runes_utf8 (cs : List Char) : runes (utf8 cs) = cs.map .char := by
  induction cs with
  | nil => rfl
  | cons c cs ih => rw [utf8, List.flatMap_cons, runes_char_append, ← utf8, ih, List.map_cons]

theorem utf8_injective {cs cs' : List Char} (h : utf8 cs = utf8 cs') : cs = cs' := by
  have := congrArg runes h
  rw [runes_utf8, runes_utf8] at this
  exact List.map_injective_iff.mpr (fun _ _ h => by cases h; rfl) this

@[simp] theorem utf8_append (cs cs' : List Char) : utf8 (cs ++ cs') = utf8 cs ++ utf8 cs' :=
  List.flatMap_append

/-- A string is made of its runes. -/
@[simp] theorem bytes_runes (s : Bytes) : (runes s).flatMap Rune.bytes = s := by
  induction hn : s.length using Nat.strong_induction_on generalizing s with
  | _ n ih =>
    cases s with
    | nil => rfl
    | cons b s =>
      cases hdec : decodeRune (b :: s) with
      | none =>
        rw [runes_invalid_cons hdec, List.flatMap_cons, ih s.length (by simp at hn; omega) s rfl]
        rfl
      | some c =>
        obtain ⟨t, ht⟩ := exists_of_decodeRune hdec
        have hlen := congrArg List.length ht
        have hpos := c.utf8Size_pos
        rw [List.length_append, String.length_utf8EncodeChar, hn] at hlen
        rw [ht, runes_char_append, List.flatMap_cons, ih t.length (by omega) t rfl]
        rfl

theorem runes_injective {s t : Bytes} (h : runes s = runes t) : s = t := by
  rw [← bytes_runes s, h, bytes_runes]

/-! ## ASCII -/

/-- A character is one ASCII byte, or has none. -/
theorem utf8EncodeChar_cases (c : Char) :
    (c.toNat < 128 ∧ String.utf8EncodeChar c = [UInt8.ofNat c.toNat]) ∨
      (128 ≤ c.toNat ∧ ∀ b ∈ String.utf8EncodeChar c, 128 ≤ b.toNat) := by
  have hv : c.val.toNat = c.toNat := rfl
  by_cases h : c.toNat < 128
  · exact .inl ⟨h, by rw [String.utf8EncodeChar]; simp only [hv]; rw [if_pos (by omega)]⟩
  · refine .inr ⟨by omega, ?_⟩
    rw [String.utf8EncodeChar]
    simp only [hv]
    rw [if_neg (by omega)]
    split_ifs
    all_goals
      intro b hb
      simp only [List.mem_cons, List.not_mem_nil, or_false] at hb
      rcases hb with rfl | rfl | rfl | rfl <;> rw [UInt8.toNat_ofNat'] <;> omega

/-- An ASCII byte of an encoded text is a character of it. -/
theorem utf8_eq_append_cons {cs : List Char} {s t : Bytes} {b : UInt8} (hb : b.toNat < 128)
    (h : utf8 cs = s ++ b :: t) :
    ∃ cs₁ cs₂, cs = cs₁ ++ Char.ofNat b.toNat :: cs₂ ∧ utf8 cs₁ = s ∧ utf8 cs₂ = t := by
  induction cs generalizing s with
  | nil => simp [utf8] at h
  | cons c cs ih =>
    have hmore {s' : Bytes} (hs : s = String.utf8EncodeChar c ++ s') (h' : utf8 cs = s' ++ b :: t) :
        ∃ cs₁ cs₂, c :: cs = cs₁ ++ Char.ofNat b.toNat :: cs₂ ∧ utf8 cs₁ = s ∧ utf8 cs₂ = t := by
      obtain ⟨cs₁, cs₂, rfl, rfl, rfl⟩ := ih h'
      exact ⟨c :: cs₁, cs₂, rfl, hs.symm, rfl⟩
    rw [utf8, List.flatMap_cons, ← utf8] at h
    rcases List.append_eq_append_iff.mp h with ⟨s', hs, h'⟩ | ⟨r, hr, h'⟩
    · exact hmore hs h'
    · cases r with
      | nil => exact @hmore [] (by simpa using hr.symm) (by simpa using h'.symm)
      | cons b' r =>
        -- the byte lies in the encoding of this character
        rw [List.cons_append, List.cons.injEq] at h'
        obtain ⟨rfl, ht⟩ := h'
        rcases utf8EncodeChar_cases c with ⟨hc, henc⟩ | ⟨-, hbig⟩
        · rw [henc] at hr
          cases s with
          | nil =>
            cases hr
            refine ⟨[], cs, ?_, rfl, ht.symm⟩
            rw [UInt8.toNat_ofNat', Nat.mod_eq_of_lt (by omega), Char.ofNat_toNat]
            rfl
          | cons x s => cases s <;> cases hr
        · have := hbig b (by rw [hr]; simp)
          omega

/-! ## Valid strings -/

def Rune.char? : Rune → Option Char
  | .char c => some c
  | .invalid _ => none

/-- The characters of a string, none where `utf8.ValidString` is false. -/
def chars (s : Bytes) : Option (List Char) := (runes s).mapM Rune.char?

theorem chars_eq_some {s : Bytes} {cs : List Char} : chars s = some cs ↔ s = utf8 cs := by
  have hmap (rs : List Rune) (cs : List Char) :
      rs.mapM Rune.char? = some cs ↔ rs = cs.map Rune.char := by
    induction rs generalizing cs with
    | nil => cases cs <;> simp
    | cons r rs ih =>
      cases r with
      | char c =>
        rw [List.mapM_cons]
        cases cs with
        | nil => simp [Rune.char?, Option.bind_eq_some_iff]
        | cons d ds =>
          simp only [Rune.char?, Option.bind_eq_bind, Option.bind_some, Option.bind_eq_some_iff,
            Option.pure_def, Option.some.injEq, List.cons.injEq, List.map_cons, Rune.char.injEq]
          constructor
          · rintro ⟨as, has, rfl, rfl⟩
            exact ⟨rfl, (ih _).mp has⟩
          · rintro ⟨rfl, hrs⟩
            exact ⟨ds, (ih ds).mpr hrs, rfl, rfl⟩
      | invalid b => cases cs <;> simp [List.mapM_cons, Rune.char?]
  rw [chars, hmap]
  constructor
  · intro h
    refine runes_injective ?_
    rw [h, runes_utf8]
  · rintro rfl
    rw [runes_utf8]

end Go
