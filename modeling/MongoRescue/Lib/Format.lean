import MongoRescue.Lib.Glob
import MongoRescue.Lib.Go
import Mathlib.Data.Nat.Digits.Defs

/-!
# Decimal numbers and times are written unambiguously

The texts of `Go.padded` and `Go.rfc3339Nano` determine what they were made from: `digits_inj` for
numbers padded with zeros, `fraction_inj` for a fraction without its trailing zeros, `civil_inj` for
the calendar, and `rfc3339Nano_inj` for a whole time.
-/

namespace Go

/-! ## Lists of fields -/

/-- The last of several fields is what follows the last separator. -/
theorem append_last_inj {α : Type} {a : α} {xs ys l l' : List α} (hl : a ∉ l) (hl' : a ∉ l')
    (h : xs ++ a :: l = ys ++ a :: l') : xs = ys ∧ l = l' := by
  have hrev := congrArg List.reverse h
  simp only [List.reverse_append, List.reverse_cons, List.append_assoc, List.singleton_append]
    at hrev
  obtain ⟨h1, h2⟩ := Glob.append_separator_inj (by simpa using hl) (by simpa using hl') hrev
  exact ⟨List.reverse_injective h2, List.reverse_injective h1⟩

theorem dropTrailing_inj {α : Type} [DecidableEq α] {a : α} {l l' : List α}
    (hlen : l.length = l'.length)
    (h : (l.reverse.dropWhile (· = a)).reverse = (l'.reverse.dropWhile (· = a)).reverse) :
    l = l' := by
  have hsplit : ∀ m : List α, m.reverse =
      List.replicate (m.length - (m.reverse.dropWhile (· = a)).length) a ++
        m.reverse.dropWhile (· = a) := by
    intro m
    have htake : m.reverse.takeWhile (· = a) =
        List.replicate (m.reverse.takeWhile (· = a)).length a :=
      List.eq_replicate_of_mem fun b hb => by simpa using List.mem_takeWhile_imp hb
    have happ := List.takeWhile_append_dropWhile (p := fun b => decide (b = a)) (l := m.reverse)
    have hcount := congrArg List.length happ
    simp only [List.length_append, List.length_reverse] at hcount
    rw [show m.length - (m.reverse.dropWhile (· = a)).length =
      (m.reverse.takeWhile (· = a)).length by omega, ← htake, happ]
  have hdrop := List.reverse_injective h
  have := hsplit l
  rw [hdrop, hlen, ← hsplit l'] at this
  exact List.reverse_injective this

/-! ## Numbers -/

/-- The digits of `n`, padded with zeros to `width`. -/
def digits (width n : Nat) : List Char :=
  List.replicate (width - (Nat.toDigits 10 n).length) '0' ++ Nat.toDigits 10 n

@[simp] theorem ofDigitChars_digits (width n : Nat) : Nat.ofDigitChars 10 (digits width n) 0 = n := by
  rw [digits, Nat.ofDigitChars_append, Nat.ofDigitChars_replicate_zero, Nat.mul_zero,
    Nat.ofDigitChars_ten_toDigits]

theorem digits_inj {width n n' : Nat} (h : digits width n = digits width n') : n = n' := by
  rw [← ofDigitChars_digits width n, h, ofDigitChars_digits]

theorem isDigit_of_mem_digits {width n : Nat} {c : Char} (h : c ∈ digits width n) : c.isDigit := by
  rcases List.mem_append.mp h with h | h
  · rw [List.eq_of_mem_replicate h]
    decide
  · exact Nat.isDigit_of_mem_toDigits (by decide) (by decide) h

theorem digits_length {width n : Nat} (hw : 0 < width) (h : n < 10 ^ width) :
    (digits width n).length = width := by
  have := (Nat.length_toDigits_le_iff (b := 10) (by decide) hw).mpr h
  rw [digits, List.length_append, List.length_replicate]
  omega

theorem digit_value {c : Char} (h : c.isDigit = true) : c.toNat - '0'.toNat < 10 ∧ 48 ≤ c.toNat := by
  simp only [Char.isDigit, Bool.and_eq_true, decide_eq_true_eq] at h
  obtain ⟨h1, h2⟩ := h
  have h1' : 48 ≤ c.toNat := h1
  have h2' : c.toNat ≤ 57 := h2
  refine ⟨?_, h1'⟩
  change c.toNat - 48 < 10
  omega

theorem ofDigitChars_lt {cs : List Char} (h : ∀ c ∈ cs, c.isDigit = true) :
    Nat.ofDigitChars 10 cs 0 < 10 ^ cs.length := by
  induction cs with
  | nil => decide
  | cons c cs ih =>
    have hc := (digit_value (h c List.mem_cons_self)).1
    have hcs := ih fun d hd => h d (List.mem_cons_of_mem _ hd)
    rw [Nat.ofDigitChars_cons, Nat.ofDigitChars_eq_ofDigitChars_zero, List.length_cons, Nat.pow_succ]
    have hmul : 10 ^ cs.length * (10 * 0 + (c.toNat - '0'.toNat)) ≤ 10 ^ cs.length * 9 :=
      Nat.mul_le_mul_left _ (by omega)
    omega

/-- As many digits with the same value are the same digits. -/
theorem eq_of_ofDigitChars {cs cs' : List Char} (hlen : cs.length = cs'.length)
    (h : ∀ c ∈ cs, c.isDigit = true) (h' : ∀ c ∈ cs', c.isDigit = true)
    (hval : Nat.ofDigitChars 10 cs 0 = Nat.ofDigitChars 10 cs' 0) : cs = cs' := by
  induction cs generalizing cs' with
  | nil => exact (List.length_eq_zero_iff.mp hlen.symm).symm
  | cons c cs ih =>
    cases cs' with
    | nil => cases hlen
    | cons d ds =>
      have hl : cs.length = ds.length := Nat.succ.inj hlen
      have hcs : ∀ x ∈ cs, x.isDigit = true := fun x hx => h x (List.mem_cons_of_mem _ hx)
      have hds : ∀ x ∈ ds, x.isDigit = true := fun x hx => h' x (List.mem_cons_of_mem _ hx)
      have hlt := ofDigitChars_lt hcs
      have hlt' := ofDigitChars_lt hds
      have hc := (digit_value (h c List.mem_cons_self)).2
      have hd := (digit_value (h' d List.mem_cons_self)).2
      rw [Nat.ofDigitChars_cons, Nat.ofDigitChars_cons, Nat.ofDigitChars_eq_ofDigitChars_zero,
        Nat.ofDigitChars_eq_ofDigitChars_zero (l := ds), Nat.mul_zero, Nat.zero_add, Nat.zero_add, hl]
        at hval
      rw [hl] at hlt
      have hhead := congrArg (· / 10 ^ ds.length) hval
      have htail := congrArg (· % 10 ^ ds.length) hval
      have hpos : 0 < 10 ^ ds.length := Nat.pow_pos (by decide)
      simp only [Nat.mul_add_div hpos, Nat.mul_add_mod_self_left, Nat.div_eq_of_lt hlt,
        Nat.div_eq_of_lt hlt', Nat.mod_eq_of_lt hlt, Nat.mod_eq_of_lt hlt', Nat.add_zero] at hhead htail
      have heq : c.toNat = d.toNat := by
        change c.toNat - 48 = d.toNat - 48 at hhead
        omega
      rw [ih hl hcs hds htail, Char.toNat_inj.mp heq]

/-- Digits are those of their value. -/
theorem digits_ofDigitChars {cs : List Char} (hne : cs ≠ []) (h : ∀ c ∈ cs, c.isDigit = true) :
    digits cs.length (Nat.ofDigitChars 10 cs 0) = cs :=
  eq_of_ofDigitChars (digits_length (List.length_pos_iff.mpr hne) (ofDigitChars_lt h))
    (fun _ => isDigit_of_mem_digits) h (ofDigitChars_digits _ _)

/-- Fields of fixed widths beside each other write one number. -/
theorem digits_append {a b n m : Nat} (ha : 0 < a) (hb : 0 < b) (hn : n < 10 ^ a) (hm : m < 10 ^ b) :
    digits a n ++ digits b m = digits (a + b) (10 ^ b * n + m) := by
  have hlt : 10 ^ b * n + m < 10 ^ (a + b) := by
    have hmul := Nat.mul_le_mul_left (10 ^ b) (show n + 1 ≤ 10 ^ a from hn)
    rw [← Nat.pow_add, Nat.mul_add, Nat.mul_one, Nat.add_comm b a] at hmul
    omega
  refine eq_of_ofDigitChars ?_ (fun c hc => ?_) (fun _ => isDigit_of_mem_digits) ?_
  · rw [List.length_append, digits_length ha hn, digits_length hb hm, digits_length (by omega) hlt]
  · rcases List.mem_append.mp hc with hc | hc <;> exact isDigit_of_mem_digits hc
  · rw [Nat.ofDigitChars_append, Nat.ofDigitChars_eq_ofDigitChars_zero, ofDigitChars_digits,
      ofDigitChars_digits, ofDigitChars_digits, digits_length hb hm]

theorem toList_padded (width : Nat) (n : Int) :
    (padded width n).toList = (if n < 0 then ['-'] else []) ++ digits width n.natAbs := by
  have hlen : (toString n.natAbs).length = (Nat.toDigits 10 n.natAbs).length := by
    rw [Nat.toString_eq_ofList_toDigits, String.length_ofList]
  unfold padded digits
  rw [String.toList_append, String.toList_append, String.toList_ofList, hlen,
    Nat.toString_eq_ofList_toDigits, String.toList_ofList, List.append_assoc]
  congr 1
  split <;> rfl

theorem toList_padded_of_nonneg (width : Nat) {n : Int} (h : 0 ≤ n) :
    (padded width n).toList = digits width n.natAbs := by
  rw [toList_padded, if_neg (by omega), List.nil_append]

theorem not_mem_digits {width n : Nat} {c : Char} (hc : c.isDigit = false) : c ∉ digits width n :=
  fun h => by
    rw [isDigit_of_mem_digits h] at hc
    cases hc

theorem fraction_inj {n n' : Int} (h0 : 0 ≤ n) (h1 : n < second) (h0' : 0 ≤ n') (h1' : n' < second)
    (h : fraction n = fraction n') : n = n' := by
  unfold second at h1 h1'
  unfold fraction at h
  have hchars := congrArg String.toList h
  split at hchars <;> split at hchars
  · omega
  · simp at hchars
  · simp at hchars
  · rw [String.toList_append, String.toList_append, List.append_cancel_left_eq,
      String.toList_ofList, String.toList_ofList, toList_padded_of_nonneg _ h0,
      toList_padded_of_nonneg _ h0'] at hchars
    have hlen : ∀ m : Int, 0 ≤ m → m < 1000000000 → (digits 9 m.natAbs).length = 9 := fun m hm hm' =>
      digits_length (by decide) (by omega)
    have := digits_inj (dropTrailing_inj ((hlen n h0 h1).trans (hlen n' h0' h1').symm) hchars)
    omega

/-! ## The calendar -/

/-- A day of a 400-year era lies in the year that the calendar gives it. -/
theorem day_of_year (doe : Int) {yoe : Int} (h0 : 0 ≤ doe) (h1 : doe < 146097)
    (hy : yoe = (doe - doe / 1460 + doe / 36524 - doe / 146096) / 365) :
    0 ≤ yoe ∧ yoe ≤ 399 ∧ 0 ≤ doe - (365 * yoe + yoe / 4 - yoe / 100) ∧
      doe - (365 * yoe + yoe / 4 - yoe / 100) ≤ 365 := by
  obtain ⟨c, hc⟩ : ∃ c, c = doe / 1460 := ⟨_, rfl⟩
  obtain ⟨b, hb⟩ : ∃ b, b = doe / 36524 := ⟨_, rfl⟩
  obtain ⟨a, ha⟩ : ∃ a, a = doe / 146096 := ⟨_, rfl⟩
  rw [← hc, ← hb, ← ha] at hy
  -- the leap days counted by the day and by the year differ by one at most
  have hleap : yoe / 4 = c ∨ yoe / 4 = c - 1 := by
    have : yoe / 4 = (doe - c + b - a) / 1460 := by omega
    omega
  have hcentury : yoe / 100 = b ∨ yoe / 100 = b - 1 := by
    have : yoe / 100 = (doe - c + b - a) / 36500 := by omega
    omega
  have hb' : b = 0 ∨ b = 1 ∨ b = 2 ∨ b = 3 ∨ b = 4 := by omega
  refine ⟨by omega, by omega, ?_⟩
  rcases hleap with hleap | hleap <;> rcases hcentury with hcentury | hcentury <;>
    rcases hb' with hb' | hb' | hb' | hb' | hb' <;> omega

/-- A year of an era has a day 365, counted from March, if the next February has 29 days. -/
theorem leap_of_last_day {doe yoe : Int} (h0 : 0 ≤ doe) (h1 : doe < 146097)
    (hy : yoe = (doe - doe / 1460 + doe / 36524 - doe / 146096) / 365)
    (hd : doe - (365 * yoe + yoe / 4 - yoe / 100) = 365) :
    (yoe + 1) % 4 = 0 ∧ ((yoe + 1) % 100 ≠ 0 ∨ (yoe + 1) % 400 = 0) := by
  obtain ⟨h2, h3, -, -⟩ := day_of_year doe h0 h1 hy
  obtain ⟨c, hc⟩ : ∃ c, c = doe / 1460 := ⟨_, rfl⟩
  obtain ⟨b, hb⟩ : ∃ b, b = doe / 36524 := ⟨_, rfl⟩
  obtain ⟨a, ha⟩ : ∃ a, a = doe / 146096 := ⟨_, rfl⟩
  obtain ⟨e, he⟩ : ∃ e, e = yoe / 4 := ⟨_, rfl⟩
  obtain ⟨g, hg⟩ : ∃ g, g = yoe / 100 := ⟨_, rfl⟩
  rw [← hc, ← hb, ← ha] at hy
  rw [← he, ← hg] at hd
  have hr : yoe = 4 * e ∨ yoe = 4 * e + 1 ∨ yoe = 4 * e + 2 ∨ yoe = 4 * e + 3 := by omega
  have hg' : g = 0 ∨ g = 1 ∨ g = 2 ∨ g = 3 := by omega
  have ha' : a = 0 ∨ a = 1 := by omega
  have hb' : b = g ∨ b = g + 1 := by omega
  have hc' : c = e ∨ c = e + 1 := by omega
  rcases hg' with hg' | hg' | hg' | hg' <;> rcases ha' with ha' | ha' <;> rcases hb' with hb' | hb' <;>
    rcases hc' with hc' | hc' <;> rcases hr with hr | hr | hr | hr <;> omega

/-- The parts of a date: a year of the era, a day of that year and a month, both counted from March, and
the year, month and day they make. -/
structure CivilParts (days yoe doy mp : Int) : Prop where
  yoe_nonneg : 0 ≤ yoe
  yoe_le : yoe ≤ 399
  mp_nonneg : 0 ≤ mp
  mp_le : mp ≤ 11
  doe : (days + 719468) % 146097 = doy + (365 * yoe + yoe / 4 - yoe / 100)
  year : (civil days).1 = yoe + (days + 719468) / 146097 * 400 + (if mp < 10 then 0 else 1)
  month : (civil days).2.1 = (if mp < 10 then mp + 3 else mp - 9)
  day : (civil days).2.2 = doy - (153 * mp + 2) / 5 + 1
  start_le : (153 * mp + 2) / 5 ≤ doy
  lt_end : doy < (153 * (mp + 1) + 2) / 5
  doy_le : doy ≤ 365
  leap : doy = 365 → (yoe + 1) % 4 = 0 ∧ ((yoe + 1) % 100 ≠ 0 ∨ (yoe + 1) % 400 = 0)

theorem civil_spec (days : Int) : ∃ yoe doy mp : Int, CivilParts days yoe doy mp := by
  have h0 : 0 ≤ (days + 719468) % 146097 := Int.emod_nonneg _ (by decide)
  have h146097 : (days + 719468) % 146097 < 146097 := Int.emod_lt_of_pos _ (by decide)
  obtain ⟨h1, h2, h3, h4⟩ := day_of_year _ h0 h146097 rfl
  refine ⟨_, _, _, ⟨h1, h2, ?_, ?_, (Int.sub_add_cancel _ _).symm, ?_, rfl, rfl, ?_, ?_, h4,
    leap_of_last_day h0 h146097 rfl⟩⟩
  · omega
  · omega
  · unfold civil
    dsimp only
    split <;> split <;> omega
  · omega
  · omega

theorem civil_pos (days : Int) : 1 ≤ (civil days).2.1 ∧ 1 ≤ (civil days).2.2 := by
  obtain ⟨yoe, doy, mp, h⟩ := civil_spec days
  have hmp := h.mp_nonneg
  have hstart := h.start_le
  rw [h.month, h.day]
  refine ⟨?_, by omega⟩
  split <;> omega

/-- A date with positive months and days is determined by what is written of it. -/
theorem date_ext {c c' : Int × Int × Int} (hc : 1 ≤ c.2.1 ∧ 1 ≤ c.2.2)
    (hc' : 1 ≤ c'.2.1 ∧ 1 ≤ c'.2.2) (hy : c.1 = c'.1) (hm : c.2.1.natAbs = c'.2.1.natAbs)
    (hd : c.2.2.natAbs = c'.2.2.natAbs) : c = c' :=
  Prod.ext hy (Prod.ext (by omega) (by omega))

theorem civil_inj {days days' : Int} (h : civil days = civil days') : days = days' := by
  obtain ⟨yoe, doy, mp, ⟨_, _, _, _, hdoe, hy, hm, hd, _, _, _, _⟩⟩ := civil_spec days
  obtain ⟨yoe', doy', mp', ⟨_, _, _, _, hdoe', hy', hm', hd', _, _, _, _⟩⟩ := civil_spec days'
  rw [← h] at hy' hm' hd'
  have hmp : mp = mp' := by
    rw [hm] at hm'
    split at hm' <;> split at hm' <;> omega
  subst hmp
  have hyear : yoe = yoe' ∧ (days + 719468) / 146097 = (days' + 719468) / 146097 := by
    rw [hy] at hy'
    omega
  obtain ⟨rfl, hera⟩ := hyear
  omega

/-! ## Times -/

/-- A number ends at the first character that is not a digit. -/
theorem padded_append_inj {width : Nat} {c : Char} {n n' : Int} {l l' : List Char}
    (hc : c.isDigit = false)
    (h : (padded width n).toList ++ c :: l = (padded width n').toList ++ c :: l') :
    n = n' ∧ l = l' := by
  have hsep : ∀ k, c ∉ digits width k := fun k => not_mem_digits hc
  have hne : ∀ (k : Nat) (r : List Char), ∃ x t, digits width k ++ r = x :: t ∧ x ≠ '-' := by
    intro k r
    rcases hd : digits width k with _ | ⟨x, t⟩
    · simp [digits, Nat.toDigits_ne_nil] at hd
    · refine ⟨x, t ++ r, by simp, ?_⟩
      rintro rfl
      exact not_mem_digits (c := '-') (by decide) (hd ▸ List.mem_cons_self)
  rw [toList_padded, toList_padded, List.append_assoc, List.append_assoc] at h
  split at h <;> split at h
  · obtain ⟨h1, h2⟩ := Glob.append_separator_inj (hsep _) (hsep _) (List.append_cancel_left h)
    have := digits_inj h1
    exact ⟨by omega, h2⟩
  · obtain ⟨x, t, hx, hdash⟩ := hne n'.natAbs (c :: l')
    rw [List.nil_append, hx] at h
    exact absurd (List.cons.inj h).1.symm hdash
  · obtain ⟨x, t, hx, hdash⟩ := hne n.natAbs (c :: l)
    rw [List.nil_append, hx] at h
    exact absurd (List.cons.inj h).1 hdash
  · rw [List.nil_append, List.nil_append] at h
    obtain ⟨h1, h2⟩ := Glob.append_separator_inj (hsep _) (hsep _) h
    have := digits_inj h1
    exact ⟨by omega, h2⟩

/-- What is written of a time before the fraction of its second. -/
def secondsText (secs : Int) : List Char :=
  (padded 4 (civil (secs / 86400)).1).toList ++ '-' ::
    (digits 2 (civil (secs / 86400)).2.1.natAbs ++ '-' ::
      (digits 2 (civil (secs / 86400)).2.2.natAbs ++ 'T' ::
        (digits 2 (secs % 86400 / 3600).natAbs ++ ':' ::
          (digits 2 (secs % 86400 / 60 % 60).natAbs ++ ':' ::
            digits 2 (secs % 86400 % 60).natAbs))))

/-- The calendar and the clock determine the second, and end where they do. -/
theorem secondsText_append_inj {s s' : Int} {l l' : List Char}
    (h : secondsText s ++ l = secondsText s' ++ l') : s = s' ∧ l = l' := by
  simp only [secondsText, List.append_assoc, List.cons_append] at h
  obtain ⟨hyear, h⟩ := padded_append_inj (by decide) h
  -- month, day, hour and minute end at their separators, the second after two digits
  have hsep : ∀ {c : Char} {n n' : Nat} {l l' : List Char}, c.isDigit = false →
      digits 2 n ++ c :: l = digits 2 n' ++ c :: l' → n = n' ∧ l = l' := fun hc heq =>
    (Glob.append_separator_inj (not_mem_digits hc) (not_mem_digits hc) heq).imp_left digits_inj
  obtain ⟨hmonth, h⟩ := hsep (by decide) h
  obtain ⟨hday, h⟩ := hsep (by decide) h
  obtain ⟨hhour, h⟩ := hsep (by decide) h
  obtain ⟨hminute, h⟩ := hsep (by decide) h
  have hlen : ∀ u : Int, (digits 2 (u % 86400 % 60).natAbs).length = 2 := fun u =>
    digits_length (by decide) (by omega)
  obtain ⟨hsecs, hrest⟩ := List.append_inj h ((hlen s).trans (hlen s').symm)
  have hsecond := digits_inj hsecs
  have hdays := civil_inj (date_ext (civil_pos _) (civil_pos _) hyear hmonth hday)
  exact ⟨by omega, hrest⟩

/-- A date and a clock are written with digits and punctuation. -/
theorem mem_secondsText {secs : Int} {c : Char} (h : c ∈ secondsText secs) :
    c.isDigit ∨ c = '-' ∨ c = 'T' ∨ c = ':' := by
  have hd : ∀ n k, c ∈ digits n k → c.isDigit := fun n k => isDigit_of_mem_digits
  rw [secondsText, toList_padded] at h
  simp only [List.mem_append, List.mem_cons] at h
  rcases h with (h | h) | rfl | h | rfl | h | rfl | h | rfl | h | rfl | h
  · split at h
    · exact .inr (.inl (List.mem_singleton.mp h))
    · cases h
  all_goals first
    | exact .inl (hd _ _ h)
    | simp

theorem toList_rfc3339Nano (t : Int) : (rfc3339Nano t).toList =
    secondsText (t / second) ++ ((fraction (t % second)).toList ++ ['Z']) := by
  obtain ⟨hm, hd⟩ := civil_pos (t / second / 86400)
  have hsod : 0 ≤ t / second % 86400 := Int.emod_nonneg _ (by decide)
  unfold rfc3339Nano secondsText
  dsimp only
  simp only [String.toList_append, toList_padded_of_nonneg 2 (Int.le_of_lt hm),
    toList_padded_of_nonneg 2 (Int.le_of_lt hd),
    toList_padded_of_nonneg 2 (by omega : 0 ≤ t / second % 86400 / 3600),
    toList_padded_of_nonneg 2 (by omega : 0 ≤ t / second % 86400 / 60 % 60),
    toList_padded_of_nonneg 2 (by omega : 0 ≤ t / second % 86400 % 60), List.append_assoc,
    List.cons_append]
  rfl

theorem rfc3339Nano_inj {t t' : Int} (h : rfc3339Nano t = rfc3339Nano t') : t = t' := by
  have hchars := congrArg String.toList h
  rw [toList_rfc3339Nano, toList_rfc3339Nano] at hchars
  obtain ⟨hsecs, hchars⟩ := secondsText_append_inj hchars
  have hfrac : t % second = t' % second := by
    refine fraction_inj ?_ ?_ ?_ ?_ (String.toList_inj.mp (List.append_cancel_right hchars)) <;>
      unfold second <;> omega
  unfold second at *
  omega

theorem toList_rfc3339Nine (t : Int) : (rfc3339Nine t).toList =
    secondsText (t / second) ++ '.' :: (digits 9 (t % second).natAbs ++ ['Z']) := by
  obtain ⟨hm, hd⟩ := civil_pos (t / second / 86400)
  have hsod : 0 ≤ t / second % 86400 := Int.emod_nonneg _ (by decide)
  have hfrac : 0 ≤ t % second := Int.emod_nonneg _ (by decide)
  unfold rfc3339Nine secondsText
  dsimp only
  simp only [String.toList_append, toList_padded_of_nonneg 2 (Int.le_of_lt hm),
    toList_padded_of_nonneg 2 (Int.le_of_lt hd),
    toList_padded_of_nonneg 2 (by omega : 0 ≤ t / second % 86400 / 3600),
    toList_padded_of_nonneg 2 (by omega : 0 ≤ t / second % 86400 / 60 % 60),
    toList_padded_of_nonneg 2 (by omega : 0 ≤ t / second % 86400 % 60),
    toList_padded_of_nonneg 9 hfrac, List.append_assoc, List.cons_append]
  rfl

theorem rfc3339Nine_inj {t t' : Int} (h : rfc3339Nine t = rfc3339Nine t') : t = t' := by
  have hchars := congrArg String.toList h
  rw [toList_rfc3339Nine, toList_rfc3339Nine] at hchars
  obtain ⟨hsecs, hchars⟩ := secondsText_append_inj hchars
  have hfrac := digits_inj (List.append_cancel_right (List.cons.inj hchars).2)
  unfold second at *
  omega

theorem nul_not_mem_fraction {n : Int} (h : 0 ≤ n) : '\x00' ∉ (fraction n).toList := by
  unfold fraction
  split
  · simp
  · rw [String.toList_append, toList_padded_of_nonneg _ h]
    refine List.not_mem_append (by decide) fun hmem => ?_
    rw [String.toList_ofList, List.mem_reverse] at hmem
    have hmem := (List.dropWhile_suffix _).subset hmem
    rw [List.mem_reverse] at hmem
    exact not_mem_digits (by decide) hmem

/-- A time is written with digits and punctuation. -/
theorem nul_not_mem_rfc3339Nano (t : Int) : '\x00' ∉ (rfc3339Nano t).toList := by
  have hsecs : '\x00' ∉ secondsText (t / second) := fun h => by
    rcases mem_secondsText h with h | h | h | h <;> revert h <;> decide
  have hfrac : '\x00' ∉ (fraction (t % second)).toList :=
    nul_not_mem_fraction (Int.emod_nonneg _ (by decide))
  rw [toList_rfc3339Nano]
  simp [hsecs, hfrac]

end Go
