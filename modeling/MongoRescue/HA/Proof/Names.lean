import MongoRescue.HA.Proof.Takeover
import MongoRescue.Lib.Format
import MongoRescue.Lib.Strings

/-!
# Names of snapshots

`parseSnapshotKey` reads back what `SnapshotKey` writes, and only that: a file name is accepted if and
only if it is the name of the time and epoch it is read as (`parseSnapshotName_iff`), at the millisecond
and in the years 0 to 9999 (`Stampable`). So a header verifies under the keys below the cluster's prefix
that end in its own file name (`verify_iff`), and under no key of another cluster, epoch or time.
-/

namespace MongoRescue.HA.Proof.Names

open Go (digits civil)

/-! ## Dates -/

variable {t : Int} {y m d hour minute sec milli : Nat} {date clock name : List Char} {cluster : String}

/-- The days of a month: February, the short months, the long ones. -/
theorem daysIn_cases (y m : Nat) :
    (m = 2 ∧ (y % 4 = 0 ∧ (y % 100 ≠ 0 ∨ y % 400 = 0)) ∧ daysIn y m = 29) ∨
      (m = 2 ∧ ¬ (y % 4 = 0 ∧ (y % 100 ≠ 0 ∨ y % 400 = 0)) ∧ daysIn y m = 28) ∨
      (m ≠ 2 ∧ (m = 4 ∨ m = 6 ∨ m = 9 ∨ m = 11) ∧ daysIn y m = 30) ∨
      (m ≠ 2 ∧ ¬ (m = 4 ∨ m = 6 ∨ m = 9 ∨ m = 11) ∧ daysIn y m = 31) := by
  unfold daysIn
  by_cases hm : m = 2
  · by_cases hy : y % 4 = 0 ∧ (y % 100 ≠ 0 ∨ y % 400 = 0)
    · exact .inl ⟨hm, hy, by rw [if_pos hm, if_pos hy]⟩
    · exact .inr (.inl ⟨hm, hy, by rw [if_pos hm, if_neg hy]⟩)
  · by_cases hs : m = 4 ∨ m = 6 ∨ m = 9 ∨ m = 11
    · exact .inr (.inr (.inl ⟨hm, hs, by rw [if_neg hm, if_pos hs]⟩))
    · exact .inr (.inr (.inr ⟨hm, hs, by rw [if_neg hm, if_neg hs]⟩))

/-- A date of the calendar. -/
structure ValidDate (y m d : Int) : Prop where
  month_pos : 1 ≤ m
  month_le : m ≤ 12
  day_pos : 1 ≤ d
  day_le : d ≤ daysIn y.toNat m.toNat

/-- The months from March to a month. -/
def sinceMarch (m : Int) : Int := if m ≤ 2 then m + 9 else m - 3

def dayOfYear (m d : Int) : Int := (153 * sinceMarch m + 2) / 5 + d - 1

/-- The days of the years before a year that starts in March. -/
def yearStart (y : Int) : Int := 365 * y + y / 4 - y / 100 + y / 400

theorem daysFromCivil_eq (y m d : Int) :
    daysFromCivil y m d = yearStart (if m ≤ 2 then y - 1 else y) + dayOfYear m d - 719468 := by
  unfold daysFromCivil dayOfYear yearStart sinceMarch
  dsimp only
  omega

theorem yearStart_era {yoe : Int} (h0 : 0 ≤ yoe) (h1 : yoe ≤ 399) (era : Int) :
    yearStart (yoe + era * 400) = era * 146097 + (365 * yoe + yoe / 4 - yoe / 100) := by
  unfold yearStart
  omega

theorem daysFromCivil_civil (days : Int) :
    daysFromCivil (civil days).1 (civil days).2.1 (civil days).2.2 = days := by
  obtain ⟨yoe, doy, mp, h⟩ := Go.civil_spec days
  have hdoe := h.doe
  have hstart := yearStart_era h.yoe_nonneg h.yoe_le ((days + 719468) / 146097)
  have hyear : (if (civil days).2.1 ≤ 2 then (civil days).1 - 1 else (civil days).1) =
      yoe + (days + 719468) / 146097 * 400 := by
    have := h.mp_le
    have := h.mp_nonneg
    rw [h.year, h.month]
    split <;> split <;> omega
  have hday : dayOfYear (civil days).2.1 (civil days).2.2 = doy := by
    have hmp : sinceMarch (civil days).2.1 = mp := by
      have := h.mp_le
      have := h.mp_nonneg
      rw [h.month, sinceMarch]
      split <;> split <;> omega
    rw [dayOfYear, hmp, h.day]
    omega
  rw [daysFromCivil_eq, hyear, hday, hstart]
  omega

/-- What the calendar gives is a date. -/
theorem validDate_civil (days : Int) :
    ValidDate (civil days).1 (civil days).2.1 (civil days).2.2 := by
  obtain ⟨yoe, doy, mp, h⟩ := Go.civil_spec days
  obtain ⟨hyoe, _, hmp0, hmp1, hdoe, hyear, hmonth, hday, hstart, hend, hlast, hleap⟩ := h
  have hcases : mp = 0 ∨ mp = 1 ∨ mp = 2 ∨ mp = 3 ∨ mp = 4 ∨ mp = 5 ∨ mp = 6 ∨ mp = 7 ∨ mp = 8 ∨
      mp = 9 ∨ mp = 10 ∨ mp = 11 := by omega
  refine ⟨(Go.civil_pos days).1, ?_, (Go.civil_pos days).2, ?_⟩
  · rw [hmonth]
    split <;> omega
  · rw [hday, hmonth]
    rcases hcases with rfl | rfl | rfl | rfl | rfl | rfl | rfl | rfl | rfl | rfl | rfl | rfl
    all_goals
      have hdays := daysIn_cases (civil days).1.toNat (civil days).2.1.toNat
      rw [hmonth] at hdays
      rcases hdays with ⟨hm, hl, hn⟩ | ⟨hm, hl, hn⟩ | ⟨hm, hs, hn⟩ | ⟨hm, hs, hn⟩ <;> rw [hn] <;> omega

section

variable {y m d y' m' d' : Int}

theorem month_cases (h1 : 1 ≤ m) (h12 : m ≤ 12) : m = 1 ∨ m = 2 ∨ m = 3 ∨ m = 4 ∨ m = 5 ∨ m = 6 ∨
    m = 7 ∨ m = 8 ∨ m = 9 ∨ m = 10 ∨ m = 11 ∨ m = 12 := by
  omega

/-- A date lies in its month. -/
theorem dayOfYear_lt (h : ValidDate y m d) : dayOfYear m d < (153 * (sinceMarch m + 1) + 2) / 5 := by
  obtain ⟨h1, h12, hd, hle⟩ := h
  have hdays := daysIn_cases y.toNat m.toNat
  unfold dayOfYear
  rcases month_cases h1 h12 with rfl | rfl | rfl | rfl | rfl | rfl | rfl | rfl | rfl | rfl | rfl | rfl <;>
    simp only [sinceMarch] <;> norm_num <;> omega

theorem yearStart_add_dayOfYear_lt (hy : 0 ≤ y) (h : ValidDate y m d) :
    yearStart (if m ≤ 2 then y - 1 else y) + dayOfYear m d <
      yearStart ((if m ≤ 2 then y - 1 else y) + 1) := by
  have hlt := dayOfYear_lt h
  obtain ⟨h1, h12, hd, hle⟩ := h
  unfold yearStart
  by_cases h2 : m = 2
  · have hdays := daysIn_cases y.toNat m.toNat
    subst h2
    simp only [dayOfYear, sinceMarch] at hlt ⊢
    norm_num at hlt ⊢
    omega
  · have hsince : sinceMarch m ≤ 10 := by
      unfold sinceMarch
      split <;> omega
    omega

theorem dayOfYear_nonneg (h : ValidDate y m d) : 0 ≤ dayOfYear m d := by
  have h1 := h.month_pos
  have hd := h.day_pos
  unfold dayOfYear sinceMarch
  split <;> omega

theorem yearStart_mono (h : y ≤ y') : yearStart y ≤ yearStart y' := by
  unfold yearStart
  omega

theorem date_of_dayOfYear (h : ValidDate y m d) (h' : ValidDate y' m' d')
    (heq : dayOfYear m d = dayOfYear m' d') : m = m' ∧ d = d' := by
  have hlt := dayOfYear_lt h
  have hlt' := dayOfYear_lt h'
  have hd := h.day_pos
  have hd' := h'.day_pos
  have hsince : sinceMarch m = sinceMarch m' := by
    unfold dayOfYear at *
    omega
  have hmonth : m = m' := by
    have := h.month_pos
    have := h.month_le
    have := h'.month_pos
    have := h'.month_le
    unfold sinceMarch at hsince
    split at hsince <;> split at hsince <;> omega
  refine ⟨hmonth, ?_⟩
  unfold dayOfYear at heq
  omega

theorem daysFromCivil_inj (hy : 0 ≤ y) (hy' : 0 ≤ y') (h : ValidDate y m d) (h' : ValidDate y' m' d')
    (heq : daysFromCivil y m d = daysFromCivil y' m' d') : y = y' ∧ m = m' ∧ d = d' := by
  rw [daysFromCivil_eq, daysFromCivil_eq] at heq
  have hlt := yearStart_add_dayOfYear_lt hy h
  have hlt' := yearStart_add_dayOfYear_lt hy' h'
  have h0 := dayOfYear_nonneg h
  have h0' := dayOfYear_nonneg h'
  have hyear : (if m ≤ 2 then y - 1 else y) = if m' ≤ 2 then y' - 1 else y' := by
    rcases lt_trichotomy (if m ≤ 2 then y - 1 else y) (if m' ≤ 2 then y' - 1 else y') with hl | he | hl
    · have := yearStart_mono (show (if m ≤ 2 then y - 1 else y) + 1 ≤ _ from hl)
      omega
    · exact he
    · have := yearStart_mono (show (if m' ≤ 2 then y' - 1 else y') + 1 ≤ _ from hl)
      omega
  rw [hyear] at heq
  obtain ⟨rfl, rfl⟩ := date_of_dayOfYear h h' (by omega)
  refine ⟨?_, rfl, rfl⟩
  split at hyear <;> omega

/-- The dates from the year 0 on are the days from its first one on. -/
theorem year_nonneg_iff (h : ValidDate y m d) : 0 ≤ y ↔ -719528 ≤ daysFromCivil y m d := by
  have hlt := dayOfYear_lt h
  have h0 := dayOfYear_nonneg h
  have hd := h.day_pos
  have hm := h.month_pos
  have hm' := h.month_le
  rw [daysFromCivil_eq]
  unfold dayOfYear yearStart at *
  by_cases h2 : m ≤ 2
  · simp only [sinceMarch, if_pos h2] at *
    omega
  · simp only [sinceMarch, if_neg h2] at *
    omega

end

/-- **Dates and days since the epoch determine each other.** -/
theorem civil_daysFromCivil {y m d : Int} (hy : 0 ≤ y) (h : ValidDate y m d) :
    civil (daysFromCivil y m d) = (y, m, d) := by
  have hvalid := validDate_civil (daysFromCivil y m d)
  have hyear : 0 ≤ (civil (daysFromCivil y m d)).1 := by
    rw [year_nonneg_iff hvalid, daysFromCivil_civil]
    exact (year_nonneg_iff h).mp hy
  obtain ⟨h1, h2, h3⟩ := daysFromCivil_inj hyear hy hvalid h (daysFromCivil_civil _)
  exact Prod.ext h1 (Prod.ext h2 h3)

/-! ## Stamps -/

/-- A time that a name can hold: at the millisecond, in the years 0 to 9999. -/
structure Stampable (t : Int) : Prop where
  millisecond : t % 1000000 = 0
  year_nonneg : 0 ≤ (civil (t / Go.second / 86400)).1
  year_le : (civil (t / Go.second / 86400)).1 ≤ 9999

/-- The fields of a time, as the clock of a day shows them. -/
structure Fields (t : Int) (y m d hour minute sec milli : Nat) : Prop where
  date : civil (t / Go.second / 86400) = ((y : Int), (m : Int), (d : Int))
  hour_lt : hour < 24
  minute_lt : minute < 60
  sec_lt : sec < 60
  milli_lt : milli < 1000
  clock : t / Go.second % 86400 = (hour * 3600 + minute * 60 + sec : Nat)
  fraction : t % Go.second = (milli * 1000000 : Nat)

/-- A time that a name can hold has its fields. -/
theorem Stampable.fields (h : Stampable t) :
    ∃ y m d hour minute sec milli : Nat, y ≤ 9999 ∧ ValidDate y m d ∧
      Fields t y m d hour minute sec milli := by
  have hvalid := validDate_civil (t / Go.second / 86400)
  have hyear := Int.toNat_of_nonneg h.year_nonneg
  have hmonth : ((civil (t / Go.second / 86400)).2.1.toNat : Int) = (civil (t / Go.second / 86400)).2.1 :=
    Int.toNat_of_nonneg (by have := hvalid.month_pos; omega)
  have hday : ((civil (t / Go.second / 86400)).2.2.toNat : Int) = (civil (t / Go.second / 86400)).2.2 :=
    Int.toNat_of_nonneg (by have := hvalid.day_pos; omega)
  have hfrac : 0 ≤ t % Go.second ∧ t % Go.second < 1000000000 := by
    unfold Go.second
    omega
  have hms : t % Go.second % 1000000 = 0 := by
    have := h.millisecond
    unfold Go.second
    omega
  have hsod : 0 ≤ t / Go.second % 86400 ∧ t / Go.second % 86400 < 86400 := by omega
  have hle := h.year_le
  refine ⟨_, _, _, (t / Go.second % 86400 / 3600).toNat, (t / Go.second % 86400 / 60 % 60).toNat,
    (t / Go.second % 86400 % 60).toNat, (t % Go.second / 1000000).toNat, ?_, ?_,
    ⟨(Prod.ext hyear (Prod.ext hmonth hday)).symm, ?_, ?_, ?_, ?_, ?_, ?_⟩⟩
  · omega
  · rw [hyear, hmonth, hday]
    exact hvalid
  all_goals clear hle hvalid hyear hmonth hday h
  · omega
  · omega
  · omega
  · omega
  · generalize t / Go.second % 86400 = sod at hsod ⊢
    omega
  · generalize t % Go.second = frac at hfrac hms ⊢
    omega

/-- Fields determine the time. -/
theorem stampable_of_fields (hy : y ≤ 9999) (h : Fields t y m d hour minute sec milli) :
    Stampable t := by
  refine ⟨?_, ?_, ?_⟩
  · have := h.fraction
    unfold Go.second at this
    omega
  · rw [h.date]
    exact Int.natCast_nonneg _
  · rw [h.date]
    exact Int.ofNat_le.mpr hy

/-- The eight digits of a date. -/
def dateNumber (y m d : Nat) : Nat := y * 10000 + m * 100 + d

/-- The nine digits of a time of day. -/
def clockNumber (hour minute sec milli : Nat) : Nat :=
  hour * 10000000 + minute * 100000 + sec * 1000 + milli

theorem toList_stamp (hy : y ≤ 9999) (hvalid : ValidDate y m d)
    (h : Fields t y m d hour minute sec milli) :
    (stamp t).toList = digits 8 (dateNumber y m d) ++ 'T' ::
      digits 9 (clockNumber hour minute sec milli) := by
  have hm := hvalid.month_le
  have hd := hvalid.day_le
  have hdays := daysIn_cases (y : Int).toNat (m : Int).toNat
  obtain ⟨hdate, h1, h2, h3, h4, hclock, hfrac⟩ := h
  have hdate' : digits 4 y ++ digits 2 m ++ digits 2 d = digits 8 (dateNumber y m d) := by
    rw [Go.digits_append (by decide) (by decide) (by omega) (by omega),
      Go.digits_append (by decide) (by decide) (by omega) (by omega)]
    congr 1
    unfold dateNumber
    omega
  have hclock' : digits 2 hour ++ digits 2 minute ++ digits 2 sec ++ digits 3 milli =
      digits 9 (clockNumber hour minute sec milli) := by
    rw [Go.digits_append (by decide) (by decide) (by omega) (by omega),
      Go.digits_append (by decide) (by decide) (by omega) (by omega),
      Go.digits_append (by decide) (by decide) (by omega) (by omega)]
    congr 1
    unfold clockNumber
    omega
  have e1 : t / Go.second % 86400 / 3600 = (hour : Int) := by omega
  have e2 : t / Go.second % 86400 / 60 % 60 = (minute : Int) := by omega
  have e3 : t / Go.second % 86400 % 60 = (sec : Int) := by omega
  have e4 : t % Go.second / 1000000 = (milli : Int) := by omega
  rw [← hdate', ← hclock']
  unfold stamp
  dsimp only
  rw [hdate, e1, e2, e3, e4]
  simp only [String.toList_append, Go.toList_padded_of_nonneg _ (Int.natCast_nonneg _), Int.natAbs_natCast,
    List.append_assoc]
  rfl

theorem parseStamp_of_fields (hvalid : ValidDate y m d) (h : Fields t y m d hour minute sec milli) :
    parseStamp (dateNumber y m d) (clockNumber hour minute sec milli) = some t := by
  have hm := hvalid.month_pos
  have hm' := hvalid.month_le
  have hd := hvalid.day_pos
  have hd' : d ≤ daysIn y m := by simpa using hvalid.day_le
  have hdays := daysIn_cases y m
  obtain ⟨hdate, h1, h2, h3, h4, hclock, hfrac⟩ := h
  have hdn : dateNumber y m d = y * 10000 + m * 100 + d := by rw [dateNumber]
  generalize dateNumber y m d = date at *
  have d1 : date / 10000 = y := by omega
  have d2 : date / 100 % 100 = m := by omega
  have d3 : date % 100 = d := by omega
  have hcn : clockNumber hour minute sec milli =
      hour * 10000000 + minute * 100000 + sec * 1000 + milli := by rw [clockNumber]
  generalize clockNumber hour minute sec milli = clock at *
  have c1 : clock / 10000000 = hour := by omega
  have c2 : clock / 100000 % 100 = minute := by omega
  have c3 : clock / 1000 % 100 = sec := by omega
  have c4 : clock % 1000 = milli := by omega
  have hback := daysFromCivil_civil (t / Go.second / 86400)
  rw [hdate] at hback
  dsimp only at hback
  unfold parseStamp
  dsimp only
  rw [d1, d2, d3, c1, c2, c3, c4, if_pos ⟨by omega, by omega, by omega, hd', h1, h2, h3⟩, hback]
  congr 1
  rw [← hclock]
  have hsplit : t / Go.second / 86400 * 86400 + t / Go.second % 86400 = t / Go.second := by omega
  have hsecond : t / Go.second * Go.second + t % Go.second = t := Int.ediv_mul_add_emod t Go.second
  rw [hsplit]
  push_cast at hfrac
  rw [← hfrac, hsecond]

theorem fields_of_parseStamp {date clock : Nat} (h : parseStamp date clock = some t) :
    ValidDate (date / 10000 : Nat) (date / 100 % 100 : Nat) (date % 100 : Nat) ∧
      Fields t (date / 10000) (date / 100 % 100) (date % 100) (clock / 10000000) (clock / 100000 % 100)
        (clock / 1000 % 100) (clock % 1000) := by
  unfold parseStamp at h
  dsimp only at h
  by_cases hok : 1 ≤ date / 100 % 100 ∧ date / 100 % 100 ≤ 12 ∧ 1 ≤ date % 100 ∧
      date % 100 ≤ daysIn (date / 10000) (date / 100 % 100) ∧ clock / 10000000 < 24 ∧
      clock / 100000 % 100 < 60 ∧ clock / 1000 % 100 < 60
  · rw [if_pos hok, Option.some.injEq] at h
    obtain ⟨hm, hm', hd, hd', hhour, hminute, hsec⟩ := hok
    have hmilli : clock % 1000 < 1000 := Nat.mod_lt _ (by decide)
    generalize date / 10000 = y at *
    generalize date / 100 % 100 = m at *
    generalize date % 100 = d at *
    generalize clock / 10000000 = hour at *
    generalize clock / 100000 % 100 = minute at *
    generalize clock / 1000 % 100 = sec at *
    generalize clock % 1000 = milli at *
    have hvalid : ValidDate y m d := ⟨by omega, by omega, by omega, by simpa using hd'⟩
    have hcivil := civil_daysFromCivil (Int.natCast_nonneg _) hvalid
    generalize daysFromCivil (y : Int) m d = days at *
    have hsecs : t / Go.second = days * 86400 + (hour * 3600 + minute * 60 + sec : Nat) := by
      rw [← h]
      unfold Go.second
      omega
    have hfrac : t % Go.second = (milli * 1000000 : Nat) := by
      rw [← h]
      unfold Go.second
      omega
    refine ⟨hvalid, ⟨?_, hhour, hminute, hsec, hmilli, ?_, hfrac⟩⟩
    · rw [hsecs, ← hcivil]
      congr 1
      omega
    · rw [hsecs]
      omega
  · rw [if_neg hok] at h
    cases h

/-! ## File names -/

theorem decimal_digits (width n : Nat) : decimal (digits width n) = some n := by
  have hall : (digits width n).all Char.isDigit = true :=
    List.all_eq_true.mpr fun c hc => Go.isDigit_of_mem_digits hc
  rw [decimal, if_pos hall]
  exact congrArg some (Go.ofDigitChars_digits width n)

theorem eq_digits_of_decimal {cs : List Char} {n : Nat} (hne : cs ≠ []) (h : decimal cs = some n) :
    cs = digits cs.length n ∧ n < 10 ^ cs.length := by
  rw [decimal] at h
  by_cases hall : cs.all Char.isDigit = true
  · rw [if_pos hall, Option.some.injEq] at h
    have hdigit := List.all_eq_true.mp hall
    obtain rfl : Nat.ofDigitChars 10 cs 0 = n := h
    exact ⟨(Go.digits_ofDigitChars hne hdigit).symm, Go.ofDigitChars_lt hdigit⟩
  · rw [if_neg hall] at h
    cases h

theorem toList_padded_nat (width n : Nat) : (Go.padded width (n : Int)).toList = digits width n := by
  rw [Go.toList_padded_of_nonneg _ (Int.natCast_nonneg _), Int.natAbs_natCast]

/-- The characters of a snapshot's name, given its digits. -/
def nameOf (date clock epoch : List Char) : List Char :=
  "mongorescue-".toList ++ (date ++ (['T'] ++ (clock ++
    ("Z-e".toList ++ (epoch ++ (".db.age".toList ++ []))))))

theorem toList_snapshotFile (h : (stamp t).toList = date ++ 'T' :: clock) (epoch : UInt64) :
    (snapshotFile t epoch).toList = nameOf date clock (digits 20 epoch.toNat) := by
  unfold snapshotFile nameOf
  rw [String.toList_append, String.toList_append, String.toList_append, String.toList_append, h,
    toList_padded_nat, List.append_assoc, List.append_assoc, List.append_assoc, List.append_assoc,
    List.cons_append, List.append_nil]
  rfl

/-- The parts that `snapshotName` reads. -/
structure NameParts (name date clock epoch : List Char) : Prop where
  length : name.length = 60
  start : (name.drop 0).take 12 = "mongorescue-".toList
  date : (name.drop 12).take 8 = date
  t : (name.drop 20).take 1 = ['T']
  clock : (name.drop 21).take 9 = clock
  z : (name.drop 30).take 3 = "Z-e".toList
  epoch : (name.drop 33).take 20 = epoch
  suffix : (name.drop 53).take 7 = ".db.age".toList

theorem drop_eq_take_append (name : List Char) (i n : Nat) :
    name.drop i = (name.drop i).take n ++ name.drop (i + n) := by
  rw [← List.drop_drop, List.take_append_drop]

theorem NameParts.eq {epoch : List Char} (h : NameParts name date clock epoch) :
    name = nameOf date clock epoch := by
  have hall : name.drop 0 = nameOf date clock epoch := by
    rw [drop_eq_take_append name 0 12, h.start, drop_eq_take_append name (0 + 12) 8, h.date,
      drop_eq_take_append name (0 + 12 + 8) 1, h.t, drop_eq_take_append name (0 + 12 + 8 + 1) 9, h.clock,
      drop_eq_take_append name (0 + 12 + 8 + 1 + 9) 3, h.z,
      drop_eq_take_append name (0 + 12 + 8 + 1 + 9 + 3) 20, h.epoch,
      drop_eq_take_append name (0 + 12 + 8 + 1 + 9 + 3 + 20) 7, h.suffix,
      List.drop_eq_nil_of_le (by rw [h.length])]
    rfl
  exact hall

theorem nameParts_nameOf {epoch : List Char} (hd : date.length = 8) (hc : clock.length = 9)
    (he : epoch.length = 20) : NameParts (nameOf date clock epoch) date clock epoch := by
  obtain ⟨name, hname⟩ : ∃ name, name = nameOf date clock epoch := ⟨_, rfl⟩
  have h0 : name.drop 0 = nameOf date clock epoch := hname
  unfold nameOf at h0
  have hstart : ("mongorescue-".toList).length = 12 := rfl
  have hz : ("Z-e".toList).length = 3 := rfl
  have hsuffix : (".db.age".toList).length = 7 := rfl
  have hnext {i n : Nat} {mid post : List Char} (h : name.drop i = mid ++ post) (hn : mid.length = n) :
      (name.drop i).take n = mid ∧ name.drop (i + n) = post := by
    rw [← List.drop_drop, h]
    exact ⟨List.take_left' hn, List.drop_left' hn⟩
  obtain ⟨p1, h1⟩ := hnext h0 hstart
  obtain ⟨p2, h2⟩ := hnext h1 hd
  obtain ⟨p3, h3⟩ := hnext h2 (n := 1) rfl
  obtain ⟨p4, h4⟩ := hnext h3 hc
  obtain ⟨p5, h5⟩ := hnext h4 hz
  obtain ⟨p6, h6⟩ := hnext h5 he
  obtain ⟨p7, h7⟩ := hnext h6 hsuffix
  rw [← hname]
  refine ⟨?_, p1, p2, p3, p4, p5, p6, p7⟩
  rw [hname]
  unfold nameOf
  simp only [List.length_append, hd, hc, he, hstart, hz, hsuffix, List.length_singleton, List.length_nil]

/-- The parts that are read, and the check on the epoch. -/
theorem parseSnapshotName_eq_some {epoch : UInt64} :
    parseSnapshotName name = some (t, epoch) ↔ ∃ date clock : Nat, date < 10 ^ 8 ∧ clock < 10 ^ 9 ∧
      name = nameOf (digits 8 date) (digits 9 clock) (digits 20 epoch.toNat) ∧
      parseStamp date clock = some t := by
  constructor
  · intro h
    unfold parseSnapshotName at h
    dsimp only at h
    by_cases hok : name.length = 60 ∧ (name.drop 0).take 12 = "mongorescue-".toList ∧
        (name.drop 20).take 1 = ['T'] ∧ (name.drop 30).take 3 = "Z-e".toList ∧
        (name.drop 53).take 7 = ".db.age".toList
    · rw [if_pos hok] at h
      obtain ⟨hlen, hstart, ht, hz, hsuffix⟩ := hok
      rcases hd : decimal ((name.drop 12).take 8) with _ | date
      · simp [hd] at h
      rcases hc : decimal ((name.drop 21).take 9) with _ | clock
      · simp [hd, hc] at h
      rcases he : decimal ((name.drop 33).take 20) with _ | e
      · simp [hd, hc, he] at h
      simp only [hd, hc, he] at h
      by_cases hlt : e < 18446744073709551616
      · rw [if_pos hlt, Option.map_eq_some_iff] at h
        obtain ⟨t', hstamp, heq⟩ := h
        cases heq
        have hnum {i n k : Nat} (hn : 0 < n) (hi : i + n ≤ 60)
            (hk : decimal ((name.drop i).take n) = some k) :
            (name.drop i).take n = digits n k ∧ k < 10 ^ n := by
          have hl : ((name.drop i).take n).length = n := by
            rw [List.length_take, List.length_drop, hlen]
            omega
          have hdec := eq_digits_of_decimal (List.ne_nil_of_length_pos (by omega)) hk
          rwa [hl] at hdec
        obtain ⟨hd, hdate⟩ := hnum (by decide) (by decide) hd
        obtain ⟨hc, hclock⟩ := hnum (by decide) (by decide) hc
        obtain ⟨he, -⟩ := hnum (by decide) (by decide) he
        refine ⟨date, clock, hdate, hclock, NameParts.eq ⟨hlen, hstart, hd, ht, hc, hz, ?_, hsuffix⟩, hstamp⟩
        rw [he, UInt64.toNat_ofNat_of_lt' hlt]
      · rw [if_neg hlt] at h
        cases h
    · rw [if_neg hok] at h
      cases h
  · rintro ⟨date, clock, hdate, hclock, rfl, hstamp⟩
    have hlt : epoch.toNat < 18446744073709551616 := epoch.toNat_lt
    have hparts := nameParts_nameOf (Go.digits_length (by decide) hdate)
      (Go.digits_length (by decide) hclock)
      (@Go.digits_length 20 epoch.toNat (by decide) (by omega))
    generalize nameOf (digits 8 date) (digits 9 clock) (digits 20 epoch.toNat) = name at *
    obtain ⟨hlen, hstart, hd, ht, hc, hz, he, hsuffix⟩ := hparts
    unfold parseSnapshotName
    dsimp only
    rw [if_pos ⟨hlen, hstart, ht, hz, hsuffix⟩, hd, hc, he, decimal_digits, decimal_digits, decimal_digits]
    dsimp only
    rw [if_pos hlt, hstamp, Option.map_some, UInt64.ofNat_toNat]

/-- **A file name is read as a time and an epoch if and only if it is their name.** -/
theorem parseSnapshotName_iff {epoch : UInt64} :
    parseSnapshotName name = some (t, epoch) ↔ name = (snapshotFile t epoch).toList ∧ Stampable t := by
  rw [parseSnapshotName_eq_some]
  constructor
  · rintro ⟨date, clock, hdate, hclock, rfl, hstamp⟩
    obtain ⟨hvalid, hfields⟩ := fields_of_parseStamp hstamp
    have hy : date / 10000 ≤ 9999 := by omega
    have hdn : dateNumber (date / 10000) (date / 100 % 100) (date % 100) = date := by
      unfold dateNumber
      omega
    have hcn : clockNumber (clock / 10000000) (clock / 100000 % 100) (clock / 1000 % 100) (clock % 1000) =
        clock := by
      unfold clockNumber
      omega
    have hfile := toList_snapshotFile (toList_stamp hy hvalid hfields) epoch
    rw [hdn, hcn] at hfile
    exact ⟨hfile.symm, stampable_of_fields hy hfields⟩
  · rintro ⟨hname, hstampable⟩
    obtain ⟨y, m, d, hour, minute, sec, milli, hy, hvalid, hfields⟩ := hstampable.fields
    have hfile := toList_snapshotFile (toList_stamp hy hvalid hfields) epoch
    refine ⟨dateNumber y m d, clockNumber hour minute sec milli, ?_, ?_, hname.trans hfile,
      parseStamp_of_fields hvalid hfields⟩
    · have hm := hvalid.month_le
      have hd := hvalid.day_le
      have hdays := daysIn_cases (y : Int).toNat (m : Int).toNat
      unfold dateNumber
      omega
    · have h1 := hfields.hour_lt
      have h2 := hfields.minute_lt
      have h3 := hfields.sec_lt
      have h4 := hfields.milli_lt
      unfold clockNumber
      omega

/-! ## Keys -/

/-- The part of a key after its last slash. -/
def fileOf (key : String) : List Char := (key.toList.reverse.takeWhile (· ≠ '/')).reverse

theorem slash_not_mem_snapshotFile (h : Stampable t) (epoch : UInt64) :
    '/' ∉ (snapshotFile t epoch).toList := by
  obtain ⟨y, m, d, hour, minute, sec, milli, hy, hvalid, hfields⟩ := h.fields
  rw [toList_snapshotFile (toList_stamp hy hvalid hfields) epoch]
  have hdigits (width n : Nat) : '/' ∉ digits width n := Go.not_mem_digits (by decide)
  unfold nameOf
  simp only [List.mem_append, hdigits, false_or, not_or]
  decide

theorem fileOf_append {dir : String} {file : List Char} (h : '/' ∉ file) :
    fileOf (dir ++ "/" ++ String.ofList file) = file := by
  unfold fileOf
  have hslash : "/".toList.reverse = ['/'] := rfl
  simp only [String.toList_append, String.toList_ofList, List.reverse_append, hslash,
    List.singleton_append]
  rw [Go.takeWhile_append_cons (by decide)]
  have hall : file.reverse.takeWhile (· ≠ '/') = file.reverse := by
    rw [List.takeWhile_eq_self_iff]
    intro c hc
    have hne : c ≠ '/' := fun heq => h (heq ▸ List.mem_reverse.mp hc)
    simpa using hne
  rw [hall, List.reverse_reverse]

theorem fileOf_snapshotKey (h : Stampable t) (epoch : UInt64) :
    fileOf (snapshotKey cluster t epoch) = (snapshotFile t epoch).toList := by
  have hslash := slash_not_mem_snapshotFile h epoch
  unfold snapshotKey snapshotPrefix
  have := @fileOf_append (snapshotsPrefix ++ cluster) _ hslash
  rwa [String.ofList_toList] at this

/-- **The key of a snapshot is read back.** -/
theorem parseSnapshotKey_snapshotKey (h : Stampable t) (epoch : UInt64) :
    parseSnapshotKey (snapshotKey cluster t epoch) = some (t, epoch) :=
  parseSnapshotName_iff.mpr ⟨fileOf_snapshotKey h epoch, h⟩

theorem verify_ok_iff {h : SnapshotHeader} {key : String} :
    h.verify cluster key = .ok () ↔ (snapshotPrefix cluster).toList <+: key.toList ∧
      h.cluster = cluster ∧ parseSnapshotKey key = some (h.createdAt, h.epoch) := by
  constructor
  · intro hv
    obtain ⟨hcluster, hkey⟩ := verify_spec hv
    refine ⟨?_, hcluster, hkey⟩
    unfold SnapshotHeader.verify at hv
    by_cases hp : (snapshotPrefix cluster).toList.isPrefixOf key.toList = true
    · exact List.isPrefixOf_iff_prefix.mp hp
    · rw [Bool.not_eq_true] at hp
      rw [hp] at hv
      cases hv
  · rintro ⟨hp, hcluster, hkey⟩
    unfold SnapshotHeader.verify
    rw [List.isPrefixOf_iff_prefix.mpr hp, hkey]
    simp [hcluster]

theorem verify_iff (cluster : String) (h : SnapshotHeader) (key : String) :
    h.verify cluster key = .ok () ↔ h.cluster = cluster ∧
      (snapshotPrefix cluster).toList <+: key.toList ∧
      fileOf key = (snapshotFile h.createdAt h.epoch).toList ∧ Stampable h.createdAt := by
  have hparse : parseSnapshotKey key = some (h.createdAt, h.epoch) ↔
      fileOf key = (snapshotFile h.createdAt h.epoch).toList ∧ Stampable h.createdAt :=
    parseSnapshotName_iff
  rw [verify_ok_iff, hparse]
  tauto

theorem prefix_snapshotKey (cluster : String) (t : Int) (epoch : UInt64) :
    (snapshotPrefix cluster).toList <+: (snapshotKey cluster t epoch).toList := by
  rw [snapshotKey, String.toList_append]
  exact List.prefix_append _ _

/-- **`parseSnapshotKey` undoes `SnapshotKey`, and a header verifies under a key if and only if it is one
of the cluster, the key lies below the cluster's prefix and ends in the file name that `SnapshotKey` gives
the header's time and epoch.** So it verifies under its own key, and under none that names another epoch
or time. -/
theorem snapshot_names (cluster : String) : (∀ (t : Int) (epoch : UInt64), Stampable t →
      parseSnapshotKey (snapshotKey cluster t epoch) = some (t, epoch)) ∧
    (∀ (h : SnapshotHeader) (key : String), h.verify cluster key = .ok () ↔ h.cluster = cluster ∧
      (snapshotPrefix cluster).toList <+: key.toList ∧
      fileOf key = (snapshotFile h.createdAt h.epoch).toList ∧ Stampable h.createdAt) ∧
    (∀ h : SnapshotHeader, h.cluster = cluster → Stampable h.createdAt →
      h.verify cluster (snapshotKey cluster h.createdAt h.epoch) = .ok ()) ∧
    ∀ (h : SnapshotHeader) (other : String) (t : Int) (epoch : UInt64), Stampable t →
      h.verify cluster (snapshotKey other t epoch) = .ok () → h.createdAt = t ∧ h.epoch = epoch := by
  refine ⟨fun t epoch ht => parseSnapshotKey_snapshotKey ht epoch, verify_iff cluster, ?_, ?_⟩
  · intro h hcluster ht
    exact (verify_iff cluster h _).mpr
      ⟨hcluster, prefix_snapshotKey cluster _ _, fileOf_snapshotKey ht _, ht⟩
  · intro h other t epoch ht hv
    have hkey := (verify_spec hv).2
    rw [parseSnapshotKey_snapshotKey ht epoch, Option.some.injEq, Prod.mk.injEq] at hkey
    exact ⟨hkey.1.symm, hkey.2.symm⟩

/-- A snapshot taken at the epoch of Unix time. -/
def copied : SnapshotHeader := { cluster := "c", epoch := 1, instanceID := "i", createdAt := 0 }

theorem snapshot_names_copied : Stampable 0 ∧ copied.verify "c" (snapshotKey "c" 0 1) = .ok () := by
  have hstamp : Stampable 0 := ⟨by decide, by decide, by decide⟩
  exact ⟨hstamp, (snapshot_names "c").2.2.1 copied rfl hstamp⟩

/-- A copy in a directory below the prefix verifies. -/
theorem copy_below_verifies :
    copied.verify "c" "_mongorescue/metadata/ha/c/copy/mongorescue-19700101T000000000Z-e00000000000000000001.db.age" =
        .ok () ∧
      "_mongorescue/metadata/ha/c/copy/mongorescue-19700101T000000000Z-e00000000000000000001.db.age" ≠
        snapshotKey "c" copied.createdAt copied.epoch := by
  decide +kernel

end MongoRescue.HA.Proof.Names
