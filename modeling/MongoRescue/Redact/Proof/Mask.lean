import MongoRescue.Redact.Redact

/-!
# What the masks keep

`maskUserinfo` keeps what stands before the first `:` of the authority and what stands after the last
`@` (`maskUserinfo_eq`), and changes nothing without them (`maskUserinfo_of_not_mem`,
`maskUserinfo_of_no_colon`). `maskQuerySecrets` works on the parts between the `&` separately
(`maskFrom_append_ampersand`), writes nothing of what follows in a sensitive value
(`Swallows.maskFrom_append`), and keeps every `&` (`count_maskFrom`).
-/

namespace MongoRescue.Redact.Proof

open Go

/-! ## The userinfo -/

theorem splitUserinfo_eq {sch : Bytes} (hsch : colon ∉ sch) (body : Bytes) :
    splitUserinfo (sch ++ schemeEnd ++ body) =
      some (sch.length + 3, (lastIndexByte body atSign).map (· + (sch.length + 3))) := by
  have hlen : sch.length + 3 = (sch ++ schemeEnd).length := by simp [schemeEnd]
  rw [splitUserinfo, schemeEnd, index_append hsch, ← schemeEnd, Option.map_some, hlen, List.drop_left]

theorem slice_userinfo (sch x y : Bytes) :
    slice (sch ++ schemeEnd ++ (x ++ y)) (sch.length + 3) (x.length + (sch.length + 3)) = x := by
  have hlen : sch.length + 3 = (sch ++ schemeEnd).length := by simp [schemeEnd]
  have h := slice_append_right (sch ++ schemeEnd) (x ++ y) 0 x.length
  rw [Nat.add_zero, ← hlen, Nat.add_comm _ x.length] at h
  rw [h, slice, List.take_left, List.drop_zero]

/-- **The password goes**: from the first colon of the authority to the last `@`. -/
theorem maskUserinfo_eq {sch pre post : Bytes} (hsch : colon ∉ sch) (hpre : colon ∉ pre)
    (hpost : atSign ∉ post) (secret : Bytes) :
    maskUserinfo (sch ++ schemeEnd ++ (pre ++ colon :: secret ++ atSign :: post)) =
      sch ++ schemeEnd ++ (pre ++ colon :: mask ++ atSign :: post) := by
  have hlen : sch.length + 3 = (sch ++ schemeEnd).length := by simp [schemeEnd]
  have hdrop : (sch ++ schemeEnd ++ (pre ++ colon :: secret ++ atSign :: post)).drop
      ((pre ++ colon :: secret).length + (sch.length + 3)) = atSign :: post := by
    rw [hlen, Nat.add_comm, List.drop_length_add_append, List.drop_left]
  rw [maskUserinfo, splitUserinfo_eq hsch, lastIndexByte_append_cons _ hpost]
  simp only [Option.map_some]
  rw [slice_userinfo, hdrop, indexByte_append_cons hpre]
  simp only [List.take_left]
  rw [hlen, List.take_left]
  simp

theorem maskUserinfo_of_not_mem {sch body : Bytes} (hsch : colon ∉ sch) (h : atSign ∉ body) :
    maskUserinfo (sch ++ schemeEnd ++ body) = sch ++ schemeEnd ++ body := by
  rw [maskUserinfo, splitUserinfo_eq hsch, lastIndexByte_eq_none.mpr h]
  rfl

/-- A user without a password is kept. -/
theorem maskUserinfo_of_no_colon {sch pre post : Bytes} (hsch : colon ∉ sch) (hpre : colon ∉ pre)
    (hpost : atSign ∉ post) : maskUserinfo (sch ++ schemeEnd ++ (pre ++ atSign :: post)) =
      sch ++ schemeEnd ++ (pre ++ atSign :: post) := by
  rw [maskUserinfo, splitUserinfo_eq hsch, lastIndexByte_append_cons _ hpost]
  simp only [Option.map_some]
  rw [slice_userinfo, indexByte_eq_none.mpr hpre]

/-! ## Query parameters -/

/-- The key of a pair: it has no byte that ends one, and names a secret. -/
structure SensitiveKey (key : Bytes) : Prop where
  noEnd : ∀ b ∈ key, endsKey b = false
  sensitive : isSensitiveKey key = true

theorem endsKey_equals : endsKey equals = true := by decide

theorem endsKey_of_delimiter {d : UInt8} (h : isDelimiter d = true) : endsKey d = true := by
  simp only [isDelimiter, Bool.or_eq_true] at h
  simp only [endsKey, Bool.or_eq_true]
  tauto

theorem ne_equals_of_delimiter {d : UInt8} (h : isDelimiter d = true) : d ≠ equals := by
  rintro rfl
  exact absurd h (by decide)

theorem findIdx?_append_cons {p : UInt8 → Bool} {s : Bytes} (hs : ∀ b ∈ s, p b = false) {c : UInt8}
    (hc : p c = true) (t : Bytes) : (s ++ c :: t).findIdx? p = some s.length := by
  rw [List.findIdx?_append, List.findIdx?_eq_none_iff.mpr hs, List.findIdx?_cons, hc]
  simp

theorem sensitiveAt_eq {key : Bytes} (hkey : SensitiveKey key) (t : Bytes) :
    sensitiveAt (key ++ equals :: t) = some (key.length + 1) := by
  rw [sensitiveAt, findIdx?_append_cons hkey.noEnd endsKey_equals, Option.bind_some, List.take_left,
    if_pos]
  exact ⟨by simp, hkey.sensitive⟩

theorem sensitiveAt_spec {s : Bytes} {n : Nat} (h : sensitiveAt s = some n) :
    ∃ key t, s = key ++ equals :: t ∧ SensitiveKey key ∧ n = key.length + 1 := by
  rw [sensitiveAt, Option.bind_eq_some_iff] at h
  obtain ⟨i, hi, h⟩ := h
  split_ifs at h with hc
  cases h
  obtain ⟨hlt, -, hbefore⟩ := List.findIdx?_eq_some_iff_getElem.mp hi
  obtain ⟨hget, hsens⟩ := hc
  have hlen : (s.take i).length = i := by
    rw [List.length_take]
    omega
  rw [List.getElem?_eq_getElem hlt, Option.some.injEq] at hget
  refine ⟨s.take i, s.drop (i + 1), ?_, ⟨fun b hb => ?_, hsens⟩, by rw [hlen]⟩
  · rw [← hget, List.getElem_cons_drop, List.take_append_drop]
  · obtain ⟨j, hj, rfl⟩ := List.mem_iff_getElem.mp hb
    rw [List.getElem_take]
    rw [hlen] at hj
    simpa using hbefore j hj

theorem sensitiveAt_append {c : UInt8} (hc : endsKey c = true) (hne : c ≠ equals) (s t : Bytes) :
    sensitiveAt (s ++ c :: t) = sensitiveAt s := by
  rw [sensitiveAt, sensitiveAt, List.findIdx?_append]
  cases hs : s.findIdx? endsKey with
  | none =>
    rw [List.findIdx?_cons, hc]
    simp [hne]
  | some i =>
    have hlt := (List.findIdx?_eq_some_iff_getElem.mp hs).1
    simp only [Option.some_or, Option.bind_some]
    rw [List.getElem?_append_left hlt, List.take_append_of_le_length (by omega)]

theorem sensitiveAt_append_plain (s : Bytes) {t : Bytes} (ht : ∀ b ∈ t, endsKey b = false) :
    sensitiveAt (s ++ t) = sensitiveAt s := by
  rw [sensitiveAt, sensitiveAt, List.findIdx?_append, List.findIdx?_eq_none_iff.mpr ht]
  cases hs : s.findIdx? endsKey with
  | none => rfl
  | some i =>
    have hlt := (List.findIdx?_eq_some_iff_getElem.mp hs).1
    simp only [Option.some_or, Option.bind_some]
    rw [List.getElem?_append_left hlt, List.take_append_of_le_length (by omega)]

theorem maskFrom_length (s : Bytes) : maskFrom s.length s = [] := by
  induction s with
  | nil => rfl
  | cons b s ih => exact ih

theorem maskFrom_plain {s : Bytes} (h : ∀ b ∈ s, isDelimiter b = false) : maskFrom 0 s = s := by
  induction s with
  | nil => rfl
  | cons b s ih =>
    rw [maskFrom, h b (by simp), ih fun x hx => h x (by simp [hx])]
    simp

theorem maskQuerySecrets_eq (s : Bytes) : maskQuerySecrets s = maskFrom 0 s := by
  rw [maskQuerySecrets]
  split_ifs with h
  · rfl
  · refine (maskFrom_plain fun b hb => ?_).symm
    simp only [List.any_eq_true, not_exists, not_and] at h
    simpa using h b hb

/-- A text that ends in the value of a sensitive parameter. -/
def Swallows (s : Bytes) : Prop :=
  ∃ x d key value, s = x ++ d :: (key ++ equals :: value) ∧ isDelimiter d = true ∧ SensitiveKey key ∧
    ∀ b ∈ value, endsValue b = false

theorem Swallows.cons {s : Bytes} (h : Swallows s) (c : UInt8) : Swallows (c :: s) := by
  obtain ⟨x, d, key, value, rfl, h⟩ := h
  exact ⟨c :: x, d, key, value, rfl, h⟩

/-- **A text is masked in two parts** where no key and no value reaches from one into the other. -/
theorem maskFrom_append {s t : Bytes} (hkey : ∀ x, sensitiveAt (x ++ t) = sensitiveAt x)
    (hval : Swallows s → t.takeWhile (fun b => !endsValue b) = []) {k : Nat} (hk : k ≤ s.length) :
    maskFrom k (s ++ t) = maskFrom k s ++ maskFrom 0 t := by
  induction s generalizing k with
  | nil =>
    obtain rfl : k = 0 := by simpa using hk
    rw [maskFrom]
    rfl
  | cons c s ih =>
    have hval' : Swallows s → t.takeWhile (fun b => !endsValue b) = [] := fun h => hval (h.cons c)
    cases k with
    | succ k => exact ih hval' (by simpa using hk)
    | zero =>
      rw [List.cons_append, maskFrom, maskFrom, hkey s]
      cases hc : isDelimiter c with
      | false =>
        simp only [Bool.false_eq_true, if_false, List.cons_append]
        rw [ih hval' (Nat.zero_le _)]
      | true =>
        simp only [if_true]
        cases hs : sensitiveAt s with
        | none =>
          simp only [List.cons_append]
          rw [ih hval' (Nat.zero_le _)]
        | some n =>
          obtain ⟨key, rest, rfl, hsens, rfl⟩ := sensitiveAt_spec hs
          have hdrop (r : Bytes) : (key ++ equals :: r).drop (key.length + 1) = r := by
            rw [List.drop_length_add_append]
            rfl
          have hvalue : (rest ++ t).takeWhile (fun b => !endsValue b) =
              rest.takeWhile fun b => !endsValue b := by
            rw [List.takeWhile_append]
            split_ifs with hall
            · have hwhole := (List.takeWhile_prefix fun b => !endsValue b).eq_of_length hall
              have hsw : Swallows (c :: (key ++ equals :: rest)) := by
                refine ⟨[], c, key, rest, rfl, hc, hsens, fun b hb => ?_⟩
                rw [← hwhole] at hb
                simpa using List.mem_takeWhile_imp hb
              rw [hval hsw, List.append_nil, hwhole]
            · rfl
          have hle := (List.takeWhile_prefix (l := rest) fun b => !endsValue b).length_le
          have htake : (key ++ equals :: (rest ++ t)).take (key.length + 1) =
              (key ++ equals :: rest).take (key.length + 1) := by
            rw [List.take_length_add_append, List.take_length_add_append]
            rfl
          simp only [List.append_assoc, List.cons_append, hdrop, hvalue, htake]
          have := ih hval' (k := key.length + 1 + (rest.takeWhile fun b => !endsValue b).length) (by
            rw [List.length_append, List.length_cons]
            omega)
          rw [List.append_assoc, List.cons_append] at this
          rw [this]

theorem maskFrom_sensitive {d : UInt8} (hd : isDelimiter d = true) {key value : Bytes}
    (hkey : SensitiveKey key) (hvalue : ∀ b ∈ value, endsValue b = false) :
    maskFrom 0 (d :: (key ++ equals :: value)) = d :: (key ++ equals :: mask) := by
  have hdrop : (key ++ equals :: value).drop (key.length + 1) = value := by
    rw [List.drop_length_add_append]
    rfl
  have htake : (key ++ equals :: value).take (key.length + 1) = key ++ [equals] := by
    rw [List.take_length_add_append]
    rfl
  have hall : value.takeWhile (fun b => !endsValue b) = value :=
    List.takeWhile_eq_self_iff.mpr fun b hb => by rw [hvalue b hb]; rfl
  have hlen : (key ++ equals :: value).length = key.length + 1 + value.length := by
    rw [List.length_append, List.length_cons]
    omega
  rw [maskFrom, hd, if_pos rfl, sensitiveAt_eq hkey]
  simp only [hdrop, htake, hall]
  rw [← hlen, maskFrom_length]
  simp

theorem maskFrom_append_ampersand (s t : Bytes) :
    maskFrom 0 (s ++ ampersand :: t) = maskFrom 0 s ++ maskFrom 0 (ampersand :: t) :=
  maskFrom_append (fun x => sensitiveAt_append (by decide) (by decide) x t)
    (fun _ => by rw [List.takeWhile_cons_of_neg (by decide)]) (Nat.zero_le _)

/-- **What follows in a sensitive value is not written.** -/
theorem Swallows.maskFrom_append {s : Bytes} (h : Swallows s) {t : Bytes}
    (ht : ∀ b ∈ t, endsValue b = false) : maskFrom 0 (s ++ t) = maskFrom 0 s := by
  induction hn : s.length using Nat.strong_induction_on generalizing s t with
  | _ n ih =>
    obtain ⟨x, d, key, value, rfl, hd, hkey, hvalue⟩ := h
    have hsplit : x ++ d :: (key ++ equals :: value) ++ t = x ++ d :: (key ++ equals :: (value ++ t)) := by
      simp
    have hvalue' : ∀ b ∈ value ++ t, endsValue b = false := by
      intro b hb
      exact (List.mem_append.mp hb).elim (hvalue b) (ht b)
    rw [hsplit]
    by_cases hx : Swallows x ∧ d ≠ ampersand
    · -- the delimiter lies in a value itself
      have hkeyValue : ∀ b ∈ key, endsValue b = false := by
        intro b hb
        have := hkey.noEnd b hb
        simp only [endsKey, Bool.or_eq_false_iff] at this
        simp [endsValue, this.1.1.2, this.2]
      have hdValue : endsValue d = false := by
        simp only [isDelimiter, Bool.or_eq_true, beq_iff_eq] at hd
        obtain rfl : d = question := hd.resolve_right hx.2
        decide
      have hall {v : Bytes} (hv : ∀ b ∈ v, endsValue b = false) :
          ∀ b ∈ d :: (key ++ equals :: v), endsValue b = false := by
        intro b hb
        rcases List.mem_cons.mp hb with rfl | hb
        · exact hdValue
        · rcases List.mem_append.mp hb with hb | hb
          · exact hkeyValue b hb
          · rcases List.mem_cons.mp hb with rfl | hb
            · decide
            · exact hv b hb
      have hlt : x.length < n := by
        rw [← hn, List.length_append, List.length_cons]
        omega
      rw [ih _ hlt hx.1 (hall hvalue') rfl, ih _ hlt hx.1 (hall hvalue) rfl]
    · have hparts {v : Bytes} : maskFrom 0 (x ++ d :: (key ++ equals :: v)) =
          maskFrom 0 x ++ maskFrom 0 (d :: (key ++ equals :: v)) := by
        refine Proof.maskFrom_append (fun y => sensitiveAt_append (endsKey_of_delimiter hd)
          (ne_equals_of_delimiter hd) y _) (fun hsw => ?_) (Nat.zero_le _)
        obtain rfl : d = ampersand := by
          by_contra hne
          exact hx ⟨hsw, hne⟩
        rw [List.takeWhile_cons_of_neg (by decide)]
      rw [hparts, hparts, maskFrom_sensitive hd hkey hvalue', maskFrom_sensitive hd hkey hvalue]

theorem maskFrom_append_plain {s t : Bytes} (hs : ¬ Swallows s)
    (ht : ∀ b ∈ t, endsKey b = false) : maskFrom 0 (s ++ t) = maskFrom 0 s ++ t := by
  have hdelim : ∀ b ∈ t, isDelimiter b = false := by
    intro b hb
    have := ht b hb
    simp only [endsKey, Bool.or_eq_false_iff] at this
    simp [isDelimiter, this.1.1.2, this.1.2]
  rw [maskFrom_append (fun x => sensitiveAt_append_plain x ht) (fun h => absurd h hs) (Nat.zero_le _),
    maskFrom_plain hdelim]

theorem count_maskFrom {s : Bytes} {k : Nat} (hk : k ≤ s.length) :
    (maskFrom k s).count ampersand = (s.drop k).count ampersand := by
  induction s generalizing k with
  | nil =>
    obtain rfl : k = 0 := by simpa using hk
    rw [maskFrom]
    rfl
  | cons c s ih =>
    cases k with
    | succ k => exact ih (by simpa using hk)
    | zero =>
      rw [maskFrom, List.drop_zero]
      have hplain : (c :: maskFrom 0 s).count ampersand = (c :: s).count ampersand := by
        rw [List.count_cons, List.count_cons, ih (Nat.zero_le _), List.drop_zero]
      cases hc : isDelimiter c with
      | false => exact hplain
      | true =>
        simp only [if_true]
        cases hs : sensitiveAt s with
        | none => exact hplain
        | some n =>
          obtain ⟨key, rest, rfl, -, rfl⟩ := sensitiveAt_spec hs
          have hdrop : (key ++ equals :: rest).drop (key.length + 1) = rest := by
            rw [List.drop_length_add_append]
            rfl
          have htake : (key ++ equals :: rest).take (key.length + 1) = key ++ [equals] := by
            rw [List.take_length_add_append]
            rfl
          have hmask : mask.count ampersand = 0 := by decide
          have hne : (equals == ampersand) = false := by decide
          have hle := (List.takeWhile_prefix (l := rest) fun b => !endsValue b).length_le
          have hzero : (rest.takeWhile fun b => !endsValue b).count ampersand = 0 := by
            rw [List.count_eq_zero]
            intro hmem
            exact absurd (List.mem_takeWhile_imp hmem) (by decide)
          have hcount : (rest.drop (rest.takeWhile fun b => !endsValue b).length).count ampersand =
              rest.count ampersand := by
            have hsplit := List.takeWhile_append_dropWhile (p := fun b => !endsValue b) (l := rest)
            generalize rest.takeWhile (fun b => !endsValue b) = value at hzero hsplit ⊢
            rw [← hsplit, List.drop_left, List.count_append, hzero, Nat.zero_add]
          simp only [hdrop, htake]
          rw [List.count_cons, List.count_cons, List.count_append, List.count_append, hmask,
            ih (by rw [List.length_append, List.length_cons]; omega), ← List.drop_drop, hdrop, hcount,
            List.count_append, List.count_append, List.count_cons, List.count_cons]
          simp [hne]

end MongoRescue.Redact.Proof
