import Mathlib.Data.Set.List
import MongoRescue.Redact.Proof.Mask
import MongoRescue.Redact.Proof.Parts

/-!
# When a redacted connection string does not depend on its secrets

`Validate` ends the userinfo at the last `@` before the first `/` or `?`, and `redact` at the last `@` of
the whole. So the secrets of a connection string are hidden exactly if they are shielded
(`redacted_same_iff`): an `@` after the sensitive options hides them with a colon before them
(`uri_between`), one alone is masked as a query parameter (`uri_single`, `uri_inSensitive`), and
otherwise the number of the options that are left, or the secret itself, shows
(`colon_of_hidden`, `single_of_hidden`, `inSensitive_of_hidden`).
-/

namespace MongoRescue.MongoUri.Proof

open Go
open Redact (colon atSign ampersand question equals hash slash percent schemeEnd mask uri
  maskUserinfo maskQuerySecrets maskFrom isSensitiveKey sensitiveQueryKeys queryUnescape unhex hasLower
  lowerASCII endsKey endsValue isDelimiter)
open Redact.Proof (SensitiveKey Swallows)

/-! ## Secrets -/

/-- The name of an option. -/
def name (o : Bytes) : Bytes := o.takeWhile (· != equals)

/-- An option whose value is a secret. -/
def isSecret (o : Bytes) : Bool := isSensitiveKey (name o)

/-- An option without its secret. -/
def blankOption (o : Bytes) : Bytes := if isSecret o then name o ++ [equals] else o

/-- A userinfo without its password. -/
def blankUserinfo (ui : Bytes) : Bytes :=
  match indexByte ui colon with
  | some i => ui.take (i + 1)
  | none => ui

/-- Two connection strings differ at most in the password and in the values of sensitive options. -/
structure SameButSecrets (p p' : Parts) : Prop where
  scheme : p'.scheme = p.scheme
  userinfo : p'.userinfo.map blankUserinfo = p.userinfo.map blankUserinfo
  hosts : p'.hosts = p.hosts
  path : p'.path = p.path
  query : p'.query.isSome = p.query.isSome
  options : p'.options.map blankOption = p.options.map blankOption

/-! ## The names of sensitive options -/

/-- A byte that is in no name of a sensitive option, escaped or not. -/
structure Foreign (b : UInt8) : Prop where
  ascii : b.toNat < 128
  notPercent : b ≠ percent
  notPlus : b ≠ '+'.toUInt8
  notHex : unhex b = none
  lower : lowerASCII (.char (Char.ofNat b.toNat)) = some (Char.ofNat b.toNat)
  key : ∀ k ∈ sensitiveQueryKeys, Char.ofNat b.toNat ∉ k.toList

theorem foreign_colon : Foreign colon := by constructor <;> decide

theorem foreign_atSign : Foreign atSign := by constructor <;> decide

theorem foreign_question : Foreign question := by constructor <;> decide

theorem queryUnescape_cons {c : UInt8} (hc : c ≠ percent) (s : Bytes) : queryUnescape (c :: s) =
      (queryUnescape s).map ((if c = '+'.toUInt8 then ' '.toUInt8 else c) :: ·) := by
  conv_lhs => unfold queryUnescape
  simp only [if_neg hc]
  cases queryUnescape s <;> rfl

theorem queryUnescape_percent {a b : UInt8} {s d : Bytes}
    (h : queryUnescape (percent :: a :: b :: s) = some d) :
    ∃ hi lo t, unhex a = some hi ∧ unhex b = some lo ∧ queryUnescape s = some t ∧
      d = (16 * hi + lo) :: t := by
  unfold queryUnescape at h
  simp only [if_true, Option.bind_eq_bind, Option.bind_eq_some_iff, Option.pure_def,
    Option.some.injEq] at h
  obtain ⟨hi, hhi, lo, hlo, t, ht, rfl⟩ := h
  exact ⟨hi, lo, t, hhi, hlo, ht, rfl⟩

variable {b : UInt8}

theorem mem_queryUnescape (hb : Foreign b) {s d : Bytes} (h : queryUnescape s = some d)
    (hmem : b ∈ s) : b ∈ d := by
  induction hn : s.length using Nat.strong_induction_on generalizing s d with
  | _ n ih =>
    cases s with
    | nil => cases hmem
    | cons c s =>
      by_cases hc : c = percent
      · subst hc
        have hs : b ∈ s := (List.mem_cons.mp hmem).resolve_left hb.notPercent
        cases s with
        | nil => cases hs
        | cons x s =>
          cases s with
          | nil =>
            unfold queryUnescape at h
            simp at h
          | cons y s =>
            obtain ⟨hi, lo, t, hx, hy, ht, rfl⟩ := queryUnescape_percent h
            -- a digit of the escape is not the byte
            have hrest : b ∈ s := by
              rcases List.mem_cons.mp hs with rfl | hs
              · rw [hb.notHex] at hx
                cases hx
              · rcases List.mem_cons.mp hs with rfl | hs
                · rw [hb.notHex] at hy
                  cases hy
                · exact hs
            have hlt : s.length < n := by
              rw [← hn]
              simp only [List.length_cons]
              omega
            exact List.mem_cons_of_mem _ (ih s.length hlt ht hrest rfl)
      · rw [queryUnescape_cons hc, Option.map_eq_some_iff] at h
        obtain ⟨t, ht, rfl⟩ := h
        rcases List.mem_cons.mp hmem with rfl | hs
        · rw [if_neg hb.notPlus]
          simp
        · have hlt : s.length < n := by
            rw [← hn, List.length_cons]
            omega
          exact List.mem_cons_of_mem _ (ih s.length hlt ht hs rfl)

theorem mapM_mem {α β : Type} {f : α → Option β} {l : List α} {r : List β} (h : l.mapM f = some r) {a : α}
    (ha : a ∈ l) : ∃ b ∈ r, f a = some b := by
  induction l generalizing r with
  | nil => cases ha
  | cons x l ih =>
    rw [List.mapM_cons, Option.bind_eq_bind, Option.bind_eq_some_iff] at h
    obtain ⟨y, hy, h⟩ := h
    rw [Option.bind_eq_bind, Option.bind_eq_some_iff] at h
    obtain ⟨ys, hys, h⟩ := h
    cases h
    rcases List.mem_cons.mp ha with rfl | ha
    · exact ⟨y, by simp, hy⟩
    · obtain ⟨b, hb, hf⟩ := ih hys ha
      exact ⟨b, by simp [hb], hf⟩

theorem not_mem_of_hasLower (hb : Foreign b) {d : Bytes} (h : hasLower d = true) : b ∉ d := by
  intro hmem
  rw [hasLower, Option.any_eq_true] at h
  obtain ⟨cs, hcs, hkey⟩ := h
  -- every rune is a character, so the byte is one
  obtain ⟨ds, rfl⟩ : ∃ ds, d = utf8 ds := by
    have hall : runes d ∈ Set.range (List.map Rune.char) := by
      rw [Set.range_list_map]
      intro r hr
      obtain ⟨c, -, hc⟩ := mapM_mem hcs hr
      cases r with
      | char c => exact ⟨c, rfl⟩
      | invalid x => cases hc
    obtain ⟨ds, hds⟩ := hall
    refine ⟨ds, runes_injective ?_⟩
    rw [← hds, runes_utf8]
  obtain ⟨s, t, hst⟩ := List.append_of_mem hmem
  obtain ⟨ds₁, ds₂, rfl, -, -⟩ := utf8_eq_append_cons hb.ascii hst
  obtain ⟨c, hc, hlow⟩ := mapM_mem hcs (a := .char (Char.ofNat b.toNat)) (by rw [runes_utf8]; simp)
  rw [hb.lower, Option.some.injEq] at hlow
  subst hlow
  exact hb.key _ (by simpa using hkey) (by simpa using hc)

theorem Foreign.not_mem (hb : Foreign b) {key : Bytes} (h : isSensitiveKey key = true) :
    b ∉ key := by
  intro hmem
  rw [isSensitiveKey] at h
  refine not_mem_of_hasLower hb h ?_
  cases hd : queryUnescape key with
  | none => exact hmem
  | some d => exact mem_queryUnescape hb hd hmem

/-! ## Options -/

theorem name_append (nm v : Bytes) (h : equals ∉ nm) : name (nm ++ equals :: v) = nm := by
  rw [name, List.takeWhile_append_of_pos]
  · rw [List.takeWhile_cons_of_neg (by decide), List.append_nil]
  · intro b hb
    rw [bne_iff_ne]
    rintro rfl
    exact h hb

theorem equals_not_mem_name (o : Bytes) : equals ∉ name o := by
  intro h
  exact absurd (List.mem_takeWhile_imp h) (by decide)

theorem hash_not_mem {s : Bytes} (h : validText s true = true) : hash ∉ s := by
  simp only [validText, Bool.and_eq_true, Bool.not_eq_true'] at h
  intro hmem
  rw [List.contains_iff_mem.mpr hmem] at h
  exact absurd h.1.2 (by simp)

theorem ValidOption.endsValue {o : Bytes} (h : ValidOption o) (hb : b ∈ o) :
    Redact.endsValue b = false := by
  have hhash := hash_not_mem h.text
  simp only [Redact.endsValue, Bool.or_eq_false_iff, beq_eq_false_iff_ne]
  refine ⟨?_, ?_⟩
  · rintro rfl
    exact h.single hb
  · rintro rfl
    exact hhash hb

theorem secret_spec {o : Bytes} (hv : ValidOption o) (hs : isSecret o = true) :
    SensitiveKey (name o) ∧ ∃ v, o = name o ++ equals :: v := by
  have hne : o ≠ [] := by
    rintro rfl
    exact absurd hs (by decide)
  have heq : equals ∈ o := by
    have h := hv.valid
    rw [validOption, List.isEmpty_eq_false_iff.mpr hne, Bool.false_or, Bool.and_eq_true] at h
    exact List.contains_iff_mem.mp h.1
  obtain ⟨nm, v, ho, hnm⟩ := List.eq_append_cons_of_mem heq
  have hname : name o = nm := by rw [ho, name_append nm v hnm]
  have hsub : ∀ b ∈ nm, b ∈ o := by
    intro b hb
    rw [ho]
    simp [hb]
  have hsens : isSensitiveKey nm = true := by rw [← hname]; exact hs
  rw [hname]
  refine ⟨⟨fun b hb => ?_, hsens⟩, v, ho⟩
  have hval := hv.endsValue (hsub b hb)
  simp only [Redact.endsValue, Bool.or_eq_false_iff] at hval
  simp only [endsKey, hval.1, hval.2, Bool.or_false, Bool.or_eq_false_iff, beq_eq_false_iff_ne]
  refine ⟨?_, ?_⟩
  · rintro rfl
    exact hnm hb
  · rintro rfl
    exact foreign_question.not_mem hsens hb

theorem isSecret_append {nm : Bytes} (h : SensitiveKey nm) (v : Bytes) :
    name (nm ++ equals :: v) = nm ∧ isSecret (nm ++ equals :: v) = true := by
  have hno : equals ∉ nm := fun hmem => absurd (h.noEnd _ hmem) (by decide)
  rw [isSecret, name_append nm v hno]
  exact ⟨rfl, h.sensitive⟩

theorem blankOption_secret {nm : Bytes} (h : SensitiveKey nm) (v : Bytes) :
    blankOption (nm ++ equals :: v) = nm ++ [equals] := by
  rw [blankOption, (isSecret_append h v).2, if_pos rfl, (isSecret_append h v).1]

/-- An option that is not sensitive is the same in both. -/
theorem eq_of_blankOption {o o' : Bytes} (ho : isSecret o = false) (h : blankOption o' = blankOption o) :
    o' = o := by
  have hblank : blankOption o = o := by rw [blankOption, ho]; rfl
  rw [hblank] at h
  cases hs : isSecret o' with
  | false => rwa [blankOption, hs] at h
  | true =>
    rw [blankOption, hs, if_pos rfl] at h
    have : isSecret o = true := by
      rw [isSecret, ← h, name_append _ _ (equals_not_mem_name o')]
      exact hs
    rw [ho] at this
    cases this

theorem map_blankOption_eq {os os' : List Bytes} (hos : ∀ o ∈ os, isSecret o = false)
    (h : os'.map blankOption = os.map blankOption) : os' = os := by
  induction os generalizing os' with
  | nil => simpa using h
  | cons o os ih =>
    cases os' with
    | nil => cases h
    | cons o' os' =>
      rw [List.map_cons, List.map_cons, List.cons.injEq] at h
      rw [eq_of_blankOption (hos o (by simp)) h.1, ih (fun x hx => hos x (by simp [hx])) h.2]

/-- A sensitive option has the same name in both. -/
theorem secret_of_blankOption {o o' : Bytes} (ho : isSecret o = true)
    (h : blankOption o' = blankOption o) : isSecret o' = true ∧ name o' = name o := by
  cases hs : isSecret o' with
  | false =>
    rw [eq_of_blankOption hs h.symm] at ho
    rw [hs] at ho
    cases ho
  | true =>
    rw [blankOption, blankOption, hs, ho, if_pos rfl, if_pos rfl] at h
    exact ⟨rfl, List.append_cancel_right h⟩

/-! ## The userinfo -/

/-- What stands after the last `@`. -/
def afterAt (s : Bytes) : Bytes := s.rtakeWhile (· != atSign)

theorem afterAt_append_cons (s : Bytes) {t : Bytes} (ht : atSign ∉ t) :
    afterAt (s ++ atSign :: t) = t := by
  have hall : ∀ b ∈ t, (b != atSign) = true := by
    intro b hb
    rw [bne_iff_ne]
    rintro rfl
    exact ht hb
  rw [afterAt, List.rtakeWhile, List.reverse_append, List.reverse_cons,
    List.append_assoc, List.takeWhile_append_of_pos fun b hb => hall b (by simpa using hb),
    List.singleton_append, List.takeWhile_cons_of_neg (by simp), List.append_nil, List.reverse_reverse]

theorem afterAt_of_not_mem {s : Bytes} (h : atSign ∉ s) : afterAt s = s := by
  rw [afterAt, List.rtakeWhile_eq_self_iff]
  intro b hb
  rw [bne_iff_ne]
  rintro rfl
  exact h hb

theorem afterAt_append {t : Bytes} (ht : atSign ∈ t) (s : Bytes) : afterAt (s ++ t) = afterAt t := by
  obtain ⟨a, b, rfl, hb⟩ := exists_last ht
  rw [← List.append_assoc, afterAt_append_cons _ hb, afterAt_append_cons _ hb]

theorem afterAt_append_of_not_mem (s : Bytes) {t : Bytes} (ht : atSign ∉ t) :
    afterAt (s ++ t) = afterAt s ++ t := by
  by_cases hs : atSign ∈ s
  · obtain ⟨a, b, rfl, hb⟩ := exists_last hs
    have hbt : atSign ∉ b ++ t := by
      rw [List.mem_append, not_or]
      exact ⟨hb, ht⟩
    rw [List.append_assoc, List.cons_append, afterAt_append_cons _ hbt, afterAt_append_cons _ hb]
  · have hst : atSign ∉ s ++ t := by
      rw [List.mem_append, not_or]
      exact ⟨hs, ht⟩
    rw [afterAt_of_not_mem hst, afterAt_of_not_mem hs]

theorem mem_of_mem_afterAt {s : Bytes} (h : b ∈ afterAt s) : b ∈ s :=
  (List.rtakeWhile_suffix _ s).subset h

variable {scheme : Bytes} (hs : IsScheme scheme)
include hs

/-- **What is masked in the userinfo**: what stands between the first colon and the last `@`. -/
theorem maskUserinfo_colon {pre : Bytes} (hpre : colon ∉ pre) {z : Bytes} (hz : atSign ∈ z) :
    maskUserinfo (scheme ++ (pre ++ colon :: z)) =
      scheme ++ (pre ++ colon :: mask ++ atSign :: afterAt z) := by
  obtain ⟨sch, rfl, hsch⟩ := hs.eq
  obtain ⟨a, b, rfl, hb⟩ := exists_last hz
  rw [afterAt_append_cons a hb, ← Redact.Proof.maskUserinfo_eq hsch hpre hb a]
  simp

theorem maskUserinfo_of_colon_not_mem {body : Bytes} (h : colon ∉ body) :
    maskUserinfo (scheme ++ body) = scheme ++ body := by
  obtain ⟨sch, rfl, hsch⟩ := hs.eq
  by_cases hat : atSign ∈ body
  · obtain ⟨a, b, rfl, hb⟩ := exists_last hat
    exact Redact.Proof.maskUserinfo_of_no_colon hsch (fun hc => h (by simp [hc])) hb
  · exact Redact.Proof.maskUserinfo_of_not_mem hsch hat

/-- A colon that no `@` follows starts no password. -/
theorem maskUserinfo_of_at_not_mem {pre : Bytes} (hpre : colon ∉ pre) {z : Bytes} (hz : atSign ∉ z) :
    maskUserinfo (scheme ++ (pre ++ colon :: z)) = scheme ++ (pre ++ colon :: z) := by
  obtain ⟨sch, rfl, hsch⟩ := hs.eq
  have hne : atSign ≠ colon := by decide
  by_cases hat : atSign ∈ pre
  · obtain ⟨a, b, rfl, hb⟩ := exists_last hat
    have hpost : atSign ∉ b ++ colon :: z := by simp [hb, hz, hne]
    have ha : colon ∉ a := fun hc => hpre (by simp [hc])
    rw [List.append_assoc a, List.cons_append]
    exact Redact.Proof.maskUserinfo_of_no_colon hsch ha hpost
  · exact Redact.Proof.maskUserinfo_of_not_mem hsch (by simp [hat, hz, hne])

omit hs

theorem blankUserinfo_of_not_mem {ui : Bytes} (h : colon ∉ ui) : blankUserinfo ui = ui := by
  rw [blankUserinfo, indexByte_eq_none.mpr h]

theorem blankUserinfo_colon {user : Bytes} (h : colon ∉ user) (pw : Bytes) :
    blankUserinfo (user ++ colon :: pw) = user ++ [colon] := by
  rw [blankUserinfo, indexByte_append_cons h]
  simp only
  rw [List.take_length_add_append]
  rfl

/-- Two texts whose passwords may differ: they are the same, or an `@` follows their first colon. -/
def SameButPassword (s s' : Bytes) : Prop :=
  s' = s ∨ ∃ pre z z', s = pre ++ colon :: z ∧ s' = pre ++ colon :: z' ∧ colon ∉ pre ∧ atSign ∈ z ∧
    atSign ∈ z' ∧ afterAt z' = afterAt z

theorem sameButPassword_userinfo {ui ui' : Option Bytes}
    (h : ui'.map blankUserinfo = ui.map blankUserinfo) (t : Bytes) :
    SameButPassword (userinfoText ui ++ t) (userinfoText ui' ++ t) := by
  cases ui with
  | none =>
    obtain rfl : ui' = none := by simpa using h
    exact .inl rfl
  | some x =>
    cases ui' with
    | none => cases h
    | some x' =>
      rw [Option.map_some, Option.map_some, Option.some.injEq] at h
      by_cases hx : colon ∈ x
      · obtain ⟨user, pw, rfl, huser⟩ := List.eq_append_cons_of_mem hx
        rw [blankUserinfo_colon huser] at h
        have hx' : colon ∈ x' := by
          by_contra hno
          rw [blankUserinfo_of_not_mem hno] at h
          rw [h] at hno
          simp at hno
        obtain ⟨user', pw', rfl, huser'⟩ := List.eq_append_cons_of_mem hx'
        rw [blankUserinfo_colon huser'] at h
        obtain rfl := List.append_cancel_right h
        have hat (w : Bytes) : afterAt (w ++ atSign :: t) = afterAt (atSign :: t) :=
          afterAt_append (by simp) w
        refine .inr ⟨user', pw ++ atSign :: t, pw' ++ atSign :: t, ?_, ?_, huser, by simp, by simp, ?_⟩
        · simp [userinfoText]
        · simp [userinfoText]
        · rw [hat, hat]
      · rw [blankUserinfo_of_not_mem hx] at h
        have hx' : colon ∉ x' := by
          intro hmem
          obtain ⟨user', pw', rfl, huser'⟩ := List.eq_append_cons_of_mem hmem
          rw [blankUserinfo_colon huser'] at h
          rw [← h] at hx
          simp at hx
        rw [blankUserinfo_of_not_mem hx'] at h
        exact .inl (by rw [h])

theorem SameButPassword.eq_of_not_mem {s s' : Bytes} (h : SameButPassword s s') (hs : colon ∉ s) :
    s' = s := by
  rcases h with h | ⟨pre, z, z', rfl, -⟩
  · exact h
  · simp at hs

/-- A first colon stands at the same place in both. -/
theorem SameButPassword.colon {s s' pre z : Bytes} (h : SameButPassword s s')
    (hs : s = pre ++ colon :: z) (hpre : colon ∉ pre) :
    ∃ z', s' = pre ++ Redact.colon :: z' ∧ afterAt z' = afterAt z ∧ (atSign ∈ z' ↔ atSign ∈ z) := by
  rcases h with rfl | ⟨pre₁, z₁, z', hs₁, rfl, hpre₁, hz₁, hz', hafter⟩
  · exact ⟨z, hs, rfl, Iff.rfl⟩
  · rw [hs] at hs₁
    obtain ⟨rfl, rfl⟩ : pre = pre₁ ∧ z = z₁ := by
      have hindex := congrArg (indexByte · Redact.colon) hs₁
      simp only [indexByte_append_cons hpre, indexByte_append_cons hpre₁, Option.some.injEq] at hindex
      obtain ⟨h1, h2⟩ := List.append_inj hs₁ hindex
      exact ⟨h1, by simpa using h2⟩
    exact ⟨z', rfl, hafter, by simp [hz₁, hz']⟩

include hs in
/-- A connection string whose only secret is its password is redacted the same. -/
theorem uri_sameButPassword {s s' : Bytes} (h : SameButPassword s s') :
    uri (scheme ++ s') = uri (scheme ++ s) := by
  rcases h with rfl | ⟨pre, z, z', rfl, rfl, hpre, hz, hz', hafter⟩
  · rfl
  · rw [uri, uri, maskUserinfo_colon hs hpre hz, maskUserinfo_colon hs hpre hz', hafter]

/-! ## Sensitive options in their connection string -/

/-- The sensitive options. -/
def secrets (p : Parts) : List Bytes := p.options.filter isSecret

/-- What stands between the scheme and the first sensitive option. -/
def front (p : Parts) : Bytes :=
  userinfoText p.userinfo ++
    (p.hosts ++ p.path ++ question :: preceding (p.options.takeWhile fun o => !isSecret o))

/-- What stands after the last sensitive option. -/
def back (p : Parts) : Bytes := following (p.options.rtakeWhile fun o => !isSecret o)

/-- A connection string whose first sensitive option is `nm=v`, between the options `os` and `more`. -/
structure FirstSecret (p : Parts) (os : List Bytes) (nm v : Bytes) (more : List Bytes) : Prop where
  query : p.query.isSome
  options : p.options = os ++ (nm ++ equals :: v) :: more
  before : ∀ o ∈ os, isSecret o = false
  key : SensitiveKey nm

theorem exists_firstSecret {u : Bytes} {p : Parts} (hv : valid u = true) (hp : parts u = some p)
    (h : secrets p ≠ []) : ∃ os nm v more, FirstSecret p os nm v more := by
  obtain ⟨o, ho⟩ := List.exists_mem_of_ne_nil _ h
  obtain ⟨hmem, hsec⟩ := List.mem_filter.mp ho
  have hquery : p.query.isSome := by
    by_contra hnone
    rw [Option.not_isSome_iff_eq_none] at hnone
    rw [Parts.options, hnone] at hmem
    obtain rfl : o = [] := by simpa using hmem
    exact absurd hsec (by decide)
  have hdrop : p.options.dropWhile (fun o => !isSecret o) ≠ [] := by
    rw [Ne, List.dropWhile_eq_nil_iff]
    intro hall
    have := hall o hmem
    rw [hsec] at this
    cases this
  obtain ⟨first, more, hfirst⟩ := List.exists_cons_of_ne_nil hdrop
  have hsplit := List.takeWhile_append_dropWhile (p := fun o => !isSecret o) (l := p.options)
  rw [hfirst] at hsplit
  have hhead : (p.options.dropWhile fun o => !isSecret o).head hdrop = first := by
    rw [List.head_eq_iff_head?_eq_some, hfirst]
    rfl
  have hsecret := List.head_dropWhile_not (fun o => !isSecret o) hdrop
  rw [hhead, Bool.not_eq_false'] at hsecret
  have hvalid := validOption_of_valid hv hp (o := first) (by rw [← hsplit]; simp)
  obtain ⟨hkey, v, hv⟩ := secret_spec hvalid hsecret
  refine ⟨_, name first, v, more, hquery, by rw [← hv]; exact hsplit.symm, fun o ho => ?_, hkey⟩
  simpa using List.mem_takeWhile_imp ho

theorem SameButSecrets.back {p p' : Parts} (h : SameButSecrets p p') : back p' = back p := by
  have htake {l l' : List Bytes} (hl : l'.map blankOption = l.map blankOption) :
      l'.takeWhile (fun o => !isSecret o) = l.takeWhile fun o => !isSecret o := by
    induction l generalizing l' with
    | nil => rw [show l' = [] by simpa using hl]
    | cons o l ih =>
      cases l' with
      | nil => cases hl
      | cons o' l' =>
        rw [List.map_cons, List.map_cons, List.cons.injEq] at hl
        cases ho : isSecret o with
        | false =>
          rw [eq_of_blankOption ho hl.1, List.takeWhile_cons_of_pos (by simp [ho]),
            List.takeWhile_cons_of_pos (by simp [ho]), ih hl.2]
        | true =>
          rw [List.takeWhile_cons_of_neg (by simp [(secret_of_blankOption ho hl.1).1]),
            List.takeWhile_cons_of_neg (by simp [ho])]
  rw [Proof.back, Proof.back, List.rtakeWhile, List.rtakeWhile, htake]
  rw [List.map_reverse, List.map_reverse, h.options]

namespace FirstSecret

variable {p : Parts} {os : List Bytes} {nm v : Bytes} {more : List Bytes}

section
variable (h : FirstSecret p os nm v more)
include h

theorem takeWhile : p.options.takeWhile (fun o => !isSecret o) = os := by
  rw [h.options, List.takeWhile_append_of_pos fun o ho => by rw [h.before o ho]; rfl,
    List.takeWhile_cons_of_neg (by simp [(isSecret_append h.key v).2]), List.append_nil]

theorem rest : Proof.rest p = front p ++ (nm ++ equals :: (v ++ following more)) := by
  obtain ⟨q, hq⟩ := Option.isSome_iff_exists.mp h.query
  have hjoin : join p.options = q := by
    rw [Parts.options, hq]
    exact List.intercalate_splitOn ampersand
  rw [Proof.rest, front, h.takeWhile, hq, queryText, ← hjoin, h.options, join_append]
  simp

theorem secrets : Proof.secrets p = (nm ++ equals :: v) :: more.filter isSecret := by
  rw [Proof.secrets, h.options, List.filter_append, List.filter_cons_of_pos (isSecret_append h.key v).2]
  have : os.filter isSecret = [] := List.filter_eq_nil_iff.mpr fun o ho => by simp [h.before o ho]
  rw [this, List.nil_append]

theorem back : Proof.back p = following (more.rtakeWhile fun o => !isSecret o) := by
  have hstop : (!isSecret (nm ++ equals :: v)) = false := by rw [(isSecret_append h.key v).2]; rfl
  rw [Proof.back, h.options, List.rtakeWhile, List.reverse_append, List.reverse_cons, List.append_assoc,
    List.singleton_append, takeWhile_append_cons (p := fun o => !isSecret o) hstop]
  rfl

/-- What follows the first sensitive option ends in what follows the last. -/
theorem following_eq : ∃ x, following more = x ++ Proof.back p := by
  refine ⟨following (more.rdropWhile fun o => !isSecret o), ?_⟩
  rw [h.back, following, following, following, ← List.flatMap_append,
    List.rdropWhile_append_rtakeWhile]

/-- The delimiter of the option ends what stands before it. -/
theorem exists_delimiter : ∃ x d, isDelimiter d = true ∧ front p = x ++ [d] := by
  rcases List.eq_nil_or_concat os with hos | ⟨init, last, hos⟩
  · refine ⟨userinfoText p.userinfo ++ (p.hosts ++ p.path), question, by decide, ?_⟩
    rw [front, h.takeWhile, hos]
    simp [preceding]
  · refine ⟨userinfoText p.userinfo ++
      (p.hosts ++ p.path ++ question :: (preceding init ++ last)), ampersand, by decide, ?_⟩
    rw [front, h.takeWhile, hos]
    simp [preceding]

theorem swallows (scheme : Bytes) {w : Bytes}
    (hw : ∀ b ∈ w, endsValue b = false) : Swallows (scheme ++ (front p ++ (nm ++ equals :: w))) := by
  obtain ⟨x, d, hd, hfront⟩ := h.exists_delimiter
  exact ⟨scheme ++ x, d, nm, w, by rw [hfront]; simp, hd, h.key, hw⟩

/-- Another connection string with other secrets has its first one at the same place. -/
theorem same {u' : Bytes} {p' : Parts} (hv' : valid u' = true)
    (hp' : parts u' = some p') (hsame : SameButSecrets p p') :
    ∃ v' more', FirstSecret p' os nm v' more' ∧ more'.map blankOption = more.map blankOption := by
  have hopts := hsame.options
  rw [h.options, List.map_append, List.map_cons, List.map_eq_append_iff] at hopts
  obtain ⟨os', tail, hoptions, hos', htail⟩ := hopts
  obtain ⟨s', more', rfl, hs', hmore⟩ := List.map_eq_cons_iff.mp htail
  obtain rfl := map_blankOption_eq h.before hos'
  obtain ⟨hsec, hname⟩ := secret_of_blankOption (isSecret_append h.key v).2 hs'
  rw [(isSecret_append h.key v).1] at hname
  obtain ⟨-, v', heq⟩ := secret_spec
    (validOption_of_valid hv' hp' (o := s') (by rw [hoptions]; simp)) hsec
  rw [hname] at heq
  refine ⟨v', more', ⟨?_, by rw [hoptions, heq], h.before, h.key⟩, hmore⟩
  rw [hsame.query]
  exact h.query

theorem sameFront {p' : Parts} {v' : Bytes} {more' : List Bytes}
    (h' : FirstSecret p' os nm v' more') (hsame : SameButSecrets p p') :
    SameButPassword (front p) (front p') := by
  rw [front, front, h.takeWhile, h'.takeWhile, hsame.hosts, hsame.path]
  exact sameButPassword_userinfo hsame.userinfo _

end

end FirstSecret

/-! ## What hides the secrets -/

/-- The first colon lies in the value of what looks like a sensitive parameter, and no `&` stands between
the last `@` before the first sensitive option, or else that colon, and the option. -/
def InSensitive (p : Parts) : Prop :=
  ∃ pre z, front p = pre ++ colon :: z ∧ colon ∉ pre ∧ Swallows (p.scheme ++ pre) ∧
    ampersand ∉ afterAt z

/-- The condition on a connection string: it has no sensitive option; or an `@` stands after its last
one and a colon before its first; or it has one, no `@` stands after it, and no colon before it or only
in something that is masked. -/
def Shielded (p : Parts) : Prop :=
  secrets p = [] ∨ (atSign ∈ back p ∧ colon ∈ front p) ∨
    ((secrets p).length = 1 ∧ atSign ∉ back p ∧ (colon ∉ front p ∨ InSensitive p))

theorem maskFrom_following (s : Bytes) (more : List Bytes) :
    maskFrom 0 (s ++ following more) = maskFrom 0 s ++ maskFrom 0 (following more) := by
  cases more with
  | nil =>
    have hnil : maskFrom 0 [] = [] := rfl
    rw [following, List.flatMap_nil, List.append_nil, hnil, List.append_nil]
  | cons o more => exact Redact.Proof.maskFrom_append_ampersand s _

/-- Nothing is written of what follows in a sensitive value, up to the next option. -/
theorem maskQuerySecrets_swallows {s t : Bytes} (hs : Swallows s) (ht : ∀ b ∈ t, endsValue b = false)
    (more : List Bytes) :
    maskQuerySecrets (s ++ (t ++ following more)) = maskFrom 0 s ++ maskFrom 0 (following more) := by
  rw [Redact.Proof.maskQuerySecrets_eq, ← List.append_assoc, maskFrom_following, hs.maskFrom_append ht]

theorem not_endsValue (h1 : b ≠ ampersand) (h2 : b ≠ hash) : endsValue b = false := by
  simp [endsValue, h1, h2]

theorem mask_plain : ∀ b ∈ mask, endsKey b = false := none_of_all (by decide)

theorem mask_endsValue : ∀ b ∈ colon :: (mask ++ [atSign]), endsValue b = false :=
  none_of_all (by decide)

section Sufficient

variable {u : Bytes} {p : Parts} (hv : valid u = true) (hp : parts u = some p)
variable {os more : List Bytes} {nm v : Bytes} (h : FirstSecret p os nm v more)
include hv hp

theorem hash_not_mem_rest : hash ∉ rest p := hash_not_mem ((valid_iff hp).mp hv).1

include h

theorem value_endsValue : ∀ b ∈ v, endsValue b = false := by
  intro b hb
  exact (validOption_of_valid hv hp (o := nm ++ equals :: v) (by rw [h.options]; simp)).endsValue
    (by simp [hb])

/-- The secrets between a colon before the first and an `@` after the last are gone. -/
theorem uri_between (hat : atSign ∈ back p) {pre z : Bytes} (hfront : front p = pre ++ colon :: z)
    (hpre : colon ∉ pre) :
    uri u = maskQuerySecrets (p.scheme ++ (pre ++ colon :: mask ++ atSign :: afterAt (back p))) := by
  obtain ⟨hs, rfl, -⟩ := parts_eq_some.mp hp
  obtain ⟨x, hx⟩ := h.following_eq
  have hbody : rest p = pre ++ colon :: (z ++ (nm ++ equals :: (v ++ x)) ++ back p) := by
    rw [h.rest, hfront, hx]
    simp
  rw [uri, hbody, maskUserinfo_colon hs hpre (by simp [hat]), afterAt_append hat]

/-- The one secret is masked as a query parameter, where no colon stands before it. -/
theorem uri_single (hcolon : colon ∉ front p) (hat : atSign ∉ following more) :
    uri u = maskFrom 0 (p.scheme ++ (front p ++ (nm ++ [equals]))) ++ maskFrom 0 (following more) := by
  obtain ⟨hs, rfl, -⟩ := parts_eq_some.mp hp
  have hvalue := value_endsValue hv hp h
  have hnm : colon ∉ nm := foreign_colon.not_mem h.key.sensitive
  have hcut (w : Bytes) : p.scheme ++ (front p ++ (nm ++ equals :: (w ++ following more))) =
      p.scheme ++ (front p ++ (nm ++ [equals])) ++ (w ++ following more) := by simp
  have hswallows := h.swallows p.scheme (w := []) (by simp)
  -- what the mask of the userinfo makes of the value is masked again
  obtain ⟨w, hw, hmask⟩ : ∃ w : Bytes, (∀ b ∈ w, endsValue b = false) ∧
      maskUserinfo (p.scheme ++ rest p) =
        p.scheme ++ (front p ++ (nm ++ equals :: (w ++ following more))) := by
    rw [h.rest]
    by_cases hc : colon ∈ v
    · obtain ⟨a, b, rfl, ha⟩ := List.eq_append_cons_of_mem hc
      have hpre : colon ∉ front p ++ (nm ++ equals :: a) := by
        have : colon ≠ equals := by decide
        simp [hcolon, hnm, ha, this]
      have hbody : front p ++ (nm ++ equals :: (a ++ colon :: b ++ following more)) =
          front p ++ (nm ++ equals :: a) ++ colon :: (b ++ following more) := by simp
      rw [hbody]
      by_cases hb : atSign ∈ b
      · refine ⟨a ++ (colon :: (mask ++ [atSign]) ++ afterAt b), ?_, ?_⟩
        · intro x hx
          rcases List.mem_append.mp hx with hx | hx
          · exact hvalue x (by simp [hx])
          · rcases List.mem_append.mp hx with hx | hx
            · exact mask_endsValue x hx
            · exact hvalue x (by simp [mem_of_mem_afterAt hx])
        · rw [maskUserinfo_colon hs hpre (by simp [hb]), afterAt_append_of_not_mem _ hat]
          simp
      · refine ⟨a ++ colon :: b, hvalue, ?_⟩
        rw [maskUserinfo_of_at_not_mem hs hpre (by simp [hb, hat])]
        simp
    · refine ⟨v, hvalue, ?_⟩
      by_cases hc' : colon ∈ following more
      · obtain ⟨a, b, hab, ha⟩ := List.eq_append_cons_of_mem hc'
        have hpre : colon ∉ front p ++ (nm ++ equals :: (v ++ a)) := by
          have : colon ≠ equals := by decide
          simp [hcolon, hnm, hc, ha, this]
        have hb : atSign ∉ b := fun hmem => hat (by rw [hab]; simp [hmem])
        have hbody : front p ++ (nm ++ equals :: (v ++ following more)) =
            front p ++ (nm ++ equals :: (v ++ a)) ++ colon :: b := by
          rw [hab]
          simp
        rw [hbody, maskUserinfo_of_at_not_mem hs hpre hb]
      · refine maskUserinfo_of_colon_not_mem hs ?_
        have : colon ≠ equals := by decide
        simp [hcolon, hnm, hc, hc', this]
  rw [uri, hmask, hcut, maskQuerySecrets_swallows hswallows hw]

/-- The one secret is masked with what looks like a sensitive parameter before it. -/
theorem uri_inSensitive (hat : atSign ∉ following more) {pre z : Bytes}
    (hfront : front p = pre ++ colon :: z) (hpre : colon ∉ pre) (hsw : Swallows (p.scheme ++ pre))
    (hamp : ampersand ∉ afterAt z) :
    uri u = maskFrom 0 (p.scheme ++ pre) ++ maskFrom 0 (following more) := by
  have hhash := hash_not_mem_rest hv hp
  obtain ⟨hs, rfl, -⟩ := parts_eq_some.mp hp
  have hvalue := value_endsValue hv hp h
  have hbody : rest p = pre ++ colon :: (z ++ (nm ++ equals :: v) ++ following more) := by
    rw [h.rest, hfront]
    simp
  have hoption : ∀ b ∈ nm ++ equals :: v, endsValue b = false := by
    intro b hb
    exact (validOption_of_valid hv hp (o := nm ++ equals :: v) (by rw [h.options]; simp)).endsValue hb
  have hlast : ∀ b ∈ afterAt (z ++ (nm ++ equals :: v)), endsValue b = false := by
    intro b hb
    by_cases hin : atSign ∈ nm ++ equals :: v
    · rw [afterAt_append hin] at hb
      exact hoption b (mem_of_mem_afterAt hb)
    · rw [afterAt_append_of_not_mem _ hin] at hb
      rcases List.mem_append.mp hb with hb | hb
      · refine not_endsValue ?_ ?_
        · rintro rfl
          exact hamp hb
        · rintro rfl
          exact hhash (by rw [hbody]; simp [mem_of_mem_afterAt hb])
      · exact hoption b hb
  by_cases hmem : atSign ∈ z ++ (nm ++ equals :: v)
  · have hcut : p.scheme ++ (pre ++ colon :: mask ++
        atSign :: (afterAt (z ++ (nm ++ equals :: v)) ++ following more)) =
        p.scheme ++ pre ++ (colon :: (mask ++ [atSign]) ++ afterAt (z ++ (nm ++ equals :: v)) ++
          following more) := by simp
    rw [uri, hbody, maskUserinfo_colon hs hpre (List.mem_append_left _ hmem),
      afterAt_append_of_not_mem _ hat, hcut, maskQuerySecrets_swallows hsw]
    intro b hb
    rcases List.mem_append.mp hb with hb | hb
    · exact mask_endsValue b hb
    · exact hlast b hb
  · have hcut : p.scheme ++ (pre ++ colon :: (z ++ (nm ++ equals :: v) ++ following more)) =
        p.scheme ++ pre ++ (colon :: (z ++ (nm ++ equals :: v)) ++ following more) := by simp
    have hno : atSign ∉ z ++ (nm ++ equals :: v) ++ following more := by
      rw [List.mem_append, not_or]
      exact ⟨hmem, hat⟩
    rw [uri, hbody, maskUserinfo_of_at_not_mem hs hpre hno, hcut, maskQuerySecrets_swallows hsw]
    intro b hb
    rcases List.mem_cons.mp hb with rfl | hb
    · decide
    · rw [afterAt_of_not_mem hmem] at hlast
      exact hlast b hb

end Sufficient

theorem query_eq {p : Parts} (h : p.query.isSome) : p.query = some (join p.options) := by
  obtain ⟨q, hq⟩ := Option.isSome_iff_exists.mp h
  rw [Parts.options, hq]
  exact congrArg some (List.intercalate_splitOn ampersand).symm

theorem following_of_single {p : Parts} {os more : List Bytes} {nm v : Bytes}
    (h : FirstSecret p os nm v more) (hone : (secrets p).length = 1) :
    (∀ o ∈ more, isSecret o = false) ∧ back p = following more := by
  rw [h.secrets, List.length_cons, Nat.add_eq_right, List.length_eq_zero_iff,
    List.filter_eq_nil_iff] at hone
  have hmore : ∀ o ∈ more, isSecret o = false := fun o ho => by simpa using hone o ho
  refine ⟨hmore, ?_⟩
  rw [h.back, List.rtakeWhile_eq_self_iff.mpr fun o ho => by rw [hmore o ho]; rfl]

/-- **Shielded secrets do not show.** -/
theorem uri_of_shielded {u u' : Bytes} {p p' : Parts} (hv : valid u = true) (hp : parts u = some p)
    (hv' : valid u' = true) (hp' : parts u' = some p') (hsame : SameButSecrets p p')
    (hsh : Shielded p) : uri u' = uri u := by
  by_cases hsec : secrets p = []
  · -- the password is the only secret
    have hopts : p'.options = p.options :=
      map_blankOption_eq (fun o ho => by simpa using List.filter_eq_nil_iff.mp hsec o ho) hsame.options
    have hquery : p'.query = p.query := by
      cases hq : p.query.isSome with
      | true => rw [query_eq hq, query_eq (hsame.query.trans hq), hopts]
      | false =>
        have hq' := hsame.query.trans hq
        rw [Option.isSome_eq_false_iff, Option.isNone_iff_eq_none] at hq hq'
        rw [hq, hq']
    obtain ⟨hs, rfl, -⟩ := parts_eq_some.mp hp
    obtain ⟨-, rfl, -⟩ := parts_eq_some.mp hp'
    rw [hsame.scheme, rest, rest, hsame.hosts, hsame.path, hquery]
    simp only [List.append_assoc]
    exact uri_sameButPassword hs (sameButPassword_userinfo hsame.userinfo _)
  · obtain ⟨os, nm, v, more, h⟩ := exists_firstSecret hv hp hsec
    obtain ⟨v', more', h', hmore'⟩ := h.same hv' hp' hsame
    have hfront := h.sameFront h' hsame
    rcases hsh with hnil | ⟨hat, hcolon⟩ | ⟨hone, hat, hcases⟩
    · exact absurd hnil hsec
    · obtain ⟨pre, z, hpz, hpre⟩ := List.eq_append_cons_of_mem hcolon
      obtain ⟨z', hpz', -, -⟩ := hfront.colon hpz hpre
      rw [uri_between hv hp h hat hpz hpre,
        uri_between hv' hp' h' (by rw [hsame.back]; exact hat) hpz' hpre, hsame.scheme, hsame.back]
    · obtain ⟨hmore, hback⟩ := following_of_single h hone
      obtain rfl := map_blankOption_eq hmore hmore'
      rw [hback] at hat
      rcases hcases with hcolon | ⟨pre, z, hpz, hpre, hsw, hamp⟩
      · have heq := hfront.eq_of_not_mem hcolon
        rw [uri_single hv hp h hcolon hat, uri_single hv' hp' h' (by rw [heq]; exact hcolon) hat, heq,
          hsame.scheme]
      · obtain ⟨z', hpz', hafter, -⟩ := hfront.colon hpz hpre
        rw [uri_inSensitive hv hp h hat hpz hpre hsw hamp,
          uri_inSensitive hv' hp' h' hat hpz' hpre (by rw [hsame.scheme]; exact hsw)
            (by rw [hafter]; exact hamp), hsame.scheme]

/-! ## What shows them otherwise -/

theorem count_uri (s : Bytes) : (uri s).count ampersand = (maskUserinfo s).count ampersand := by
  rw [uri, Redact.Proof.maskQuerySecrets_eq, Redact.Proof.count_maskFrom (Nat.zero_le _), List.drop_zero]

theorem count_mask : (colon :: (mask ++ [atSign])).count ampersand = 0 := by decide

include hs in
/-- The `&` that are left where a password is masked. -/
theorem count_uri_colon {pre z : Bytes} (hpre : colon ∉ pre) (hz : atSign ∈ z) :
    (uri (scheme ++ (pre ++ colon :: z))).count ampersand =
      (scheme ++ pre).count ampersand + (afterAt z).count ampersand := by
  have hcut : scheme ++ (pre ++ colon :: mask ++ atSign :: afterAt z) =
      scheme ++ pre ++ (colon :: (mask ++ [atSign])) ++ afterAt z := by simp
  rw [count_uri, maskUserinfo_colon hs hpre hz, hcut, List.count_append, List.count_append, count_mask,
    Nat.add_zero]

theorem count_afterAt_lt {s : Bytes} (h : atSign ∈ s) :
    (afterAt (ampersand :: s)).count ampersand < (ampersand :: s).count ampersand := by
  obtain ⟨a, b, rfl, hb⟩ := exists_last h
  have hcut : ampersand :: (a ++ atSign :: b) = (ampersand :: a) ++ atSign :: b := rfl
  rw [hcut, afterAt_append_cons _ hb, List.count_append, List.count_cons_self, List.count_cons]
  omega

theorem count_append₃ (a b c : Bytes) : (a ++ (b ++ c)).count ampersand =
    a.count ampersand + b.count ampersand + c.count ampersand := by
  rw [List.count_append, List.count_append, Nat.add_assoc]

include hs in
/-- With an `@` behind it, a colon that comes first hides the options up to the `@`. -/
theorem count_lt_of_colon {f r : Bytes} (hf : colon ∉ f) (hr : atSign ∈ r) :
    (uri (scheme ++ (f ++ colon :: (ampersand :: r)))).count ampersand <
      (uri (scheme ++ (f ++ ampersand :: r))).count ampersand := by
  have hlt := count_afterAt_lt hr
  rw [count_uri_colon hs hf (List.mem_cons_of_mem _ hr), List.count_append]
  -- without it, every option before the `@` is kept, or those before a later colon
  by_cases hc : colon ∈ r
  · obtain ⟨a, z, rfl, ha⟩ := List.eq_append_cons_of_mem hc
    have hne : colon ≠ ampersand := by decide
    have hpre : colon ∉ f ++ ampersand :: a := by simp [hf, hne, ha]
    have hcut : f ++ ampersand :: (a ++ colon :: z) = (f ++ ampersand :: a) ++ colon :: z := by simp
    by_cases hz : atSign ∈ z
    · have hafter : afterAt (ampersand :: (a ++ colon :: z)) = afterAt z := by
        rw [show ampersand :: (a ++ colon :: z) = (ampersand :: a ++ [colon]) ++ z by simp,
          afterAt_append hz]
      rw [hafter, hcut, count_uri_colon hs hpre hz, count_append₃, List.count_cons_self]
      omega
    · rw [count_uri, hcut, maskUserinfo_of_at_not_mem hs hpre hz, ← hcut, count_append₃]
      omega
  · have hne : colon ≠ ampersand := by decide
    rw [count_uri, maskUserinfo_of_colon_not_mem hs (by simp [hf, hne, hc]), count_append₃]
    omega

include hs in
/-- An `@` that comes last hides the options before it. -/
theorem count_lt_of_at {pre z y r : Bytes} (hpre : colon ∉ pre) (hz : atSign ∈ z)
    (hy : atSign ∉ y) (hr : atSign ∉ r) (hamp : ampersand ∈ y) :
    (uri (scheme ++ (pre ++ colon :: (z ++ (y ++ atSign :: r))))).count ampersand <
      (uri (scheme ++ (pre ++ colon :: (z ++ (y ++ r))))).count ampersand := by
  have hyr : atSign ∉ y ++ r := by simp [hy, hr]
  have hpos : 0 < y.count ampersand := List.count_pos_iff.mpr hamp
  rw [count_uri_colon hs hpre (by simp), count_uri_colon hs hpre (by simp [hz]), ← List.append_assoc z,
    afterAt_append_cons _ hr, afterAt_append_of_not_mem _ hyr, count_append₃]
  omega

include hs in
/-- The same where no `@` comes before it. -/
theorem count_lt_of_first_at {pre y r : Bytes} (hpre : colon ∉ pre) (hy : atSign ∉ y) (hr : atSign ∉ r)
    (hamp : ampersand ∈ y) :
    (uri (scheme ++ (pre ++ colon :: (y ++ atSign :: r)))).count ampersand <
      (uri (scheme ++ (pre ++ colon :: (y ++ r)))).count ampersand := by
  have hpos : 0 < y.count ampersand := List.count_pos_iff.mpr hamp
  have hne : (colon == ampersand) = false := by decide
  rw [count_uri_colon hs hpre (by simp), afterAt_append_cons _ hr, count_uri,
    maskUserinfo_of_at_not_mem hs hpre (by simp [hy, hr]), count_append₃, List.count_append,
    List.count_cons, List.count_append, hne]
  simp only [Bool.false_eq_true, if_false]
  omega

include hs in
/-- What stands after an `@` that comes last shows. -/
theorem uri_shows {pre z : Bytes} (hpre : colon ∉ pre) (hsw : ¬ Swallows (scheme ++ pre))
    (hb : endsKey b = false) (hne : b ≠ atSign) {more : List Bytes} (hmore : atSign ∉ following more) :
    uri (scheme ++ (pre ++ colon :: (z ++ (atSign :: b :: following more)))) =
      maskFrom 0 (scheme ++ pre) ++ (colon :: (mask ++ [atSign]) ++ b :: maskFrom 0 (following more)) := by
  have hpost : atSign ∉ b :: following more := by
    rw [List.mem_cons, not_or]
    exact ⟨hne.symm, hmore⟩
  have hcut : scheme ++ (pre ++ colon :: mask ++ atSign :: (b :: following more)) =
      scheme ++ pre ++ (colon :: (mask ++ [atSign, b])) ++ following more := by simp
  have hplain : ∀ x ∈ colon :: (mask ++ [atSign, b]), endsKey x = false := by
    intro x hx
    simp only [List.mem_cons, List.mem_append, List.not_mem_nil, or_false] at hx
    rcases hx with rfl | hx | rfl | rfl
    · decide
    · exact mask_plain x hx
    · decide
    · exact hb
  rw [uri, maskUserinfo_colon hs hpre (by simp), afterAt_append_cons _ hpost, hcut,
    Redact.Proof.maskQuerySecrets_eq, maskFrom_following,
    Redact.Proof.maskFrom_append_plain hsw hplain]
  simp

section Necessary

variable {u : Bytes} {p : Parts} (hv : valid u = true) (hp : parts u = some p)
variable {os more : List Bytes} {nm v : Bytes} (h : FirstSecret p os nm v more)
include hv hp

theorem validOption_of_name {nm v w : Bytes} (hkey : SensitiveKey nm)
    (ho : nm ++ equals :: v ∈ p.options) (hw : validText w true = true) (hamp : ampersand ∉ w) :
    ValidOption (nm ++ equals :: w) := by
  have hvalid := validOption_of_valid hv hp ho
  have htext := hvalid.text
  rw [validText_append_cons separator_equals, Bool.and_eq_true] at htext
  refine ⟨?_, ?_, ?_⟩
  · have hno := hvalid.single
    have : ampersand ≠ equals := by decide
    simp only [List.mem_append, List.mem_cons, not_or] at hno ⊢
    exact ⟨hno.1, this, hamp⟩
  · rw [validText_append_cons separator_equals, htext.1, hw]
    rfl
  · have hhead : (nm ++ equals :: w).head? ≠ some equals := by
      cases nm with
      | nil => exact absurd hkey.sensitive (by decide)
      | cons b nm =>
        intro hb
        obtain rfl : b = equals := by simpa using hb
        exact absurd (hkey.noEnd equals (by simp)) (by decide)
    have hcontains : (nm ++ equals :: w).contains equals = true := List.contains_iff_mem.mpr (by simp)
    rw [validOption, hcontains, beq_eq_false_iff_ne.mpr hhead]
    exact Bool.or_true _

include h

/-- A connection string with other secrets that `Validate` accepts. -/
theorem exists_variant {w : Bytes} (hw : validText w true = true) (hamp : ampersand ∉ w)
    {more' : List Bytes} (hmore : ∀ o ∈ more', ValidOption o)
    (hblank : more'.map blankOption = more.map blankOption) :
    ∃ p', valid (p.scheme ++ (front p ++ (nm ++ equals :: (w ++ following more')))) = true ∧
      parts (p.scheme ++ (front p ++ (nm ++ equals :: (w ++ following more')))) = some p' ∧
      SameButSecrets p p' := by
  have hmem : nm ++ equals :: v ∈ p.options := by
    rw [h.options]
    simp
  have hall : ∀ o ∈ os ++ (nm ++ equals :: w) :: more', ValidOption o := by
    intro o ho
    rcases List.mem_append.mp ho with ho | ho
    · exact validOption_of_valid hv hp (by rw [h.options]; simp [ho])
    · rcases List.mem_cons.mp ho with rfl | ho
      · exact validOption_of_name hv hp h.key hmem hw hamp
      · exact hmore o ho
  obtain ⟨hparts, hvalid, hoptions⟩ := valid_of_options hv hp h.query (by simp) hall
  have hfirst : FirstSecret { p with query := some (join (os ++ (nm ++ equals :: w) :: more')) }
      os nm w more' := ⟨rfl, hoptions, h.before, h.key⟩
  have hfront : front { p with query := some (join (os ++ (nm ++ equals :: w) :: more')) } = front p := by
    rw [front, front, hfirst.takeWhile, h.takeWhile]
  rw [hfirst.rest, hfront] at hparts hvalid
  refine ⟨_, hvalid, hparts, rfl, rfl, rfl, rfl, h.query.symm, ?_⟩
  rw [hoptions, h.options, List.map_append, List.map_append, List.map_cons, List.map_cons, hblank,
    blankOption_secret h.key, blankOption_secret h.key]

/-- No secret of the connection string shows. -/
def Hidden (u : Bytes) (p : Parts) : Prop :=
  ∀ u' p', valid u' = true → parts u' = some p' → SameButSecrets p p' → uri u' = uri u

theorem more_valid : ∀ o ∈ more, ValidOption o := fun o ho =>
  validOption_of_valid hv hp (by rw [h.options]; simp [ho])

variable (hidden : Hidden u p)
include hidden

theorem variants_eq {w w' : Bytes} (hw : validText w true = true ∧ ampersand ∉ w)
    (hw' : validText w' true = true ∧ ampersand ∉ w') {more₁ more₂ : List Bytes}
    (h₁ : ∀ o ∈ more₁, ValidOption o) (h₂ : ∀ o ∈ more₂, ValidOption o)
    (hb₁ : more₁.map blankOption = more.map blankOption)
    (hb₂ : more₂.map blankOption = more.map blankOption) :
    uri (p.scheme ++ (front p ++ (nm ++ equals :: (w ++ following more₁)))) =
      uri (p.scheme ++ (front p ++ (nm ++ equals :: (w' ++ following more₂)))) := by
  obtain ⟨p₁, hv₁, hp₁, hs₁⟩ := exists_variant hv hp h hw.1 hw.2 h₁ hb₁
  obtain ⟨p₂, hv₂, hp₂, hs₂⟩ := exists_variant hv hp h hw'.1 hw'.2 h₂ hb₂
  rw [hidden _ _ hv₁ hp₁ hs₁, hidden _ _ hv₂ hp₂ hs₂]

/-- The value of the first sensitive option may be exchanged. -/
theorem values_eq (w w' : Bytes) (hw : validText w true = true ∧ ampersand ∉ w)
    (hw' : validText w' true = true ∧ ampersand ∉ w') :
    uri (p.scheme ++ (front p ++ (nm ++ equals :: (w ++ following more)))) =
      uri (p.scheme ++ (front p ++ (nm ++ equals :: (w' ++ following more)))) :=
  variants_eq hv hp h hidden hw hw' (more_valid hv hp h) (more_valid hv hp h) rfl rfl

/-- An `@` after the sensitive options and no colon before them: a colon in the first one shows. -/
theorem colon_of_hidden (hat : atSign ∈ back p) : colon ∈ front p := by
  by_contra hcolon
  have hs := (parts_eq_some.mp hp).1
  have hkey := foreign_colon.not_mem h.key.sensitive
  have hf : colon ∉ front p ++ (nm ++ [equals]) := by
    have hne : colon ≠ equals := by decide
    simp [hcolon, hkey, hne]
  obtain ⟨x, hx⟩ := h.following_eq
  obtain ⟨r, hr, hat⟩ : ∃ r, following more = ampersand :: r ∧ atSign ∈ r := by
    have hmem : atSign ∈ following more := by rw [hx]; simp [hat]
    cases more with
    | nil => cases hmem
    | cons o more =>
      refine ⟨o ++ following more, rfl, ?_⟩
      have hne : atSign ≠ ampersand := by decide
      exact (List.mem_cons.mp hmem).resolve_left hne
  have hlt := count_lt_of_colon hs hf hat
  have heq := values_eq hv hp h hidden [colon] [] ⟨by decide, by decide⟩
    ⟨by decide, by decide⟩
  simp only [hr, List.append_assoc, List.cons_append, List.nil_append] at heq hlt
  rw [heq] at hlt
  exact absurd hlt (Nat.lt_irrefl _)

/-- Two sensitive options and no `@` after them: an `@` in the last one shows. -/
theorem single_of_hidden (hat : atSign ∉ back p) : (secrets p).length = 1 := by
  by_contra hlen
  have hs := (parts_eq_some.mp hp).1
  have hsplit := List.rdropWhile_append_rtakeWhile (p := fun o => !isSecret o) (l := more)
  have hback := h.back
  rcases List.eq_nil_or_concat (more.rdropWhile fun o => !isSecret o) with hnil | ⟨ms, o, hlast⟩
  · refine hlen ?_
    rw [h.secrets, List.length_cons, Nat.add_eq_right, List.length_eq_zero_iff, List.filter_eq_nil_iff]
    intro o ho
    simpa using List.rdropWhile_eq_nil_iff.mp hnil o ho
  · -- the last sensitive option
    have hsec : isSecret o = true := by
      have hne : more.rdropWhile (fun o => !isSecret o) ≠ [] := by rw [hlast]; simp
      have := List.rdropWhile_last_not (fun o => !isSecret o) more hne
      simpa [hlast] using this
    rw [hlast, List.concat_eq_append, List.append_assoc, List.singleton_append] at hsplit
    generalize more.rtakeWhile (fun o => !isSecret o) = os₂ at hsplit hback
    have hmore := more_valid hv hp h
    have ho := hmore o (by rw [← hsplit]; simp)
    obtain ⟨hkey, v₂, hv₂⟩ := secret_spec ho hsec
    generalize name o = nm₂ at hkey hv₂
    subst hv₂
    have hmem : nm₂ ++ equals :: v₂ ∈ p.options := by
      rw [h.options, ← hsplit]
      simp
    have hall (w : Bytes) (hw : validText w true = true ∧ ampersand ∉ w) :
        (∀ o ∈ ms ++ (nm₂ ++ equals :: w) :: os₂, ValidOption o) ∧
          (ms ++ (nm₂ ++ equals :: w) :: os₂).map blankOption = more.map blankOption := by
      constructor
      · intro o ho
        rcases List.mem_append.mp ho with ho | ho
        · exact hmore o (by rw [← hsplit]; simp [ho])
        · rcases List.mem_cons.mp ho with rfl | ho
          · exact validOption_of_name hv hp hkey hmem hw.1 hw.2
          · exact hmore o (by rw [← hsplit]; simp [ho])
      · rw [← hsplit]
        simp [blankOption_secret hkey]
    have hw₁ : validText [atSign] true = true ∧ ampersand ∉ [atSign] := ⟨by decide, by decide⟩
    have hw₂ : validText [] true = true ∧ ampersand ∉ ([] : Bytes) := ⟨by decide, by decide⟩
    have hw : validText [colon, atSign] true = true ∧ ampersand ∉ [colon, atSign] :=
      ⟨by decide, by decide⟩
    have heq := variants_eq hv hp h hidden hw hw (hall _ hw₁).1 (hall _ hw₂).1 (hall _ hw₁).2
      (hall _ hw₂).2
    obtain ⟨pre, z, hpz, hpre⟩ := List.eq_append_cons_of_mem
      (show colon ∈ front p ++ (nm ++ equals :: [colon]) by simp)
    have hbody (w : Bytes) : front p ++ (nm ++ equals :: ([colon, atSign] ++
        following (ms ++ (nm₂ ++ equals :: w) :: os₂))) =
        pre ++ colon :: (z ++ atSign :: following ms ++
          (ampersand :: (nm₂ ++ [equals]) ++ (w ++ back p))) := by
      have : front p ++ (nm ++ equals :: ([colon, atSign] ++
          following (ms ++ (nm₂ ++ equals :: w) :: os₂))) =
          front p ++ (nm ++ equals :: [colon]) ++ atSign :: (following ms ++
            (ampersand :: (nm₂ ++ [equals]) ++ (w ++ back p))) := by
        rw [hback]
        simp [following]
      rw [this, hpz]
      simp
    have hy : atSign ∉ ampersand :: (nm₂ ++ [equals]) := by
      have hne : atSign ≠ equals := by decide
      have hne' : atSign ≠ ampersand := by decide
      simp [foreign_atSign.not_mem hkey.sensitive, hne, hne']
    have hlt := count_lt_of_at hs hpre (z := z ++ atSign :: following ms) (by simp) hy hat (by simp)
    rw [hbody, hbody] at heq
    rw [List.singleton_append, List.nil_append] at heq
    rw [heq] at hlt
    exact absurd hlt (Nat.lt_irrefl _)

/-- One sensitive option, a colon before it and no `@` after it: it shows, or is masked with something
else. -/
theorem inSensitive_of_hidden (hone : (secrets p).length = 1) (hat : atSign ∉ back p)
    (hcolon : colon ∈ front p) : InSensitive p := by
  have hs := (parts_eq_some.mp hp).1
  obtain ⟨-, hback⟩ := following_of_single h hone
  rw [hback] at hat
  obtain ⟨pre, z, hpz, hpre⟩ := List.eq_append_cons_of_mem hcolon
  refine ⟨pre, z, hpz, hpre, ?_, ?_⟩
  · by_contra hsw
    have heq := values_eq hv hp h hidden (ascii "@b") (ascii "@c")
      ⟨by decide, by decide⟩ ⟨by decide, by decide⟩
    have hbody (b : UInt8) : p.scheme ++ (front p ++ (nm ++ equals :: ([atSign, b] ++ following more))) =
        p.scheme ++ (pre ++ colon :: (z ++ (nm ++ [equals]) ++ (atSign :: b :: following more))) := by
      rw [hpz]
      simp
    have hb : ascii "@b" = [atSign, 'b'.toUInt8] := rfl
    have hc : ascii "@c" = [atSign, 'c'.toUInt8] := rfl
    rw [hb, hc, hbody, hbody, uri_shows hs hpre hsw (by decide) (by decide) hat,
      uri_shows hs hpre hsw (by decide) (by decide) hat] at heq
    have := List.append_cancel_left (List.append_cancel_left heq)
    rw [List.cons.injEq] at this
    exact absurd this.1 (by decide)
  · intro hamp
    have heq := values_eq hv hp h hidden [atSign] [] ⟨by decide, by decide⟩
      ⟨by decide, by decide⟩
    have hnm : atSign ∉ nm ++ [equals] := by
      have hne : atSign ≠ equals := by decide
      simp [foreign_atSign.not_mem h.key.sensitive, hne]
    by_cases hz : atSign ∈ z
    · obtain ⟨a, b, rfl, hb⟩ := exists_last hz
      rw [afterAt_append_cons a hb] at hamp
      have hy : atSign ∉ b ++ (nm ++ [equals]) := by
        rw [List.mem_append, not_or]
        exact ⟨hb, hnm⟩
      have hlt := count_lt_of_at hs hpre (z := a ++ [atSign]) (by simp) hy hat (by simp [hamp])
      simp only [hpz, List.append_assoc, List.cons_append, List.nil_append] at heq hlt
      rw [heq] at hlt
      exact absurd hlt (Nat.lt_irrefl _)
    · rw [afterAt_of_not_mem hz] at hamp
      have hy : atSign ∉ z ++ (nm ++ [equals]) := by
        rw [List.mem_append, not_or]
        exact ⟨hz, hnm⟩
      have hlt := count_lt_of_first_at hs hpre hy hat (by simp [hamp])
      simp only [hpz, List.append_assoc, List.cons_append, List.nil_append] at heq hlt
      rw [heq] at hlt
      exact absurd hlt (Nat.lt_irrefl _)

omit h in
theorem shielded_of_hidden : Shielded p := by
  by_cases hsec : secrets p = []
  · exact .inl hsec
  · obtain ⟨os, nm, v, more, h⟩ := exists_firstSecret hv hp hsec
    by_cases hat : atSign ∈ back p
    · exact .inr (.inl ⟨hat, colon_of_hidden hv hp h hidden hat⟩)
    · have hone := single_of_hidden hv hp h hidden hat
      refine .inr (.inr ⟨hone, hat, ?_⟩)
      by_cases hcolon : colon ∈ front p
      · exact .inr (inSensitive_of_hidden hv hp h hidden hone hat hcolon)
      · exact .inl hcolon

end Necessary

/-- **A redacted connection string does not depend on its secrets if and only if they are shielded**:
every connection string that `Validate` accepts and that differs from it only in the password and in the
values of sensitive options is redacted to the same. -/
theorem redacted_same_iff {u : Bytes} {p : Parts} (hv : valid u = true) (hp : parts u = some p) :
    (∀ u' p', valid u' = true → parts u' = some p' → SameButSecrets p p' → uri u' = uri u) ↔
      Shielded p :=
  ⟨shielded_of_hidden hv hp, fun hsh _ _ hv' hp' hsame => uri_of_shielded hv hp hv' hp' hsame hsh⟩

/-- A connection string without sensitive options, and one with an `@` in its password option. -/
def plainURI : Bytes := ascii "mongodb://u:p@h/db?w=1"

def leakingURI (secret : String) : Bytes := ascii "mongodb://h:1/?password=a@" ++ ascii secret

theorem redacted_same_plain : ∃ p, parts plainURI = some p ∧ valid plainURI = true ∧
      ∀ u' p', valid u' = true → parts u' = some p' → SameButSecrets p p' → uri u' = uri plainURI := by
  have hv : valid plainURI = true := by decide +kernel
  obtain ⟨p, hp⟩ : ∃ p, parts plainURI = some p := ⟨_, rfl⟩
  refine ⟨p, hp, hv, (redacted_same_iff hv hp).mpr (.inl ?_)⟩
  cases hp
  decide +kernel

/-- **What follows an `@` in a sensitive option shows**: it is taken for the end of the userinfo. -/
theorem secret_shows : ∃ p p', parts (leakingURI "b") = some p ∧ valid (leakingURI "b") = true ∧
      parts (leakingURI "c") = some p' ∧ valid (leakingURI "c") = true ∧ SameButSecrets p p' ∧
      uri (leakingURI "b") = ascii "mongodb://h:******@b" ∧
      uri (leakingURI "c") = ascii "mongodb://h:******@c" := by
  refine ⟨_, _, rfl, by decide +kernel, rfl, by decide +kernel, ?_, by decide +kernel,
    by decide +kernel⟩
  constructor <;> decide +kernel

end MongoRescue.MongoUri.Proof
