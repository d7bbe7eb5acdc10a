import MongoRescue.AuditLog.Log
import MongoRescue.Lib.Format

/-!
# The canonical form determines the entry

`normalize` leaves strings of plain characters (`normalize_normal`). The canonical text of such an entry
is the text of no other entry, whatever strings that one is made of (`canonicalText_inj`), so where
SHA-256 has no collisions a hash is the hash of one entry and one predecessor (`chainHash_inj`). A
normalised entry whose time can be stored is read back as it was (`readRow_rowOf`).
-/

namespace MongoRescue.AuditLog.Proof

open Go (Bytes utf8)
open Go.Json

/-! ## Normalised entries -/

theorem plain_of_not_dropped {c : Char} (h : dropped c = false) : Plain c := by
  simp only [dropped, Go.isControl, Bool.or_eq_false_iff, decide_eq_false_iff_not] at h
  simp only [Plain, longEscape, Bool.false_and, Bool.or_false, Bool.or_eq_false_iff,
    decide_eq_false_iff_not]
  exact ⟨⟨h.1.1.1, h.1.2⟩, h.2⟩

theorem mem_of_mem_cutBytes {n : Nat} {cs : List Char} {c : Char} (h : c ∈ cutBytes n cs) :
    c ∈ cs := by
  induction cs generalizing n with
  | nil => cases h
  | cons x cs ih =>
    unfold cutBytes at h
    split at h
    · rcases List.mem_cons.mp h with rfl | h
      · exact List.mem_cons_self
      · exact List.mem_cons_of_mem _ (ih h)
    · cases h

theorem clean_plain (s : Bytes) (n : Nat) : PlainString (clean s n) := by
  refine ⟨_, rfl, fun c hc => plain_of_not_dropped ?_⟩
  have := (List.mem_filter.mp (mem_of_mem_cutBytes hc)).2
  simpa using this

theorem actorAnonymous_plain : PlainString actorAnonymous := by
  refine ⟨"anonymous".toList, rfl, ?_⟩
  simp [Plain, longEscape]

/-- What `normalize` makes sure of. -/
structure Normal (e : Event) : Prop where
  actorKind : PlainString e.actorKind
  actorUserID : PlainString e.actorUserID
  actorName : PlainString e.actorName
  actorKeyID : PlainString e.actorKeyID
  actorKeyName : PlainString e.actorKeyName
  action : PlainString e.action
  targets : ∀ p ∈ e.targets.pairs, PlainPair p
  outcome : PlainString e.outcome
  clientIP : PlainString e.clientIP
  userAgent : PlainString e.userAgent

theorem keepTarget_plain {m : StringMap} (hm : ∀ p ∈ m.pairs, PlainPair p) (q : Bytes × Bytes) :
    ∀ p ∈ (keepTarget m q).pairs, PlainPair p := by
  intro p hp
  unfold keepTarget at hp
  dsimp only at hp
  split at hp
  · exact hm p hp
  · rcases mem_insertPair hp with rfl | hp
    · exact ⟨clean_plain _ _, clean_plain _ _⟩
    · exact hm p hp

theorem keepTargets_plain (ps : List (Bytes × Bytes)) {m : StringMap}
    (hm : ∀ p ∈ m.pairs, PlainPair p) : ∀ p ∈ (ps.foldl keepTarget m).pairs, PlainPair p := by
  induction ps generalizing m with
  | nil => exact hm
  | cons q ps ih => exact ih (keepTarget_plain hm q)

theorem normalize_normal (e : Event) : Normal (normalize e) where
  actorKind := by
    unfold normalize
    dsimp only
    split
    · exact clean_plain _ _
    · exact actorAnonymous_plain
  actorUserID := clean_plain _ _
  actorName := clean_plain _ _
  actorKeyID := clean_plain _ _
  actorKeyName := clean_plain _ _
  action := clean_plain _ _
  targets := keepTargets_plain _ fun p hp => (by cases hp)
  outcome := clean_plain _ _
  clientIP := clean_plain _ _
  userAgent := clean_plain _ _

/-! ## The canonical text -/

/-- A number ends at the next field. -/
theorem intText_key_inj {n n' : Int} {name : String} {r r' : List Char}
    (h : intText n ++ (key name ++ r) = intText n' ++ (key name ++ r')) : n = n' ∧ r = r' := by
  simp only [key, List.cons_append, List.append_assoc, List.nil_append] at h
  obtain ⟨hn, hrest⟩ := Go.padded_append_inj (by decide) h
  exact ⟨hn, (List.cons.inj (List.append_cancel_left hrest)).2⟩

/-- A string of plain characters ends at the next field. -/
theorem quote_key_inj {s t : Bytes} {name : String} {r r' : List Char} (hs : PlainString s)
    (h : quote false s ++ (key name ++ r) = quote false t ++ (key name ++ r')) : s = t ∧ r = r' :=
  (quote_append_inj hs h).imp_right List.append_cancel_left

theorem plain_of_isDigit {c : Char} (h : c.isDigit) : Plain c := by
  have hc : 48 ≤ c.toNat ∧ c.toNat ≤ 57 := by
    simpa [Char.isDigit, UInt32.le_iff_toNat_le] using h
  have hne (d : Char) (hd : 57 < d.toNat) : c ≠ d := by
    rintro rfl
    omega
  simp only [Plain, longEscape, Bool.false_and, Bool.or_false, Bool.or_eq_false_iff,
    decide_eq_false_iff_not]
  exact ⟨⟨by omega, hne _ (by decide)⟩, hne _ (by decide)⟩

theorem formatTime_plain (t : Int) : PlainString (formatTime t) := by
  have punctuation : ∀ c ∈ ['-', 'T', ':', '.', 'Z'], longEscape false c = false := by
    simp [longEscape]
  refine ⟨(Go.rfc3339Nine t).toList, rfl, fun c hc => ?_⟩
  rw [Go.toList_rfc3339Nine] at hc
  simp only [List.mem_append, List.mem_cons, List.not_mem_nil, or_false] at hc
  rcases hc with hc | rfl | hc | rfl
  · rcases Go.mem_secondsText hc with hc | rfl | rfl | rfl
    · exact plain_of_isDigit hc
    all_goals exact punctuation _ (by decide)
  · exact punctuation _ (by decide)
  · exact plain_of_isDigit (Go.isDigit_of_mem_digits hc)
  · exact punctuation _ (by decide)

theorem formatTime_inj {t t' : Int} (h : formatTime t = formatTime t') : t = t' :=
  Go.rfc3339Nine_inj (String.toList_inj.mp (Go.utf8_injective h))

/-- **The canonical text of a normalised entry is the text of no other entry**, hash apart. -/
theorem canonicalText_inj {e e' : Event} (he : Normal e) (h : canonicalText e = canonicalText e') :
    { e with hash := e'.hash } = e' := by
  simp only [canonicalText, List.cons.injEq, true_and, List.append_cancel_left_eq] at h
  obtain ⟨hid, h⟩ := intText_key_inj h
  obtain ⟨htime, h⟩ := quote_key_inj (formatTime_plain _) h
  obtain ⟨hkind, h⟩ := quote_key_inj he.actorKind h
  obtain ⟨huser, h⟩ := quote_key_inj he.actorUserID h
  obtain ⟨hname, h⟩ := quote_key_inj he.actorName h
  obtain ⟨hkey, h⟩ := quote_key_inj he.actorKeyID h
  obtain ⟨hkeyName, h⟩ := quote_key_inj he.actorKeyName h
  obtain ⟨haction, h⟩ := quote_key_inj he.action h
  obtain ⟨htargets, h⟩ := text_append_inj he.targets h
  obtain ⟨hstatus, h⟩ := intText_key_inj (List.append_cancel_left h)
  obtain ⟨houtcome, h⟩ := quote_key_inj he.outcome h
  obtain ⟨hip, h⟩ := quote_key_inj he.clientIP h
  obtain ⟨hagent, h⟩ := quote_key_inj he.userAgent h
  obtain ⟨hcount, -⟩ := Go.padded_append_inj (by decide) h
  have ht := formatTime_inj htime
  cases e
  cases e'
  simp only [Event.mk.injEq]
  exact ⟨hid, ht, hkind, huser, hname, hkey, hkeyName, haction, htargets, hstatus, houtcome, hip,
    hagent, hcount, trivial⟩

/-! ## Hashes -/

/-- A hash, or any other text without an opening brace, which the canonical text starts with. -/
def HashText (h : Bytes) : Prop := ∃ cs : List Char, h = utf8 cs ∧ '\x7b' ∉ cs

theorem hexDigit_ne : ∀ n < 16, Go.hexDigit n ≠ '\x7b' := by decide

theorem hexDigit_inj : ∀ n < 16, ∀ m < 16, Go.hexDigit n = Go.hexDigit m → n = m := by decide

theorem hexEncode_hashText (bs : Bytes) : HashText (ascii (Go.hexEncode bs)) := by
  refine ⟨_, rfl, fun h => ?_⟩
  simp only [Go.hexEncode, String.toList_ofList, List.mem_flatMap, List.mem_cons,
    List.not_mem_nil, or_false] at h
  obtain ⟨b, -, h⟩ := h
  have hb := b.toNat_lt
  rcases h with h | h
  · exact hexDigit_ne _ (by omega) h.symm
  · exact hexDigit_ne _ (by omega) h.symm

theorem hexEncode_inj {bs bs' : Bytes} (h : Go.hexEncode bs = Go.hexEncode bs') : bs = bs' := by
  have hchars := String.ofList_injective h
  clear h
  induction bs generalizing bs' with
  | nil =>
    cases bs' with
    | nil => rfl
    | cons b bs' => simp at hchars
  | cons b bs ih =>
    cases bs' with
    | nil => simp at hchars
    | cons b' bs' =>
      simp only [List.flatMap_cons, List.cons_append, List.nil_append, List.cons.injEq] at hchars
      obtain ⟨hhi, hlo, hrest⟩ := hchars
      have hb := b.toNat_lt
      have hb' := b'.toNat_lt
      have h1 := hexDigit_inj _ (by omega) _ (by omega) hhi
      have h2 := hexDigit_inj _ (by omega) _ (by omega) hlo
      rw [ih hrest, UInt8.toNat_inj.mp (show b.toNat = b'.toNat by omega)]

theorem chainHash_hashText (sha256 : Bytes → Bytes) (prev : Bytes) (e : Event) :
    HashText (chainHash sha256 prev e) := hexEncode_hashText _

/-- **Where SHA-256 has no collisions, a hash is the hash of one entry and one predecessor.** -/
theorem chainHash_inj {sha256 : Bytes → Bytes} (hsha : ∀ x y, sha256 x = sha256 y → x = y)
    {prev prev' : Bytes} {e e' : Event} (he : Normal e) (hp : HashText prev) (hp' : HashText prev')
    (h : chainHash sha256 prev e = chainHash sha256 prev' e') (hhash : e.hash = e'.hash) :
    prev = prev' ∧ e = e' := by
  obtain ⟨cs, rfl, hcs⟩ := hp
  obtain ⟨cs', rfl, hcs'⟩ := hp'
  have hinput := hsha _ _ (hexEncode_inj (String.toList_inj.mp (Go.utf8_injective h)))
  simp only [canonical, ← Go.utf8_append] at hinput
  have hchars := Go.utf8_injective hinput
  have hstart (x : Event) : ∃ r, canonicalText x = '\x7b' :: r := ⟨_, rfl⟩
  obtain ⟨r, hr⟩ := hstart e
  obtain ⟨r', hr'⟩ := hstart e'
  rw [hr, hr'] at hchars
  obtain ⟨rfl, hrest⟩ := Glob.append_separator_inj hcs hcs' hchars
  have htext := canonicalText_inj he (hr.trans (hrest ▸ hr'.symm))
  rw [← hhash] at htext
  exact ⟨rfl, htext⟩

/-! ## Storing and reading an entry -/

/-- A time that `at` can hold. -/
def Storable (t : Int) : Prop := Go.minInt64 ≤ t ∧ t ≤ Go.maxInt64

theorem timeKey_of_storable {t : Int} (h : Storable t) : timeKey t = t := by
  rw [timeKey, if_neg (by have := h.1; omega), if_neg (by have := h.2; omega)]

/-- **A normalised entry is read back as it was stored**, where its time can be. -/
theorem readRow_rowOf {e : Event} (he : Normal e) (ht : Storable e.time) : readRow (rowOf e) = e := by
  have htargets : StringMap.unmarshal (utf8 (e.targets.text true)) = some e.targets := by
    refine unmarshal_text true fun p hp => ?_
    obtain ⟨⟨k, hk, -⟩, v, hv, -⟩ := he.targets p hp
    exact ⟨⟨k, hk⟩, v, hv⟩
  simp only [readRow, rowOf, htargets, timeKey_of_storable ht, Option.getD_some]

end MongoRescue.AuditLog.Proof
