import MongoRescue.Redact.MongoUri

/-!
# The parts of a connection string

A connection string is its parts put together (`rest_partsOf`), and well-formed parts put together are
split into the same again (`partsOf_rest`). The characters of the whole are valid if those of the
pieces between separators are (`validText_append_cons`), so that values of options can be exchanged
(`valid_iff`).
-/

namespace MongoRescue.MongoUri.Proof

open Go
open Redact (colon atSign ampersand question equals hash slash percent schemeEnd)

/-! ## Putting parts together -/

def userinfoText : Option Bytes → Bytes
  | none => []
  | some ui => ui ++ [atSign]

def queryText : Option Bytes → Bytes
  | none => []
  | some q => question :: q

/-- What follows the scheme. -/
def rest (p : Parts) : Bytes := userinfoText p.userinfo ++ p.hosts ++ p.path ++ queryText p.query

/-- Parts that a connection string can be split into. -/
structure WellFormed (p : Parts) : Prop where
  userinfo : ∀ b ∈ userinfoText p.userinfo ++ p.hosts, endsAuthority b = false
  hosts : atSign ∉ p.hosts
  path : p.path = [] ∨ ∃ db, p.path = slash :: db
  noQuery : question ∉ p.path

theorem cutUserinfo_spec (authority : Bytes) :
    userinfoText (cutUserinfo authority).1 ++ (cutUserinfo authority).2 = authority ∧
      atSign ∉ (cutUserinfo authority).2 := by
  rw [cutUserinfo]
  by_cases h : atSign ∈ authority
  · obtain ⟨a, b, rfl, hb⟩ := exists_last h
    rw [lastIndexByte_append_cons a hb]
    simp only [userinfoText, List.take_left]
    rw [List.drop_length_add_append]
    exact ⟨by simp, hb⟩
  · rw [lastIndexByte_eq_none.mpr h]
    exact ⟨rfl, h⟩

theorem cutUserinfo_eq (ui : Option Bytes) {hosts : Bytes} (h : atSign ∉ hosts) :
    cutUserinfo (userinfoText ui ++ hosts) = (ui, hosts) := by
  cases ui with
  | none =>
    rw [userinfoText, List.nil_append, cutUserinfo, lastIndexByte_eq_none.mpr h]
  | some ui =>
    rw [userinfoText, List.append_assoc, List.singleton_append, cutUserinfo,
      lastIndexByte_append_cons ui h]
    simp only [List.take_left]
    rw [List.drop_length_add_append]
    rfl

theorem cutQuery_spec (tail : Bytes) :
    (cutQuery tail).1 ++ queryText (cutQuery tail).2 = tail ∧ question ∉ (cutQuery tail).1 := by
  rw [cutQuery]
  by_cases h : question ∈ tail
  · obtain ⟨a, b, rfl, ha⟩ := List.eq_append_cons_of_mem h
    rw [indexByte_append_cons ha]
    simp only [List.take_left]
    rw [List.drop_length_add_append]
    exact ⟨rfl, ha⟩
  · rw [indexByte_eq_none.mpr h]
    exact ⟨by simp [queryText], h⟩

theorem cutQuery_eq {path : Bytes} (h : question ∉ path) (q : Option Bytes) :
    cutQuery (path ++ queryText q) = (path, q) := by
  cases q with
  | none =>
    rw [queryText, List.append_nil, cutQuery, indexByte_eq_none.mpr h]
  | some q =>
    rw [queryText, cutQuery, indexByte_append_cons h]
    simp only [List.take_left]
    rw [List.drop_length_add_append]
    rfl

theorem rest_partsOf (scheme r : Bytes) : rest (partsOf scheme r) = r := by
  simp only [rest, partsOf]
  rw [(cutUserinfo_spec _).1, List.append_assoc, (cutQuery_spec _).1, List.takeWhile_append_dropWhile]

theorem wellFormed_partsOf (scheme r : Bytes) : WellFormed (partsOf scheme r) := by
  refine ⟨?_, (cutUserinfo_spec _).2, ?_, (cutQuery_spec _).2⟩
  · simp only [partsOf]
    rw [(cutUserinfo_spec _).1]
    intro b hb
    simpa using List.mem_takeWhile_imp hb
  · -- the tail is empty, or starts with the byte that ends the authority
    simp only [partsOf]
    have htail := (cutQuery_spec (r.dropWhile fun c => !endsAuthority c)).1
    have hpath := (cutQuery_spec (r.dropWhile fun c => !endsAuthority c)).2
    generalize cutQuery (r.dropWhile fun c => !endsAuthority c) = cut at htail hpath
    cases hcut : cut.1 with
    | nil => exact .inl rfl
    | cons c db =>
      refine .inr ⟨db, ?_⟩
      rw [hcut, List.cons_append] at htail
      have hne : r.dropWhile (fun c => !endsAuthority c) ≠ [] := by
        rw [← htail]
        simp
      have hhead : (r.dropWhile fun c => !endsAuthority c).head hne = c := by
        rw [List.head_eq_iff_head?_eq_some, ← htail]
        rfl
      have hc := List.head_dropWhile_not (fun c => !endsAuthority c) hne
      rw [hhead] at hc
      simp only [Bool.not_eq_false', endsAuthority, Bool.or_eq_true, beq_iff_eq] at hc
      rcases hc with rfl | rfl
      · rfl
      · exact absurd (by simp [hcut]) hpath

/-- **Parts that were put together are split into the same again.** -/
theorem partsOf_rest {p : Parts} (h : WellFormed p) : partsOf p.scheme (rest p) = p := by
  have hstop : (p.path ++ queryText p.query).takeWhile (fun c => !endsAuthority c) = [] ∧
      (p.path ++ queryText p.query).dropWhile (fun c => !endsAuthority c) =
        p.path ++ queryText p.query := by
    rcases h.path with hp | ⟨db, hp⟩
    · rw [hp, List.nil_append]
      cases p.query with
      | none => exact ⟨rfl, rfl⟩
      | some q =>
        exact ⟨List.takeWhile_cons_of_neg (by decide), List.dropWhile_cons_of_neg (by decide)⟩
    · rw [hp]
      exact ⟨List.takeWhile_cons_of_neg (by decide), List.dropWhile_cons_of_neg (by decide)⟩
  have hall : ∀ b ∈ userinfoText p.userinfo ++ p.hosts, (!endsAuthority b) = true := by
    intro b hb
    rw [h.userinfo b hb]
    rfl
  simp only [partsOf, rest]
  rw [List.append_assoc (userinfoText p.userinfo ++ p.hosts), List.takeWhile_append_of_pos hall,
    List.dropWhile_append_of_pos hall, hstop.1, hstop.2, List.append_nil, cutUserinfo_eq _ h.hosts,
    cutQuery_eq h.noQuery]

/-! ## Schemes -/

def IsScheme (scheme : Bytes) : Prop := scheme = schemeStandard ∨ scheme = schemeSRV

theorem IsScheme.eq {scheme : Bytes} (h : IsScheme scheme) :
    ∃ sch, scheme = sch ++ schemeEnd ∧ colon ∉ sch := by
  rcases h with rfl | rfl
  · exact ⟨ascii "mongodb", rfl, by decide⟩
  · exact ⟨ascii "mongodb+srv", rfl, by decide⟩

theorem cutScheme_eq_some {u scheme r : Bytes} :
    cutScheme u = some (scheme, r) ↔ IsScheme scheme ∧ u = scheme ++ r := by
  rw [cutScheme]
  constructor
  · intro h
    split_ifs at h with h1 h2
    · cases h
      obtain ⟨t, rfl⟩ := List.isPrefixOf_iff_prefix.mp h1
      exact ⟨.inl rfl, by rw [List.drop_left]⟩
    · cases h
      obtain ⟨t, rfl⟩ := List.isPrefixOf_iff_prefix.mp h2
      exact ⟨.inr rfl, by rw [List.drop_left]⟩
  · rintro ⟨rfl | rfl, rfl⟩
    · rw [if_pos (List.isPrefixOf_iff_prefix.mpr (List.prefix_append _ _)), List.drop_left]
    · have hno : schemeStandard.isPrefixOf (schemeSRV ++ r) = false := rfl
      rw [hno, if_neg Bool.false_ne_true,
        if_pos (List.isPrefixOf_iff_prefix.mpr (List.prefix_append _ _)), List.drop_left]

theorem parts_eq_some {u : Bytes} {p : Parts} :
    parts u = some p ↔ IsScheme p.scheme ∧ u = p.scheme ++ rest p ∧ WellFormed p := by
  rw [parts, Option.map_eq_some_iff]
  constructor
  · rintro ⟨⟨scheme, r⟩, hcut, rfl⟩
    obtain ⟨hs, rfl⟩ := cutScheme_eq_some.mp hcut
    exact ⟨hs, by rw [rest_partsOf]; rfl, wellFormed_partsOf _ _⟩
  · rintro ⟨hs, rfl, hwf⟩
    exact ⟨(p.scheme, rest p), cutScheme_eq_some.mpr ⟨hs, rfl⟩, partsOf_rest hwf⟩

theorem valid_iff {u : Bytes} {p : Parts} (hp : parts u = some p) :
    valid u = true ↔ validText (rest p) true = true ∧ validParts p true = true := by
  obtain ⟨hs, rfl, hwf⟩ := parts_eq_some.mp hp
  rw [valid, validate, cutScheme_eq_some.mpr ⟨hs, rfl⟩]
  simp only [Bool.and_eq_true]
  rw [partsOf_rest hwf]

/-! ## Characters -/

/-- A byte that may stand anywhere, and is in no escape. -/
structure Separator (c : UInt8) : Prop where
  ascii : c.toNat < 128
  notSpace : isASCIISpace c = false
  notHash : c ≠ hash
  notPercent : c ≠ percent
  notHex : isHex c = false
  char : isSpace (Char.ofNat c.toNat) = false

theorem separator_question : Separator question := by constructor <;> decide

theorem separator_ampersand : Separator ampersand := by constructor <;> decide

theorem separator_equals : Separator equals := by constructor <;> decide

theorem chars_append_cons {c : UInt8} (hc : c.toNat < 128) (s t : Bytes) : chars (s ++ c :: t) =
      (chars s).bind fun a => (chars t).map fun b => a ++ Char.ofNat c.toNat :: b := by
  ext cs
  rw [chars_eq_some, Option.bind_eq_some_iff]
  simp only [Option.map_eq_some_iff, chars_eq_some]
  constructor
  · intro h
    obtain ⟨cs₁, cs₂, rfl, hs, ht⟩ := utf8_eq_append_cons hc h.symm
    exact ⟨cs₁, hs.symm, cs₂, ht.symm, rfl⟩
  · rintro ⟨a, rfl, b, rfl, rfl⟩
    have hone : String.utf8EncodeChar (Char.ofNat c.toNat) = [c] := by
      have hn : (Char.ofNat c.toNat).toNat = c.toNat := by
        rw [Char.toNat, Char.ofNat, dif_pos (.inl (by omega))]
        rfl
      rcases utf8EncodeChar_cases (Char.ofNat c.toNat) with ⟨-, h⟩ | ⟨h, -⟩
      · rw [h, hn, UInt8.ofNat_toNat]
      · omega
    rw [utf8_append]
    simp [utf8, hone]

theorem validEscapes_cons {c : UInt8} (hc : c ≠ percent) (s : Bytes) :
    validEscapes (c :: s) = validEscapes s := by
  rw [validEscapes.eq_def]
  exact if_neg hc

theorem validEscapes_percent (a b : UInt8) (s : Bytes) :
    validEscapes (percent :: a :: b :: s) = (isHex a && isHex b && validEscapes s) := by
  rw [validEscapes.eq_def]
  exact if_pos rfl

theorem validEscapes_append_cons {c : UInt8} (hc : Separator c) (s t : Bytes) :
    validEscapes (s ++ c :: t) = (validEscapes s && validEscapes t) := by
  induction s using validEscapes.induct with
  | case1 => exact validEscapes_cons hc.notPercent t
  | case2 a b s ih =>
    rw [List.cons_append, List.cons_append, List.cons_append, validEscapes_percent,
      validEscapes_percent, ih]
    simp only [Bool.and_assoc]
  | case3 s hs =>
    -- the escape is cut off by the separator
    cases s with
    | nil =>
      cases t with
      | nil => rfl
      | cons b t =>
        have : validEscapes (percent :: c :: b :: t) = false := by
          rw [validEscapes_percent, hc.notHex, Bool.false_and, Bool.false_and]
        exact this
    | cons a s =>
      cases s with
      | nil =>
        have : validEscapes (percent :: a :: c :: t) = false := by
          rw [validEscapes_percent, hc.notHex, Bool.and_false, Bool.false_and]
        exact this
      | cons b s => exact absurd rfl (hs a b s)
  | case4 b s hb ih => rw [List.cons_append, validEscapes_cons hb, ih, validEscapes_cons hb]

/-- **The pieces on the two sides of a separator are checked separately.** -/
theorem validText_append_cons {c : UInt8} (hc : Separator c) (s t : Bytes) :
    validText (s ++ c :: t) true = (validText s true && validText t true) := by
  have hhash : (hash == c) = false := by
    rw [beq_eq_false_iff_ne]
    exact hc.notHash.symm
  have hchars : ((chars (s ++ c :: t)).any fun cs => !cs.any isSpace) =
      ((chars s).any (fun cs => !cs.any isSpace) && (chars t).any fun cs => !cs.any isSpace) := by
    rw [chars_append_cons hc.ascii]
    cases chars s with
    | none => rfl
    | some a =>
      cases chars t with
      | none => simp
      | some b => simp [hc.char]
  simp only [validText, List.any_append, List.any_cons, hc.notSpace, List.contains_append,
    List.contains_cons, hhash, hchars, validEscapes_append_cons hc, Bool.false_or, Bool.not_or,
    Bool.not_true]
  ac_rfl

/-! ## Options -/

/-- The query of these options. -/
def join (opts : List Bytes) : Bytes := [ampersand].intercalate opts

/-- The options that follow one. -/
def following (opts : List Bytes) : Bytes := opts.flatMap (ampersand :: ·)

/-- The options that come before one. -/
def preceding (opts : List Bytes) : Bytes := opts.flatMap (· ++ [ampersand])

theorem join_cons (o : Bytes) (opts : List Bytes) : join (o :: opts) = o ++ following opts := by
  induction opts generalizing o with
  | nil => simp [join, following]
  | cons o' opts ih =>
    rw [join, List.intercalate_cons_cons, ← join, ih, following, following, List.flatMap_cons]
    simp

theorem join_append (opts : List Bytes) (o : Bytes) (opts' : List Bytes) :
    join (opts ++ o :: opts') = preceding opts ++ (o ++ following opts') := by
  induction opts with
  | nil => exact join_cons o opts'
  | cons o' opts ih =>
    have hne : opts ++ o :: opts' ≠ [] := by simp
    rw [List.cons_append, join, List.intercalate_cons_of_ne_nil hne, ← join, ih, preceding, preceding,
      List.flatMap_cons]
    simp

theorem not_mem_of_mem_splitOn {q o : Bytes} (h : o ∈ q.splitOn ampersand) : ampersand ∉ o := by
  induction q generalizing o with
  | nil =>
    rw [List.splitOn_nil, List.mem_singleton] at h
    simp [h]
  | cons b q ih =>
    rw [List.splitOn_cons_eq_if_modifyHead] at h
    split_ifs at h with hb
    · rcases List.mem_cons.mp h with rfl | h
      · simp
      · exact ih h
    · cases hq : q.splitOn ampersand with
      | nil => exact absurd hq (List.splitOn_ne_nil _ _)
      | cons first more =>
        rw [hq, List.modifyHead_cons, List.mem_cons] at h
        rcases h with rfl | h
        · intro hmem
          rcases List.mem_cons.mp hmem with rfl | hmem
          · exact hb (by simp)
          · exact ih (by rw [hq]; simp) hmem
        · exact ih (by rw [hq]; simp [h])

theorem validText_join {opts : List Bytes} (hne : opts ≠ []) :
    validText (join opts) true = opts.all fun o => validText o true := by
  cases opts with
  | nil => exact absurd rfl hne
  | cons o opts =>
    rw [join_cons]
    induction opts generalizing o with
    | nil => simp [following]
    | cons o' opts ih =>
      rw [following, List.flatMap_cons, List.cons_append, validText_append_cons separator_ampersand,
        ← following, ih o' (by simp)]
      rfl

/-- What `Validate` says of an option. -/
structure ValidOption (o : Bytes) : Prop where
  single : ampersand ∉ o
  text : validText o true = true
  valid : validOption o true = true

theorem validOption_of_valid {u : Bytes} {p : Parts} (hv : valid u = true) (hp : parts u = some p)
    {o : Bytes} (ho : o ∈ p.options) : ValidOption o := by
  obtain ⟨htext, hparts⟩ := (valid_iff hp).mp hv
  refine ⟨not_mem_of_mem_splitOn ho, ?_, ?_⟩
  · cases hq : p.query with
    | none =>
      rw [Parts.options, hq] at ho
      rw [show o = [] by simpa using ho]
      decide
    | some q =>
      rw [rest, hq, queryText, validText_append_cons separator_question, Bool.and_eq_true] at htext
      have hall := htext.2
      have hjoin : join (q.splitOn ampersand) = q := List.intercalate_splitOn ampersand
      rw [← hjoin, validText_join (List.splitOn_ne_nil _ _), List.all_eq_true] at hall
      refine hall o ?_
      rw [Parts.options, hq] at ho
      exact ho
  · simp only [validParts, Bool.and_eq_true, List.all_eq_true] at hparts
    exact hparts.2 o ho

/-- **The options of a valid connection string can be exchanged for other valid ones.** -/
theorem valid_of_options {u : Bytes} {p : Parts} (hv : valid u = true) (hp : parts u = some p)
    (hq : p.query.isSome) {opts : List Bytes} (hne : opts ≠ []) (hopts : ∀ o ∈ opts, ValidOption o) :
    parts (p.scheme ++ rest { p with query := some (join opts) }) =
        some { p with query := some (join opts) } ∧
      valid (p.scheme ++ rest { p with query := some (join opts) }) = true ∧
      ({ p with query := some (join opts) } : Parts).options = opts := by
  obtain ⟨hs, -, hwf⟩ := parts_eq_some.mp hp
  obtain ⟨htext, hparts⟩ := (valid_iff hp).mp hv
  have hoptions : ({ p with query := some (join opts) } : Parts).options = opts :=
    List.splitOn_intercalate ampersand (fun o ho => (hopts o ho).single) hne
  have hp' : parts (p.scheme ++ rest { p with query := some (join opts) }) =
      some { p with query := some (join opts) } :=
    parts_eq_some.mpr ⟨hs, rfl, hwf.userinfo, hwf.hosts, hwf.path, hwf.noQuery⟩
  refine ⟨hp', (valid_iff hp').mpr ⟨?_, ?_⟩, hoptions⟩
  · obtain ⟨q, hq⟩ := Option.isSome_iff_exists.mp hq
    rw [rest, hq, queryText, validText_append_cons separator_question, Bool.and_eq_true] at htext
    rw [rest, queryText, validText_append_cons separator_question, validText_join hne, htext.1]
    simp only [Bool.true_and, List.all_eq_true]
    exact fun o ho => (hopts o ho).text
  · simp only [validParts, Bool.and_eq_true, hoptions, List.all_eq_true] at hparts ⊢
    exact ⟨hparts.1, fun o ho => (hopts o ho).valid⟩

end MongoRescue.MongoUri.Proof
