import MongoRescue.Lib.Utf8

/-!
# Strings and maps of strings in JSON

What `encoding/json` writes for a string (`quote`) and for a `map[string]string` (`StringMap.text`),
and what `json.Unmarshal` reads into such a map (`StringMap.unmarshal`). A quoted string can be told
from what follows it (`quote_append_inj`), as can a map (`text_append_inj`), where the first of the
two texts is made of valid strings without control characters; and what was written is read back
(`unmarshal_text`).
-/

namespace Go.Json

/-! ## Strings -/

/-- The characters with an escape of two characters, and the second of those. -/
def shortEscapes : List (Char × Char) :=
  [('"', '"'), ('\\', '\\'), ('\x08', 'b'), ('\x0c', 'f'), ('\n', 'n'), ('\x0d', 'r'), ('\t', 't')]

def shortEscape (c : Char) : Option Char := (shortEscapes.find? (·.1 = c)).map (·.2)

/-- Four hexadecimal digits. -/
def hex4 (n : Nat) : List Char :=
  [hexDigit (n / 4096 % 16), hexDigit (n / 256 % 16), hexDigit (n / 16 % 16), hexDigit (n % 16)]

/-- The characters written as `\u` and their number: control characters, the line and paragraph
separator, and with `html` those that mean something in HTML. -/
def longEscape (html : Bool) (c : Char) : Bool :=
  decide (c.toNat < 32) || c = '\u2028' || c = '\u2029' || (html && (c = '<' || c = '>' || c = '&'))

def escapeChar (html : Bool) (c : Char) : List Char :=
  match shortEscape c with
  | some e => ['\\', e]
  | none => if longEscape html c then '\\' :: 'u' :: hex4 c.toNat else [c]

/-- One rune of a string; an invalid byte is written as the replacement character. -/
def escape (html : Bool) : Rune → List Char
  | .char c => escapeChar html c
  | .invalid _ => '\\' :: 'u' :: hex4 0xfffd

/-- A string between its quotes. `html` is the encoder's `SetEscapeHTML`. -/
def quote (html : Bool) (s : Bytes) : List Char :=
  '"' :: ((runes s).flatMap (escape html) ++ ['"'])

/-! ## Reading a string -/

def readHex4 : List Char → Option (Nat × List Char)
  | a :: b :: c :: d :: cs => do
    let a ← hexValue a
    let b ← hexValue b
    let c ← hexValue c
    let d ← hexValue d
    return (((a * 16 + b) * 16 + c) * 16 + d, cs)
  | _ => none

/-- The second half of a surrogate pair that starts with `n`: the character and what follows. -/
def readPair (n : Nat) : List Char → Option (Char × List Char)
  | b :: u :: cs =>
    if b = '\\' ∧ u = 'u' then
      match readHex4 cs with
      | some (m, rest) =>
        if n < 0xdc00 ∧ 0xdc00 ≤ m ∧ m < 0xe000 then
          some (Char.ofNat ((n - 0xd800) * 1024 + (m - 0xdc00) + 0x10000), rest)
        else none
      | none => none
    else none
  | _ => none

/-- The character of `\u` and its four digits, which may need a second such escape. -/
def readLong (cs : List Char) : Option (Char × List Char) :=
  match readHex4 cs with
  | none => none
  | some (n, rest) =>
    if 0xd800 ≤ n ∧ n < 0xe000 then some ((readPair n rest).getD ('\ufffd', rest))
    else some (Char.ofNat n, rest)

def readShort (e : Char) : Option Char :=
  if e = '/' then some '/' else (shortEscapes.find? (·.2 = e)).map (·.1)

/-- One character of a string that does not end here, escaped or not. -/
def readChar : List Char → Option (Char × List Char)
  | [] => none
  | c :: cs =>
    if c = '\\' then
      match cs with
      | [] => none
      | e :: cs => if e = 'u' then readLong cs else (readShort e).map fun c => (c, cs)
    else if c.toNat < 32 then none
    else some (c, cs)

/-- What stands before the closing quote, and what follows it. -/
def readString : Nat → List Char → Option (List Char × List Char)
  | 0, _ => none
  | fuel + 1, cs =>
    if cs.head? = some '"' then some ([], cs.tail)
    else do
      let (c, cs) ← readChar cs
      let (s, rest) ← readString fuel cs
      return (c :: s, rest)

/-! ## Maps of strings -/

/-- A `map[string]string`, by its keys in order. -/
structure StringMap where
  pairs : List (Bytes × Bytes)
  sorted : pairs.Pairwise fun p q => p.1 < q.1
  deriving DecidableEq

def insertPair (k v : Bytes) : List (Bytes × Bytes) → List (Bytes × Bytes)
  | [] => [(k, v)]
  | p :: ps =>
    if k = p.1 then (k, v) :: ps
    else if k < p.1 then (k, v) :: p :: ps
    else p :: insertPair k v ps

variable {k v : Bytes} {ps : List (Bytes × Bytes)} {c e : Char} {r r' : List Char} {m m' : StringMap}

theorem mem_insertPair {q : Bytes × Bytes} (h : q ∈ insertPair k v ps) : q = (k, v) ∨ q ∈ ps := by
  induction ps with
  | nil => exact .inl (List.mem_singleton.mp h)
  | cons p ps ih =>
    unfold insertPair at h
    split at h
    · rcases List.mem_cons.mp h with h | h
      · exact .inl h
      · exact .inr (List.mem_cons_of_mem _ h)
    · split at h
      · exact List.mem_cons.mp h
      · rcases List.mem_cons.mp h with rfl | h
        · exact .inr List.mem_cons_self
        · exact (ih h).imp id (List.mem_cons_of_mem _)

theorem insertPair_sorted (k v : Bytes) (h : ps.Pairwise fun p q => p.1 < q.1) :
    (insertPair k v ps).Pairwise fun p q => p.1 < q.1 := by
  induction ps with
  | nil => exact List.pairwise_singleton _ _
  | cons p ps ih =>
    obtain ⟨hp, hps⟩ := List.pairwise_cons.mp h
    unfold insertPair
    split
    · rename_i hk
      exact List.pairwise_cons.mpr ⟨fun q hq => hk ▸ hp q hq, hps⟩
    · split
      · rename_i hlt
        refine List.pairwise_cons.mpr ⟨fun q hq => ?_, h⟩
        rcases List.mem_cons.mp hq with rfl | hq
        · exact hlt
        · exact List.lt_trans hlt (hp q hq)
      · rename_i hne hlt
        refine List.pairwise_cons.mpr ⟨fun q hq => ?_, ih hps⟩
        rcases mem_insertPair hq with rfl | hq
        · exact Std.lt_of_le_of_ne hlt (Ne.symm hne)
        · exact hp q hq

namespace StringMap

def empty : StringMap := ⟨[], List.Pairwise.nil⟩

def set (m : StringMap) (k v : Bytes) : StringMap :=
  ⟨insertPair k v m.pairs, insertPair_sorted k v m.sorted⟩

def pairText (html : Bool) (p : Bytes × Bytes) : List Char := quote html p.1 ++ ':' :: quote html p.2

/-- What follows the first pair of an object. -/
def restText (html : Bool) : List (Bytes × Bytes) → List Char
  | [] => ['\x7d']
  | p :: ps => ',' :: (pairText html p ++ restText html ps)

def pairsText (html : Bool) : List (Bytes × Bytes) → List Char
  | [] => ['\x7b', '\x7d']
  | p :: ps => '\x7b' :: (pairText html p ++ restText html ps)

/-- The object that a map is written as, its keys in order. -/
def text (html : Bool) (m : StringMap) : List Char := pairsText html m.pairs

end StringMap

/-! ## Reading a map of strings -/

def isWhitespace (c : Char) : Bool := c = ' ' || c = '\t' || c = '\n' || c = '\x0d'

def skipWhitespace (cs : List Char) : List Char := cs.dropWhile isWhitespace

/-- What follows `c`, which whitespace may precede. -/
def expect (c : Char) (cs : List Char) : Option (List Char) :=
  if (skipWhitespace cs).head? = some c then some (skipWhitespace cs).tail else none

/-- A value that a string of a map can be read from; `null` leaves it empty, and any other value is
an error, of syntax or of type. -/
def readValue (cs : List Char) : Option (List Char × List Char) :=
  if cs.head? = some '"' then readString cs.length cs.tail
  else if cs.take 4 = ['n', 'u', 'l', 'l'] then some ([], cs.drop 4)
  else none

def readPairOf (cs : List Char) : Option ((List Char × List Char) × List Char) := do
  let cs ← expect '"' cs
  let (k, cs) ← readString (cs.length + 1) cs
  let cs ← expect ':' cs
  let (v, cs) ← readValue (skipWhitespace cs)
  return ((k, v), cs)

def readPairs : Nat → StringMap → List Char → Option (StringMap × List Char)
  | 0, _, _ => none
  | fuel + 1, m, cs => do
    let ((k, v), cs) ← readPairOf cs
    match expect ',' cs with
    | some cs => readPairs fuel (m.set (utf8 k) (utf8 v)) cs
    | none => (expect '\x7d' cs).map fun cs => (m.set (utf8 k) (utf8 v), cs)

def readObject (cs : List Char) : Option (StringMap × List Char) :=
  match expect '\x7d' cs with
  | some cs => some (StringMap.empty, cs)
  | none => readPairs cs.length StringMap.empty cs

/-- The characters of a text, with the replacement character for its invalid bytes. -/
def charOf : Rune → Char
  | .char c => c
  | .invalid _ => '\ufffd'

/-- `json.Unmarshal` into a `map[string]string` that is nil, none for an error; `null` leaves the map
nil, which reads like an empty one. -/
def StringMap.unmarshal (text : Bytes) : Option StringMap :=
  let cs := (runes text).map charOf
  match expect '\x7b' cs with
  | some cs =>
    match readObject cs with
    | some (m, cs) => if skipWhitespace cs = [] then some m else none
    | none => none
  | none =>
    if (skipWhitespace cs).take 4 = ['n', 'u', 'l', 'l'] ∧
        skipWhitespace ((skipWhitespace cs).drop 4) = [] then some StringMap.empty
    else none

/-! ## What was written can be told from what follows it -/

/-- Characters that need no escape, or one of two characters. -/
def Plain (c : Char) : Prop := longEscape false c = false

/-- A string of plain characters. -/
def PlainString (s : Bytes) : Prop := ∃ cs : List Char, s = utf8 cs ∧ ∀ c ∈ cs, Plain c

theorem shortEscape_some (h : shortEscape c = some e) : (c, e) ∈ shortEscapes := by
  obtain ⟨p, hp, rfl⟩ := Option.map_eq_some_iff.mp h
  have hc : p.1 = c := by simpa using List.find?_some hp
  rw [← hc]
  exact List.mem_of_find?_eq_some hp

theorem shortEscape_none (h : shortEscape c = none) : c ≠ '"' ∧ c ≠ '\\' := by
  constructor
  · rintro rfl
    cases h
  · rintro rfl
    cases h

/-- The three ways a rune is written. -/
theorem escape_cases (html : Bool) (u : Rune) :
    (∃ c e, u = .char c ∧ shortEscape c = some e ∧ escape html u = ['\\', e]) ∨
    (∃ n, escape html u = '\\' :: 'u' :: hex4 n) ∨
    (∃ c, u = .char c ∧ shortEscape c = none ∧ escape html u = [c]) := by
  cases u with
  | invalid b => exact .inr (.inl ⟨_, rfl⟩)
  | char c =>
    simp only [escape, escapeChar]
    cases h : shortEscape c with
    | some e => exact .inl ⟨c, e, rfl, h, rfl⟩
    | none =>
      by_cases hl : longEscape html c
      · exact .inr (.inl ⟨c.toNat, by simp [hl]⟩)
      · exact .inr (.inr ⟨c, rfl, h, by simp [hl]⟩)

/-- A plain character stands for itself, after a backslash if it is a quote or a backslash. -/
theorem shortEscape_plain (hc : Plain c) (h : shortEscape c = some e) :
    e = c ∧ (c = '"' ∨ c = '\\') := by
  have table : ∀ p ∈ shortEscapes, p.1.toNat < 32 ∨ p.2 = p.1 ∧ (p.1 = '"' ∨ p.1 = '\\') := by
    decide
  rcases table _ (shortEscape_some h) with h32 | hplain
  · simp [Plain, longEscape, h32] at hc
  · exact hplain

theorem escape_plain (hc : Plain c) : escape false (.char c) = ['\\', c] ∧ (c = '"' ∨ c = '\\') ∨
      escape false (.char c) = [c] ∧ c ≠ '"' ∧ c ≠ '\\' := by
  simp only [escape, escapeChar]
  cases h : shortEscape c with
  | some e =>
    obtain ⟨rfl, hq⟩ := shortEscape_plain hc h
    exact .inl ⟨rfl, hq⟩
  | none => exact .inr ⟨by rw [show longEscape false c = false from hc]; rfl, shortEscape_none h⟩

/-- An escape of two characters that a plain character is written as is written for no other. -/
theorem escape_backslash {u : Rune} (hc : c = '"' ∨ c = '\\')
    (h : '\\' :: c :: r = escape false u ++ r') : u = .char c ∧ r = r' := by
  have table : ∀ p ∈ shortEscapes, p.2 = '"' ∨ p.2 = '\\' → p.1 = p.2 := by decide
  rcases escape_cases false u with ⟨x, e, rfl, hs, hu⟩ | ⟨n, hu⟩ | ⟨x, rfl, hs, hu⟩
  · rw [hu] at h
    simp only [List.cons_append, List.nil_append, List.cons.injEq, true_and] at h
    obtain ⟨rfl, rfl⟩ := h
    have hx : x = c := table _ (shortEscape_some hs) hc
    exact ⟨by rw [hx], rfl⟩
  · rw [hu] at h
    simp only [List.cons_append, List.cons.injEq, true_and] at h
    rcases hc with rfl | rfl
    · exact absurd h.1 (by decide)
    · exact absurd h.1 (by decide)
  · rw [hu] at h
    simp only [List.cons_append, List.cons.injEq] at h
    exact absurd h.1.symm (shortEscape_none hs).2

theorem escape_self {u : Rune} (hc : c ≠ '\\') (h : c :: r = escape false u ++ r') :
    u = .char c ∧ r = r' := by
  rcases escape_cases false u with ⟨x, e, rfl, hs, hu⟩ | ⟨n, hu⟩ | ⟨x, rfl, hs, hu⟩
  · rw [hu] at h
    simp only [List.cons_append, List.cons.injEq] at h
    exact absurd h.1 hc
  · rw [hu] at h
    simp only [List.cons_append, List.cons.injEq] at h
    exact absurd h.1 hc
  · rw [hu] at h
    simp only [List.cons_append, List.nil_append, List.cons.injEq] at h
    exact ⟨by rw [h.1], h.2⟩

theorem escape_head (html : Bool) (u : Rune) (r : List Char) : (escape html u ++ r).head? ≠ some '"' := by
  rcases escape_cases html u with ⟨c, e, rfl, hs, hu⟩ | ⟨n, hu⟩ | ⟨c, rfl, hs, hu⟩
  · rw [hu]
    exact (by decide : some '\\' ≠ some '"')
  · rw [hu]
    exact (by decide : some '\\' ≠ some '"')
  · rw [hu]
    simpa using (shortEscape_none hs).1

theorem escapes_inj {cs : List Char} {us : List Rune} (hcs : ∀ c ∈ cs, Plain c)
    (h : (cs.map Rune.char).flatMap (escape false) ++ '"' :: r = us.flatMap (escape false) ++ '"' :: r') :
    us = cs.map .char ∧ r = r' := by
  induction cs generalizing us with
  | nil =>
    cases us with
    | nil => simpa using h
    | cons u us =>
      rw [List.flatMap_cons, List.append_assoc] at h
      exact absurd (congrArg List.head? h).symm (escape_head false u _)
  | cons c cs ih =>
    have hc := hcs c List.mem_cons_self
    have hcs' : ∀ x ∈ cs, Plain x := fun x hx => hcs x (List.mem_cons_of_mem _ hx)
    cases us with
    | nil =>
      rw [List.map_cons, List.flatMap_cons, List.append_assoc] at h
      exact absurd (congrArg List.head? h) (escape_head false (.char c) _)
    | cons u us =>
      rw [List.map_cons, List.flatMap_cons, List.append_assoc, List.flatMap_cons,
        List.append_assoc] at h
      rcases escape_plain hc with ⟨he, hq⟩ | ⟨he, -, hb⟩
      · rw [he] at h
        obtain ⟨rfl, hrest⟩ := escape_backslash hq h
        obtain ⟨rfl, rfl⟩ := ih hcs' hrest
        exact ⟨rfl, rfl⟩
      · rw [he] at h
        obtain ⟨rfl, hrest⟩ := escape_self hb h
        obtain ⟨rfl, rfl⟩ := ih hcs' hrest
        exact ⟨rfl, rfl⟩

/-- **A quoted string determines what it was made from**, where that is a string of plain characters;
the other may be any string. -/
theorem quote_append_inj {s t : Bytes} (hs : PlainString s)
    (h : quote false s ++ r = quote false t ++ r') : s = t ∧ r = r' := by
  obtain ⟨cs, rfl, hcs⟩ := hs
  simp only [quote, List.cons_append, List.append_assoc, List.nil_append, List.cons.injEq,
    true_and, runes_utf8] at h
  obtain ⟨hrunes, rfl⟩ := escapes_inj hcs h
  refine ⟨runes_injective ?_, rfl⟩
  rw [hrunes, runes_utf8]

def PlainPair (p : Bytes × Bytes) : Prop := PlainString p.1 ∧ PlainString p.2

theorem pairText_append_inj {p q : Bytes × Bytes} (hp : PlainPair p)
    (h : StringMap.pairText false p ++ r = StringMap.pairText false q ++ r') : p = q ∧ r = r' := by
  simp only [StringMap.pairText, List.append_assoc] at h
  obtain ⟨h1, hrest⟩ := quote_append_inj hp.1 h
  simp only [List.cons_append, List.cons.injEq, true_and] at hrest
  obtain ⟨h2, rfl⟩ := quote_append_inj hp.2 hrest
  exact ⟨Prod.ext h1 h2, rfl⟩

theorem restText_append_inj {qs : List (Bytes × Bytes)} (hps : ∀ p ∈ ps, PlainPair p)
    (h : StringMap.restText false ps ++ r = StringMap.restText false qs ++ r') : ps = qs ∧ r = r' := by
  induction ps generalizing qs with
  | nil =>
    cases qs with
    | nil => simpa [StringMap.restText] using h
    | cons q qs => simp [StringMap.restText] at h
  | cons p ps ih =>
    cases qs with
    | nil => simp [StringMap.restText] at h
    | cons q qs =>
      simp only [StringMap.restText, List.cons_append, List.append_assoc, List.cons.injEq,
        true_and] at h
      obtain ⟨rfl, hrest⟩ := pairText_append_inj (hps p List.mem_cons_self) h
      obtain ⟨rfl, rfl⟩ := ih (fun x hx => hps x (List.mem_cons_of_mem _ hx)) hrest
      exact ⟨rfl, rfl⟩

/-- **A map determines its text and its text the map**, where its strings are plain; the other map may
be any. -/
theorem text_append_inj (hm : ∀ p ∈ m.pairs, PlainPair p) (h : m.text false ++ r = m'.text false ++ r') :
    m = m' ∧ r = r' := by
  obtain ⟨ps, hps⟩ := m
  obtain ⟨qs, hqs⟩ := m'
  simp only [StringMap.text] at h hm
  cases ps with
  | nil =>
    cases qs with
    | nil => exact ⟨rfl, by simpa [StringMap.pairsText] using h⟩
    | cons q qs => simp [StringMap.pairsText, StringMap.pairText, quote] at h
  | cons p ps =>
    cases qs with
    | nil => simp [StringMap.pairsText, StringMap.pairText, quote] at h
    | cons q qs =>
      simp only [StringMap.pairsText, List.cons_append, List.append_assoc, List.cons.injEq,
        true_and] at h
      obtain ⟨rfl, hrest⟩ := pairText_append_inj (hm p List.mem_cons_self) h
      obtain ⟨rfl, rfl⟩ := restText_append_inj (fun x hx => hm x (List.mem_cons_of_mem _ hx)) hrest
      exact ⟨rfl, rfl⟩

/-! ## What was written is read back -/

theorem hexValue_hexDigit : ∀ n < 16, hexValue (hexDigit n) = some n := by decide

theorem readHex4_hex4 {n : Nat} (h : n < 65536) (cs : List Char) :
    readHex4 (hex4 n ++ cs) = some (n, cs) := by
  have digit (k : Nat) : hexValue (hexDigit (k % 16)) = some (k % 16) :=
    hexValue_hexDigit _ (Nat.mod_lt _ (by decide))
  simp only [hex4, List.cons_append, List.nil_append, readHex4, digit, Option.bind_eq_bind,
    Option.bind_some]
  simp only [pure, Option.some.injEq, Prod.mk.injEq, and_true]
  omega

theorem longEscape_lt {html : Bool} (h : longEscape html c = true) : c.toNat < 0xd800 := by
  simp only [longEscape, Bool.or_eq_true, Bool.and_eq_true, decide_eq_true_eq] at h
  rcases h with ((h | rfl) | rfl) | ⟨-, (rfl | rfl) | rfl⟩
  · omega
  all_goals decide

theorem readChar_escapeChar (html : Bool) (c : Char) (cs : List Char) :
    readChar (escapeChar html c ++ cs) = some (c, cs) := by
  have table : ∀ p ∈ shortEscapes, p.2 ≠ 'u' ∧ readShort p.2 = some p.1 := by decide
  unfold escapeChar
  cases h : shortEscape c with
  | some e =>
    obtain ⟨hu, hread⟩ := table _ (shortEscape_some h)
    simp [readChar, hu, hread]
  | none =>
    by_cases hl : longEscape html c
    · have hlt := longEscape_lt hl
      have hread := readHex4_hex4 (show c.toNat < 65536 by omega) cs
      have hnot : ¬ (0xd800 ≤ c.toNat ∧ c.toNat < 0xe000) := by omega
      simp [readChar, hl, readLong, hread, hnot]
    · have h32 : ¬ c.toNat < 32 := by
        intro h32
        simp [longEscape, h32] at hl
      simp [readChar, hl, (shortEscape_none h).2, h32]

theorem readString_escapes (html : Bool) {cs : List Char} {fuel : Nat} (hfuel : cs.length < fuel) :
    readString fuel ((cs.map Rune.char).flatMap (escape html) ++ '"' :: r) = some (cs, r) := by
  induction cs generalizing fuel with
  | nil =>
    obtain ⟨fuel, rfl⟩ : ∃ n, fuel = n + 1 := ⟨fuel - 1, by simp at hfuel; omega⟩
    simp [readString]
  | cons c cs ih =>
    obtain ⟨fuel, rfl⟩ : ∃ n, fuel = n + 1 := ⟨fuel - 1, by simp at hfuel; omega⟩
    have hih := ih (show cs.length < fuel by simp at hfuel; omega)
    have hhead := escape_head html (.char c)
      ((cs.map Rune.char).flatMap (escape html) ++ '"' :: r)
    rw [List.map_cons, List.flatMap_cons, List.append_assoc, readString, if_neg hhead]
    simp [escape, readChar_escapeChar, hih]

theorem length_le_escapes (html : Bool) (cs : List Char) :
    cs.length ≤ ((cs.map Rune.char).flatMap (escape html)).length := by
  induction cs with
  | nil => simp
  | cons c cs ih =>
    have : 1 ≤ (escape html (.char c)).length := by
      rcases escape_cases html (.char c) with ⟨x, e, -, -, h⟩ | ⟨n, h⟩ | ⟨x, -, -, h⟩ <;> simp [h]
    simp only [List.map_cons, List.flatMap_cons, List.length_append, List.length_cons]
    omega

theorem expect_cons (hc : isWhitespace c = false) (cs : List Char) : expect c (c :: cs) = some cs := by
  simp [expect, skipWhitespace, hc]

theorem expect_cons_ne (he : isWhitespace e = false) (h : e ≠ c) (cs : List Char) :
    expect c (e :: cs) = none := by
  simp [expect, skipWhitespace, he, h]

/-- A string of characters, every one of them encoded. -/
def ValidString (s : Bytes) : Prop := ∃ cs : List Char, s = utf8 cs

theorem readPairOf_pairText (html : Bool) (k v r : List Char) :
    readPairOf (StringMap.pairText html (utf8 k, utf8 v) ++ r) = some ((k, v), r) := by
  have hk := length_le_escapes html k
  have hv := length_le_escapes html v
  have quote_eq (s t : List Char) :
      quote html (utf8 s) ++ t = '"' :: ((s.map Rune.char).flatMap (escape html) ++ '"' :: t) := by
    simp [quote]
  simp only [StringMap.pairText, List.append_assoc, List.cons_append, quote_eq]
  rw [readPairOf, expect_cons (by decide)]
  simp only [Option.bind_eq_bind, Option.bind_some]
  rw [readString_escapes html (by simp only [List.length_append]; omega)]
  simp only [Option.bind_some]
  rw [expect_cons (by decide)]
  simp only [Option.bind_some, skipWhitespace]
  rw [List.dropWhile_cons_of_neg (by decide), readValue, List.head?_cons, if_pos rfl, List.tail_cons,
    readString_escapes html (by simp only [List.length_cons, List.length_append]; omega)]
  rfl

theorem insertPair_append {qs : List (Bytes × Bytes)} (h : ∀ q ∈ qs, q.1 < k) :
    insertPair k v qs = qs ++ [(k, v)] := by
  induction qs with
  | nil => rfl
  | cons q qs ih =>
    have hq := h q List.mem_cons_self
    have hne : k ≠ q.1 := fun he => List.lt_irrefl k (by rw [← he] at hq; exact hq)
    rw [insertPair, if_neg hne, if_neg (List.lt_asymm hq),
      ih fun x hx => h x (List.mem_cons_of_mem _ hx), List.cons_append]

/-- A pair behind all others is added at the end. -/
theorem set_last (h : m'.pairs = m.pairs ++ (k, v) :: ps) :
    (m.set k v).pairs = m.pairs ++ [(k, v)] := by
  have hs := m'.sorted
  rw [h, List.pairwise_append] at hs
  exact insertPair_append fun q hq => hs.2.2 q hq _ List.mem_cons_self

theorem StringMap.ext (h : m.pairs = m'.pairs) : m = m' := by
  cases m
  cases m'
  simpa using h

/-- Pairs in order are read into the map that has them behind those it had. -/
theorem readPairs_text (html : Bool) {p : Bytes × Bytes} {fuel : Nat}
    (hvalid : ∀ q ∈ p :: ps, ValidString q.1 ∧ ValidString q.2) (hm' : m'.pairs = m.pairs ++ p :: ps)
    (hfuel : ps.length < fuel) :
    readPairs fuel m (StringMap.pairText html p ++ (StringMap.restText html ps ++ r)) =
      some (m', r) := by
  induction ps generalizing p m fuel with
  | nil =>
    obtain ⟨fuel, rfl⟩ : ∃ n, fuel = n + 1 := ⟨fuel - 1, by simp at hfuel; omega⟩
    obtain ⟨⟨k, hk⟩, v, hv⟩ := hvalid p List.mem_cons_self
    obtain rfl : p = (utf8 k, utf8 v) := Prod.ext hk hv
    have hset : m.set (utf8 k) (utf8 v) = m' := StringMap.ext ((set_last hm').trans hm'.symm)
    rw [readPairs, readPairOf_pairText]
    simp only [Option.bind_eq_bind, Option.bind_some, StringMap.restText, List.cons_append,
      List.nil_append]
    rw [expect_cons_ne (by decide) (by decide), expect_cons (by decide), hset]
    rfl
  | cons p' ps ih =>
    obtain ⟨fuel, rfl⟩ : ∃ n, fuel = n + 1 := ⟨fuel - 1, by simp at hfuel; omega⟩
    obtain ⟨⟨k, hk⟩, v, hv⟩ := hvalid p List.mem_cons_self
    obtain rfl : p = (utf8 k, utf8 v) := Prod.ext hk hv
    have hset : m'.pairs = (m.set (utf8 k) (utf8 v)).pairs ++ p' :: ps := by
      rw [set_last hm', hm', List.append_assoc, List.singleton_append]
    rw [readPairs, readPairOf_pairText]
    simp only [Option.bind_eq_bind, Option.bind_some, StringMap.restText, List.cons_append,
      List.append_assoc]
    rw [expect_cons (by decide)]
    exact ih (fun q hq => hvalid q (List.mem_cons_of_mem _ hq)) hset
      (by simp only [List.length_cons] at hfuel; omega)

theorem length_le_restText (html : Bool) (ps : List (Bytes × Bytes)) :
    ps.length < (StringMap.restText html ps).length := by
  induction ps with
  | nil => simp [StringMap.restText]
  | cons p ps ih =>
    simp only [StringMap.restText, List.length_cons, List.length_append]
    omega

/-- **A map of valid strings is read back as it was written.** -/
theorem unmarshal_text (html : Bool) (hm : ∀ q ∈ m.pairs, ValidString q.1 ∧ ValidString q.2) :
    StringMap.unmarshal (utf8 (m.text html)) = some m := by
  have hchars : (runes (utf8 (m.text html))).map charOf = m.text html := by
    rw [runes_utf8, List.map_map]
    exact List.map_id _
  obtain ⟨ps, hps⟩ := m
  rw [StringMap.unmarshal, hchars]
  simp only [StringMap.text]
  cases ps with
  | nil => rfl
  | cons p ps =>
    simp only [StringMap.pairsText]
    rw [expect_cons (by decide)]
    have hlen := length_le_restText html ps
    have hread : readPairs (StringMap.pairText html p ++ StringMap.restText html ps).length
        StringMap.empty (StringMap.pairText html p ++ (StringMap.restText html ps ++ [])) =
          some (⟨p :: ps, hps⟩, []) :=
      readPairs_text html hm rfl (by rw [List.length_append]; omega)
    have hobject : readObject (StringMap.pairText html p ++ StringMap.restText html ps) =
        some (⟨p :: ps, hps⟩, []) := by
      rw [List.append_nil] at hread
      unfold readObject
      rw [StringMap.pairText, quote, List.cons_append, List.cons_append,
        expect_cons_ne (by decide) (by decide)]
      exact hread
    dsimp only
    rw [hobject]
    rfl

end Go.Json
