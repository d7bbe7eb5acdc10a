import MongoRescue.Lib.Go

/-!
# BSON documents

A document is the list of its elements in order; keys may repeat, and `lookup` finds the first. An
array is a document whose keys nobody reads. `Value.encode` is the value part of an element's
encoding, which is what identifies a transaction and what index key patterns are compared by.
-/

namespace MongoRescue.Oplog

open Go (Bytes)

inductive Value
  | double (bits : UInt64)
  | str (s : String)
  | doc (d : List (String × Value))
  | array (d : List (String × Value))
  | bool (b : Bool)
  | int32 (n : Int32)
  | int64 (n : Int64)
  | timestamp (t i : UInt32)
  /-- Any other type: its code and the bytes of the value. -/
  | other (type : UInt8) (data : Bytes)
  deriving Repr

abbrev Doc := List (String × Value)

/-- A position in the oplog, `bson.Timestamp`. -/
structure Timestamp where
  t : UInt32 := 0
  i : UInt32 := 0
  deriving DecidableEq

/-- `Before`: sorts by seconds, then by increment. -/
def Timestamp.before (a b : Timestamp) : Bool :=
  decide (a.t < b.t) || (decide (a.t = b.t) && decide (a.i < b.i))

/-! ## Reading -/

namespace Value

def str? : Value → Option String
  | .str s => some s
  | _ => none

def doc? : Value → Option Doc
  | .doc d => some d
  | _ => none

def array? : Value → Option Doc
  | .array d => some d
  | _ => none

def bool? : Value → Option Bool
  | .bool b => some b
  | _ => none

def timestamp? : Value → Option Timestamp
  | .timestamp t i => some ⟨t, i⟩
  | _ => none

/-- The truncation of a double to `int64`; the smallest `int64` when it does not fit. -/
def truncDouble (bits : UInt64) : Int :=
  let e := ((bits >>> 52) &&& 0x7ff).toNat
  let m := (bits &&& 0xfffffffffffff).toNat + (if e = 0 then 0 else 2 ^ 52)
  let a := if e < 1075 then m / 2 ^ (1075 - e) else m * 2 ^ (e - 1075)
  let n : Int := if bits >>> 63 = 1 then -(a : Int) else a
  if n < Go.minInt64 ∨ Go.maxInt64 < n then Go.minInt64 else n

/-- `AsInt64OK`. -/
def asInt64? : Value → Option Int
  | .double bits => some (truncDouble bits)
  | .int32 n => some n.toInt
  | .int64 n => some n.toInt
  | _ => none

end Value

namespace Doc

/-- `Lookup`: the first element with the key. -/
def lookup (d : Doc) (key : String) : Option Value := (d.find? (·.1 = key)).map (·.2)

def str (d : Doc) (key : String) : Option String := (d.lookup key).bind Value.str?

def doc (d : Doc) (key : String) : Option Doc := (d.lookup key).bind Value.doc?

def array (d : Doc) (key : String) : Option Doc := (d.lookup key).bind Value.array?

/-- Field `key` is the boolean true. -/
def isTrue (d : Doc) (key : String) : Bool := (d.lookup key).bind Value.bool? = some true

/-- `rebuild`: copies the elements in order through `edit`, which returns each element's new value,
or drops it. -/
def rebuild (d : Doc) (edit : String → Value → Option Value) : Doc :=
  d.filterMap fun e => (edit e.1 e.2).map (e.1, ·)

variable {d : Doc} {edit : String → Value → Option Value} {k : String} {v : Value}

theorem mem_rebuild : (k, v) ∈ d.rebuild edit ↔ ∃ u, (k, u) ∈ d ∧ edit k u = some v := by
  simp only [rebuild, List.mem_filterMap, Option.map_eq_some_iff, Prod.mk.injEq, Prod.exists]
  constructor
  · rintro ⟨k', u, hm, w, he, rfl, rfl⟩
    exact ⟨u, hm, he⟩
  · rintro ⟨u, hm, he⟩
    exact ⟨k, u, hm, v, he, rfl, rfl⟩

theorem lookup_mem (h : d.lookup k = some v) : (k, v) ∈ d := by
  simp only [lookup, Option.map_eq_some_iff, Prod.exists] at h
  obtain ⟨k', u, hf, rfl⟩ := h
  have hk : k' = k := by simpa using List.find?_some hf
  exact hk ▸ List.mem_of_find?_eq_some hf

/-- A field that `edit` keeps is found with its new value. -/
theorem lookup_rebuild {w : Value} (h : d.lookup k = some v) (he : edit k v = some w) :
    (d.rebuild edit).lookup k = some w := by
  induction d with
  | nil => simp [lookup] at h
  | cons e d ih =>
    obtain ⟨k', u⟩ := e
    by_cases hk : k' = k
    · subst hk
      have hu : u = v := by simpa [lookup] using h
      subst hu
      simp [rebuild, lookup, he]
    · have h' : lookup d k = some v := by simpa [lookup, hk] using h
      have hrest := ih h'
      rcases hu : edit k' u with _ | w'
      · simpa [rebuild, hu] using hrest
      · simpa [rebuild, hu, lookup, hk] using hrest

/-- An `edit` that drops nothing keeps the keys. -/
theorem rebuild_keys (h : ∀ k v, (edit k v).isSome) : (d.rebuild edit).map (·.1) = d.map (·.1) := by
  induction d with
  | nil => rfl
  | cons e d ih =>
    obtain ⟨w, hw⟩ := Option.isSome_iff_exists.mp (h e.1 e.2)
    simp only [rebuild] at ih
    simp [rebuild, hw, ih]

theorem lookup_rebuild_none (h : d.lookup k = none) : (d.rebuild edit).lookup k = none := by
  rw [lookup, Option.map_eq_none_iff, List.find?_eq_none] at h ⊢
  intro e he
  obtain ⟨u, hu, -⟩ := mem_rebuild.mp (show (e.1, e.2) ∈ d.rebuild edit from he)
  exact h (e.1, u) hu

/-- A field that `edit` always drops is gone. -/
theorem lookup_rebuild_dropped (h : ∀ v, edit k v = none) : (d.rebuild edit).lookup k = none := by
  rw [lookup, Option.map_eq_none_iff, List.find?_eq_none]
  intro e he hk
  obtain ⟨u, -, hu⟩ := mem_rebuild.mp (show (e.1, e.2) ∈ d.rebuild edit from he)
  rw [show e.1 = k by simpa using hk, h u] at hu
  cases hu

end Doc

/-! ## Encoding -/

def utf8 (s : String) : Bytes := s.toList.flatMap String.utf8EncodeChar

def littleEndian : Nat → Nat → Bytes
  | 0, _ => []
  | n + 1, v => UInt8.ofNat v :: littleEndian n (v / 256)

def Value.typeCode : Value → UInt8
  | .double _ => 1
  | .str _ => 2
  | .doc _ => 3
  | .array _ => 4
  | .bool _ => 8
  | .int32 _ => 16
  | .timestamp _ _ => 17
  | .int64 _ => 18
  | .other type _ => type

/-- The bytes of a document around those of its elements. -/
def frame (elems : Bytes) : Bytes := littleEndian 4 (elems.length + 5) ++ elems ++ [0]

mutual

def Value.encode : Value → Bytes
  | .double bits => littleEndian 8 bits.toNat
  | .str s => littleEndian 4 ((utf8 s).length + 1) ++ utf8 s ++ [0]
  | .doc d => frame (encodeElems d)
  | .array d => frame (encodeElems d)
  | .bool b => [if b then 1 else 0]
  | .int32 n => littleEndian 4 n.toBitVec.toNat
  | .int64 n => littleEndian 8 n.toBitVec.toNat
  | .timestamp t i => littleEndian 4 i.toNat ++ littleEndian 4 t.toNat
  | .other _ data => data

def encodeElems : List (String × Value) → Bytes
  | [] => []
  | (k, v) :: rest => v.typeCode :: utf8 k ++ [0] ++ v.encode ++ encodeElems rest

end

/-! ## Names -/

def cutList : List Char → Option (List Char × List Char)
  | [] => none
  | c :: cs => if c = '.' then some ([], cs) else (cutList cs).map fun p => (c :: p.1, p.2)

/-- `strings.Cut(s, ".")`: the parts before and after the first dot. -/
def cut (s : String) : Option (String × String) :=
  (cutList s.toList).map fun p => (String.ofList p.1, String.ofList p.2)

def cutPrefix (s lead : String) : Option String :=
  if lead.toList.isPrefixOf s.toList then some (String.ofList (s.toList.drop lead.toList.length))
  else none

theorem cutList_append {a : List Char} (b : List Char) (ha : '.' ∉ a) :
    cutList (a ++ '.' :: b) = some (a, b) := by
  induction a with
  | nil => simp [cutList]
  | cons c a ih =>
    have hc : c ≠ '.' := fun h => ha (by simp [h])
    have ha' : '.' ∉ a := fun h => ha (List.mem_cons_of_mem _ h)
    simp [cutList, hc, ih ha']

theorem cutList_spec {s a b : List Char} (h : cutList s = some (a, b)) :
    s = a ++ '.' :: b ∧ '.' ∉ a := by
  induction s generalizing a with
  | nil => cases h
  | cons c s ih =>
    unfold cutList at h
    split at h
    · rename_i hc
      cases h
      simp [hc]
    · rename_i hc
      simp only [Option.map_eq_some_iff, Prod.mk.injEq, Prod.exists] at h
      obtain ⟨a', b', hs, rfl, rfl⟩ := h
      obtain ⟨h1, h2⟩ := ih hs
      refine ⟨by simp [h1], ?_⟩
      simp only [List.mem_cons, not_or]
      exact ⟨fun h => hc h.symm, h2⟩

theorem cut_append {a : String} (b : String) (ha : '.' ∉ a.toList) :
    cut (a ++ "." ++ b) = some (a, b) := by
  have hl : (a ++ "." ++ b).toList = a.toList ++ '.' :: b.toList := by simp
  simp [cut, hl, cutList_append b.toList ha]

theorem cut_spec {s a b : String} (h : cut s = some (a, b)) :
    s = a ++ "." ++ b ∧ '.' ∉ a.toList := by
  simp only [cut, Option.map_eq_some_iff, Prod.mk.injEq, Prod.exists] at h
  obtain ⟨la, lb, hs, rfl, rfl⟩ := h
  obtain ⟨h1, h2⟩ := cutList_spec hs
  refine ⟨?_, by simpa using h2⟩
  rw [← String.toList_inj, h1]
  simp

theorem cutPrefix_append (lead rest : String) : cutPrefix (lead ++ rest) lead = some rest := by
  simp [cutPrefix]

theorem cutPrefix_spec {s lead rest : String} (h : cutPrefix s lead = some rest) :
    s = lead ++ rest := by
  unfold cutPrefix at h
  split at h
  · rename_i hp
    cases h
    rw [List.isPrefixOf_iff_prefix] at hp
    obtain ⟨t, ht⟩ := hp
    rw [← String.toList_inj]
    simp [← ht]
  · cases h

end MongoRescue.Oplog
