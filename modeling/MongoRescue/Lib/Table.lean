import Mathlib.Data.List.Nodup

/-!
# Tables

`Table key` is a list of rows that no two rows share the key of. `get` reads a row by its key; `put`
replaces the row with the same key, or appends. Everything a proof needs about them is `get_put` and
`mem_rows_iff`, and `perm_of_get` and `perm_put` where it counts rows.
-/

structure Table {α κ : Type} (key : α → κ) where
  rows : List α
  nodup : (rows.map key).Nodup

namespace Table

variable {α κ : Type} {key : α → κ}

def empty : Table key := ⟨[], List.nodup_nil⟩

theorem eq_of_key_eq {t : Table key} {a b : α} (ha : a ∈ t.rows) (hb : b ∈ t.rows)
    (h : key a = key b) : a = b :=
  List.inj_on_of_nodup_map t.nodup ha hb h

theorem nodup_filter {rows : List α} (p : α → Bool) (h : (rows.map key).Nodup) :
    ((rows.filter p).map key).Nodup :=
  h.sublist (List.Sublist.map _ List.filter_sublist)

variable (t : Table key)

/-- The rows that pass a test. -/
def filter (p : α → Bool) : Table key := ⟨t.rows.filter p, nodup_filter p t.nodup⟩

variable [DecidableEq κ]

def get (k : κ) : Option α := t.rows.find? (key · = k)

theorem key_of_get {t : Table key} {k : κ} {a : α} (h : t.get k = some a) : key a = k := by
  simpa using List.find?_some h

theorem mem_of_get {t : Table key} {k : κ} {a : α} (h : t.get k = some a) : a ∈ t.rows :=
  List.mem_of_find?_eq_some h

theorem get_of_mem {t : Table key} {a : α} (h : a ∈ t.rows) : t.get (key a) = some a := by
  cases hg : t.get (key a) with
  | none => exact absurd (by simp) (List.find?_eq_none.mp hg a h)
  | some b => rw [eq_of_key_eq (mem_of_get hg) h (key_of_get hg)]

variable (a : α)

variable (key) in
/-- Puts `a` in the place of the row with its key. -/
def replace (rows : List α) : List α := rows.map fun b => if key b = key a then a else b

theorem map_key_replace (rows : List α) : (replace key a rows).map key = rows.map key := by
  rw [replace, List.map_map]
  apply List.map_congr_left
  intro b _
  by_cases h : key b = key a <;> simp [h]

variable (key) in
/-- The rows after `put`. -/
def putRows (rows : List α) : List α :=
  if key a ∈ rows.map key then replace key a rows else rows ++ [a]

theorem nodup_putRows {a : α} {rows : List α} (h : (rows.map key).Nodup) :
    ((putRows key a rows).map key).Nodup := by
  unfold putRows
  split
  · rwa [map_key_replace]
  · rename_i ha
    rw [List.map_append, List.map_singleton]
    exact List.Nodup.append h (List.nodup_singleton _) (by simpa using ha)

def put : Table key := ⟨putRows key a t.rows, nodup_putRows t.nodup⟩

theorem mem_put {t : Table key} {a b : α} :
    b ∈ (t.put a).rows ↔ b = a ∨ (b ∈ t.rows ∧ key b ≠ key a) := by
  change b ∈ putRows key a t.rows ↔ _
  unfold putRows
  split
  · rename_i ha
    obtain ⟨c, hc, hk⟩ := List.mem_map.mp ha
    simp only [replace, List.mem_map]
    constructor
    · rintro ⟨d, hd, rfl⟩
      by_cases h : key d = key a
      · simp [h]
      · simp [h, hd]
    · rintro (rfl | ⟨hb, hne⟩)
      · exact ⟨c, hc, by simp [hk]⟩
      · exact ⟨b, hb, by simp [hne]⟩
  · rename_i ha
    simp only [List.mem_append, List.mem_singleton]
    constructor
    · rintro (hb | rfl)
      · exact .inr ⟨hb, fun h => ha (h ▸ List.mem_map_of_mem hb)⟩
      · exact .inl rfl
    · rintro (rfl | ⟨hb, -⟩)
      · exact .inr rfl
      · exact .inl hb

theorem get_put (k : κ) : (t.put a).get k = if key a = k then some a else t.get k := by
  split
  · rename_i h
    rw [← h]
    exact get_of_mem (mem_put.mpr (.inl rfl))
  · rename_i h
    apply Option.ext
    intro b
    constructor
    · intro hb
      obtain rfl | ⟨hm, -⟩ := mem_put.mp (mem_of_get hb)
      · exact absurd (key_of_get hb) h
      · rw [← key_of_get hb]
        exact get_of_mem hm
    · intro hb
      have hk := key_of_get hb
      rw [← hk]
      exact get_of_mem (mem_put.mpr (.inr ⟨mem_of_get hb, by rw [hk]; exact fun e => h e.symm⟩))

@[simp] theorem get_put_self : (t.put a).get (key a) = some a := by
  simp [get_put]

/-! ## Removing rows -/

def erase (k : κ) : Table key := t.filter (key · ≠ k)

theorem perm_of_get {t : Table key} {k : κ} {a : α} (h : t.get k = some a) :
    t.rows.Perm (a :: (t.erase k).rows) := by
  have hnd : t.rows.Nodup := List.Nodup.of_map _ t.nodup
  refine (List.perm_ext_iff_of_nodup hnd ?_).mpr fun b => ?_
  · refine List.nodup_cons.mpr ⟨fun hm => ?_, hnd.filter _⟩
    simpa [key_of_get h] using (List.mem_filter.mp hm).2
  · simp only [erase, filter, List.mem_cons, List.mem_filter, decide_eq_true_eq]
    constructor
    · intro hb
      by_cases hk : key b = k
      · exact .inl (eq_of_key_eq hb (mem_of_get h) (hk.trans (key_of_get h).symm))
      · exact .inr ⟨hb, hk⟩
    · rintro (rfl | ⟨hb, -⟩)
      · exact mem_of_get h
      · exact hb

theorem get_erase_self (k : κ) : (t.erase k).get k = none := by
  refine List.find?_eq_none.mpr fun a ha => ?_
  simpa using (List.mem_filter.mp ha).2

theorem rows_put_of_none {t : Table key} {a : α} (h : t.get (key a) = none) :
    (t.put a).rows = t.rows ++ [a] := by
  refine if_neg fun hm => ?_
  obtain ⟨b, hb, hk⟩ := List.mem_map.mp hm
  exact absurd (get_of_mem hb) (by rw [hk, h]; simp)

theorem erase_put : ((t.put a).erase (key a)).rows.Perm (t.erase (key a)).rows := by
  refine (List.perm_ext_iff_of_nodup ((List.Nodup.of_map _ (t.put a).nodup).filter _)
    ((List.Nodup.of_map _ t.nodup).filter _)).mpr fun b => ?_
  simp only [List.mem_filter, decide_eq_true_eq, mem_put]
  constructor
  · rintro ⟨rfl | ⟨hb, -⟩, hk⟩
    · exact absurd rfl hk
    · exact ⟨hb, hk⟩
  · rintro ⟨hb, hk⟩
    exact ⟨.inr ⟨hb, hk⟩, hk⟩

/-- What `put` leaves. -/
theorem perm_put : (t.put a).rows.Perm (a :: (t.erase (key a)).rows) :=
  (perm_of_get (get_put_self t a)).trans (List.Perm.cons a (erase_put t a))

/-- Keys are unique, so the row of a key is kept or the key is gone. -/
theorem get_filter (p : α → Bool) (k : κ) : (t.filter p).get k = (t.get k).filter p := by
  apply Option.ext
  intro b
  rw [Option.filter_eq_some_iff]
  constructor
  · intro hb
    obtain ⟨hmem, hp⟩ := List.mem_filter.mp (mem_of_get hb)
    exact ⟨key_of_get hb ▸ get_of_mem hmem, hp⟩
  · rintro ⟨hb, hp⟩
    have hmem : b ∈ (t.filter p).rows := List.mem_filter.mpr ⟨mem_of_get hb, hp⟩
    exact key_of_get hb ▸ get_of_mem hmem

theorem get_erase_ne {k k' : κ} (h : k ≠ k') : (t.erase k).get k' = t.get k' := by
  rw [erase, get_filter]
  rcases ha : t.get k' with _ | a
  · rfl
  · have hkey : decide (key a ≠ k) = true := by
      rw [key_of_get ha]
      simpa using Ne.symm h
    exact Option.filter_some_pos hkey

end Table
