import MongoRescue.Lib.Go

/-!
# Byte slices

Go's `copy` into a part of a slice (`copyAt`, `copied`) and little-endian numbers
(`littleEndianValue`).
-/

namespace Go

/-! ## `copy` -/

/-- The contents of `dst` after `copy(dst[k:], src)`. -/
def copyAt : Bytes → Nat → Bytes → Bytes
  | dst, _, [] => dst
  | dst, k, b :: src => copyAt (dst.set k b) (k + 1) src

/-- The number that `copy(dst[k:], src)` returns. -/
def copied (dst : Bytes) (k : Nat) (src : Bytes) : Nat := min (dst.length - k) src.length

@[simp] theorem length_copyAt (dst : Bytes) (k : Nat) (src : Bytes) :
    (copyAt dst k src).length = dst.length := by
  induction src generalizing dst k with
  | nil => rfl
  | cons b src ih => rw [copyAt, ih, List.length_set]

theorem copyAt_of_length_le {dst : Bytes} {k : Nat} (src : Bytes) (h : dst.length ≤ k) :
    copyAt dst k src = dst := by
  induction src generalizing dst k with
  | nil => rfl
  | cons b src ih => rw [copyAt, List.set_eq_of_length_le h, ih (by omega)]

theorem take_succ_set {dst : Bytes} {k : Nat} (b : UInt8) (h : k < dst.length) :
    (dst.set k b).take (k + 1) = dst.take k ++ [b] := by
  rw [List.take_succ_eq_append_getElem (by simpa using h), List.take_set_of_le (Nat.le_refl k),
    List.getElem_set_self]

/-- A copy into the front of a slice that is long enough for it. -/
theorem take_copyAt {dst : Bytes} {k : Nat} (src : Bytes) (h : k + src.length ≤ dst.length) :
    (copyAt dst k src).take (k + src.length) = dst.take k ++ src := by
  induction src generalizing dst k with
  | nil => simp [copyAt]
  | cons b src ih =>
    have hk : k < dst.length := by simp at h; omega
    have hrest : (copyAt (dst.set k b) (k + 1) src).take (k + 1 + src.length) =
        (dst.set k b).take (k + 1) ++ src := ih (by simp at h ⊢; omega)
    rw [copyAt, List.length_cons, Nat.add_comm src.length 1, ← Nat.add_assoc, hrest,
      take_succ_set b hk, List.append_assoc, List.singleton_append]

/-! ## Little-endian numbers -/

/-- The number whose bytes, lowest first, are given. -/
def littleEndianValue : Bytes → Nat
  | [] => 0
  | b :: bs => b.toNat + 256 * littleEndianValue bs

end Go
