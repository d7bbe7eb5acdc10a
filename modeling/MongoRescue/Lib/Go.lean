import Mathlib.Data.List.DropRight
import Mathlib.Tactic.Linarith
import Mathlib.Tactic.Ring

/-!
# Go's fixed-width arithmetic, times and encodings

The parts of Go's language and standard library that the models use: 64-bit wrap-around
(`wrap64`), `time.Time` as nanoseconds since the Unix epoch with the saturating `Time.Sub`
(`timeSub`), `time.RFC3339Nano` in UTC (`rfc3339Nano`), `encoding/hex`, `unicode.IsSpace` and
`strings.TrimSpace`.
-/

namespace Go

abbrev Bytes := List UInt8

instance : LawfulBEq Bytes := List.instLawfulBEq

/-! ## 64-bit integers -/

def minInt64 : Int := -2 ^ 63

def maxInt64 : Int := 2 ^ 63 - 1

/-- The value of `n` in a Go `int64`. -/
def wrap64 (n : Int) : Int := n.bmod (2 ^ 64)

theorem wrap64_of_bounds {n : Int} (h1 : minInt64 ≤ n) (h2 : n ≤ maxInt64) : wrap64 n = n := by
  unfold minInt64 at h1
  unfold maxInt64 at h2
  exact Int.bmod_eq_of_le (by norm_num; omega) (by norm_num; omega)

/-! ## Times and durations, in nanoseconds -/

def second : Int := 1000000000

/-- The zero `time.Time`: January 1, year 1, 00:00 UTC. -/
def zeroTime : Int := -62135596800 * second

/-- `Time.Sub`: saturates instead of overflowing. -/
def timeSub (t u : Int) : Int := max minInt64 (min maxInt64 (t - u))

theorem le_sub_of_le_timeSub {d t u : Int} (hd : minInt64 < d) (h : d ≤ timeSub t u) :
    d ≤ t - u := by
  unfold timeSub at h
  rcases le_max_iff.mp h with h | h
  · omega
  · exact le_trans h (min_le_right _ _)

/-- The seconds from the zero time to the Unix epoch. -/
def unixToInternal : Int := 62135596800

/-- The seconds since the zero time, which a `time.Time` holds in an `int64`. -/
def internalSeconds (t : Int) : Int := t / second + unixToInternal

/-- A time that a `time.Time` can hold. -/
def Representable (t : Int) : Prop := minInt64 ≤ internalSeconds t ∧ internalSeconds t ≤ maxInt64

/-- `t.AddDate(0, 0, n)` in UTC: the clock stays, and the seconds wrap around. -/
def addDays (t n : Int) : Int :=
  (wrap64 (internalSeconds t + 86400 * n) - unixToInternal) * second + t % second

/-- A day that can be reached does not wrap around. -/
theorem addDays_eq {t n : Int} (h : Representable (t + n * (86400 * second))) :
    addDays t n = t + n * (86400 * second) := by
  have hdiv : (t + n * (86400 * second)) / second = t / second + 86400 * n := by
    rw [show t + n * (86400 * second) = t + 86400 * n * second by ring]
    exact Int.add_mul_ediv_right _ _ (by decide)
  have hwrap : wrap64 (internalSeconds t + 86400 * n) = internalSeconds t + 86400 * n := by
    unfold Representable internalSeconds at h
    rw [hdiv] at h
    refine wrap64_of_bounds ?_ ?_
    · unfold internalSeconds
      omega
    · unfold internalSeconds
      omega
  rw [addDays, hwrap, internalSeconds]
  have hmod := Int.mul_ediv_add_emod t second
  linarith

/-- The years `Time.MarshalJSON` accepts: 0 to 9999. -/
def marshals (t : Int) : Bool :=
  decide (-62167219200 * second ≤ t ∧ t < 253402300800 * second)

/-- Year, month and day of a day counted from the Unix epoch. -/
def civil (days : Int) : Int × Int × Int :=
  let z := days + 719468
  let era := z / 146097
  let doe := z % 146097
  let yoe := (doe - doe / 1460 + doe / 36524 - doe / 146096) / 365
  let doy := doe - (365 * yoe + yoe / 4 - yoe / 100)
  let mp := (5 * doy + 2) / 153
  let month := if mp < 10 then mp + 3 else mp - 9
  (yoe + era * 400 + (if month ≤ 2 then 1 else 0), month, doy - (153 * mp + 2) / 5 + 1)

/-- Decimal digits of `n`, padded with zeros to `width`. -/
def padded (width : Nat) (n : Int) : String :=
  let digits := toString n.natAbs
  (if n < 0 then "-" else "") ++ String.ofList (List.replicate (width - digits.length) '0') ++ digits

/-- The fraction of `.999999999`: nothing for a whole second, else without trailing zeros. -/
def fraction (nanos : Int) : String :=
  if nanos = 0 then ""
  else "." ++ String.ofList (((padded 9 nanos).toList.reverse.dropWhile (· = '0')).reverse)

def rfc3339Nano (t : Int) : String :=
  let secs := t / second
  let (y, m, d) := civil (secs / 86400)
  let sod := secs % 86400
  padded 4 y ++ "-" ++ padded 2 m ++ "-" ++ padded 2 d ++ "T" ++ padded 2 (sod / 3600) ++ ":" ++
    padded 2 (sod / 60 % 60) ++ ":" ++ padded 2 (sod % 60) ++ fraction (t % second) ++ "Z"

/-- `t.UTC()` in the layout `2006-01-02T15:04:05.000000000Z`, with nine digits of the second. -/
def rfc3339Nine (t : Int) : String :=
  let secs := t / second
  let (y, m, d) := civil (secs / 86400)
  let sod := secs % 86400
  padded 4 y ++ "-" ++ padded 2 m ++ "-" ++ padded 2 d ++ "T" ++ padded 2 (sod / 3600) ++ ":" ++
    padded 2 (sod / 60 % 60) ++ ":" ++ padded 2 (sod % 60) ++ "." ++ padded 9 (t % second) ++ "Z"

/-! ## Hexadecimal -/

def hexDigit (n : Nat) : Char := "0123456789abcdef".toList.getD n '0'

/-- `hex.EncodeToString`. -/
def hexEncode (bs : Bytes) : String :=
  String.ofList (bs.flatMap fun b => [hexDigit (b.toNat / 16), hexDigit (b.toNat % 16)])

def hexValue (c : Char) : Option Nat :=
  if '0' ≤ c ∧ c ≤ '9' then some (c.toNat - '0'.toNat)
  else if 'a' ≤ c ∧ c ≤ 'f' then some (c.toNat - 'a'.toNat + 10)
  else if 'A' ≤ c ∧ c ≤ 'F' then some (c.toNat - 'A'.toNat + 10)
  else none

def hexChars : List Char → Option Bytes
  | [] => some []
  | [_] => none
  | a :: b :: rest => do
    let hi ← hexValue a
    let lo ← hexValue b
    let bs ← hexChars rest
    return UInt8.ofNat (16 * hi + lo) :: bs

/-- `hex.DecodeString`: `none` for its errors. -/
def hexDecode (s : String) : Option Bytes := hexChars s.toList

/-! ## Strings -/

/-- `len(s)`: the bytes of the string in UTF-8. -/
def byteLen (s : String) : Nat := (s.toList.map Char.utf8Size).sum

def isSpace (c : Char) : Bool :=
  let n := c.toNat
  (9 ≤ n && n ≤ 13) || n = 0x20 || n = 0x85 || n = 0xa0 || n = 0x1680 || (0x2000 ≤ n && n ≤ 0x200a) ||
    n = 0x2028 || n = 0x2029 || n = 0x202f || n = 0x205f || n = 0x3000

/-- `unicode.IsControl`. -/
def isControl (c : Char) : Bool := c.toNat < 0x20 || (0x7f ≤ c.toNat && c.toNat < 0xa0)

/-- `strings.TrimSpace(s) == ""`. -/
def blank (s : String) : Bool := s.toList.all isSpace

/-- `strings.TrimSpace`, on the characters. -/
def trimSpaces (l : List Char) : List Char :=
  ((l.dropWhile isSpace).reverse.dropWhile isSpace).reverse

def trimSpace (s : String) : String := String.ofList (trimSpaces s.toList)

end Go
