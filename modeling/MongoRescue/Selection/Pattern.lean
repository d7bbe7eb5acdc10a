import MongoRescue.Lib.Json
import MongoRescue.Lib.Strings

/-!
# Database patterns

`MatchDatabasePattern` and `MatchCollectionPattern` (models/selection.go, models/namespace.go). The loop
over the runes keeps the positions of the source: `pi` in the pattern, `ni` in the name, `star` the last
`*` it has passed (none for -1) and `mark` the position of the name that this `*` has been tried up to.
-/

namespace MongoRescue.Selection

open Go (Bytes)

/-- `[]rune(s)`: a byte where no character starts becomes the replacement character. -/
def toRunes (s : Bytes) : List Char := (Go.runes s).map Go.Json.charOf

structure Cursor where
  pi : Nat
  ni : Nat
  star : Option Nat
  mark : Nat
  deriving DecidableEq

/-- One round of the loop, none for `return false`. -/
def matchStep (p n : List Char) (s : Cursor) : Option Cursor :=
  if s.pi < p.length ∧ (p[s.pi]? = some '?' ∨ p[s.pi]? = n[s.ni]?) then
    some { s with pi := s.pi + 1, ni := s.ni + 1 }
  else if s.pi < p.length ∧ p[s.pi]? = some '*' then
    some { s with star := some s.pi, mark := s.ni, pi := s.pi + 1 }
  else
    match s.star with
    | some star => some { s with pi := star + 1, mark := s.mark + 1, ni := s.mark + 1 }
    | none => none

/-- The loop over the name and the one over the stars left of the pattern; none when the rounds run
out. -/
def matchLoop (p n : List Char) : Nat → Cursor → Option Bool
  | 0, _ => none
  | fuel + 1, s =>
    if s.ni < n.length then
      match matchStep p n s with
      | some s => matchLoop p n fuel s
      | none => some false
    else some ((p.drop s.pi).dropWhile (· == '*') == [])

/-- More rounds than the loop can take: between two positions of `mark` it moves on in the pattern. -/
def matchRounds (p n : List Char) : Nat := n.length * (p.length + 2) + p.length + 1

def matchRunes (p n : List Char) : Option Bool :=
  matchLoop p n (matchRounds p n) { pi := 0, ni := 0, star := none, mark := 0 }

def matchDatabasePattern (pattern name : Bytes) : Bool :=
  matchRunes (toRunes pattern) (toRunes name) = some true

def matchCollectionPattern (pattern name : Bytes) : Bool :=
  !(Go.ascii "system.").isPrefixOf name && matchDatabasePattern pattern name

end MongoRescue.Selection
