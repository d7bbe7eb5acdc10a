import MongoRescue.Oplog.Bson
import MongoRescue.Lib.Bytes

/-!
# Streams of oplog entries

Concatenated BSON documents, read one at a time (`Reader.next`) or walked on their way to another
writer (`Scanner.write`, `Scanner.finish`). What the MongoDB driver says about the bytes of a document
is a parameter (`Driver`). The scanner keeps its buffer from one document to the next as the source
does, with what it held before.
-/

namespace MongoRescue.Oplog

open Go (Bytes)

/-- The position of an entry, `OpTime`. -/
structure OpTime where
  ts : Timestamp := {}
  t : Int := 0
  deriving DecidableEq

/-- The driver's reading of a document's bytes: `Raw.Validate` and `Raw.Lookup`. -/
structure Driver where
  validate : Bytes → Except String Unit
  lookup : Bytes → String → Option Value

inductive StreamErr
  /-- `ErrTruncated`. -/
  | truncated
  /-- `ErrMalformed`: document length `n`. -/
  | length (n : Nat)
  /-- `ErrMalformed`, with the driver's error. -/
  | invalid (err : String)
  /-- `ErrMalformed`: no timestamp field ts. -/
  | noTimestamp
  deriving DecidableEq

/-- `errors.Is(err, ErrMalformed)`. -/
def StreamErr.malformed : StreamErr → Bool
  | .truncated => false
  | .length _ | .invalid _ | .noTimestamp => true

/-- `MaxEntrySize`: a 16 MiB document and 16 KiB of oplog fields around it. -/
def maxEntrySize : Nat := 16 * 1048576 + 16 * 1024

/-- `minDocumentSize`: an empty document. -/
def minDocumentSize : Nat := 5

def documentSize (lead : Bytes) : Except StreamErr Nat :=
  let n := Go.littleEndianValue lead
  if n < minDocumentSize ∨ maxEntrySize < n then .error (.length n) else .ok n

def entryOpTime (d : Driver) (doc : Bytes) : Except StreamErr OpTime :=
  match d.validate doc with
  | .error err => .error (.invalid err)
  | .ok () =>
    match (d.lookup doc "ts").bind Value.timestamp? with
    | none => .error .noTimestamp
    | some ts => .ok { ts, t := ((d.lookup doc "t").bind Value.asInt64?).getD (-1) }

/-! ## Reader -/

namespace Reader

/-- `Reader.Next` on a stream with `s` left: none is `io.EOF`, and a document comes with the stream
left after it. -/
def next (s : Bytes) : Option (Except StreamErr (Bytes × Bytes)) :=
  if s.length = 0 then none
  else if s.length < 4 then some (.error .truncated)
  else
    match documentSize (s.take 4) with
    | .error e => some (.error e)
    | .ok size =>
      if s.length - 4 < size - 4 then some (.error .truncated)
      else some (.ok (s.take size, s.drop size))

def readLoop (d : Driver) : Nat → Bytes → List OpTime × Option StreamErr
  | 0, _ => ([], none)
  | fuel + 1, s =>
    match next s with
    | none => ([], none)
    | some (.error e) => ([], some e)
    | some (.ok (doc, rest)) =>
      match entryOpTime d doc with
      | .error e => ([], some e)
      | .ok pos => (pos :: (readLoop d fuel rest).1, (readLoop d fuel rest).2)

/-- Reading `s` to its end, document by document, and checking each with `entryOpTime`: the positions
of the documents that passed, and what ended the reading, where none is `io.EOF`. Every document has a
byte, so the length of `s` is fuel enough. -/
def readAll (d : Driver) (s : Bytes) : List OpTime × Option StreamErr := readLoop d s.length s

end Reader

/-! ## Scanner -/

structure Scanner where
  /-- `prefix`. -/
  lengthPrefix : Bytes := List.replicate 4 0
  prefixN : Nat := 0
  doc : Bytes := []
  /-- What the array behind `doc` holds after it, up to its capacity. -/
  spare : Bytes := []
  docN : Nat := 0
  count : Nat := 0
  first : OpTime := {}
  last : OpTime := {}
  err : Option StreamErr := none
  deriving DecidableEq

namespace Scanner

/-- Makes room for a document of `size` bytes, in the buffer there is if it can hold them. -/
def room (s : Scanner) (size : Nat) : Scanner :=
  if size ≤ (s.doc ++ s.spare).length then
    { s with doc := (s.doc ++ s.spare).take size, spare := (s.doc ++ s.spare).drop size }
  else { s with doc := List.replicate size 0, spare := [] }

/-- Starts a document of `size` bytes with its length prefix. -/
def start (s : Scanner) (size : Nat) : Scanner :=
  let s := s.room size
  { s with doc := Go.copyAt s.doc 0 s.lengthPrefix, docN := Go.copied s.doc 0 s.lengthPrefix }

/-- Records one complete document. -/
def entry (d : Driver) (s : Scanner) : Except StreamErr Scanner :=
  match entryOpTime d s.doc with
  | .error e => .error e
  | .ok pos =>
    .ok { s with first := if s.count = 0 then pos else s.first, last := pos, count := s.count + 1 }

/-- How a turn of the loop in `scan` ends. -/
inductive Turn
  | again (s : Scanner) (p : Bytes)
  | done (s : Scanner)
  | failed (s : Scanner) (e : StreamErr)

/-- The end of the loop's body: a document is complete and `p` is left. -/
def complete (d : Driver) (s : Scanner) (p : Bytes) : Turn :=
  match s.entry d with
  | .error e => .failed s e
  | .ok s => .again { s with prefixN := 0, docN := 0 } p

/-- The part of the loop's body that fills the document. -/
def fill (d : Driver) (s : Scanner) (p : Bytes) : Turn :=
  let n := Go.copied s.doc s.docN p
  let s := { s with doc := Go.copyAt s.doc s.docN p, docN := s.docN + n }
  if s.docN < s.doc.length then .done s else s.complete d (p.drop n)

/-- The loop's body from a complete length prefix on. -/
def sized (d : Driver) (s : Scanner) (p : Bytes) : Turn :=
  match documentSize s.lengthPrefix with
  | .error e => .failed s e
  | .ok size => (s.start size).fill d p

/-- The body of the loop in `scan`. -/
def turn (d : Driver) (s : Scanner) (p : Bytes) : Turn :=
  if s.prefixN < s.lengthPrefix.length then
    let n := Go.copied s.lengthPrefix s.prefixN p
    let s := { s with lengthPrefix := Go.copyAt s.lengthPrefix s.prefixN p, prefixN := s.prefixN + n }
    if s.prefixN < s.lengthPrefix.length then .done s else s.sized d (p.drop n)
  else s.fill d p

def scanLoop (d : Driver) : Nat → Scanner → Bytes → Scanner × Option StreamErr
  | 0, s, _ => (s, none)
  | fuel + 1, s, p =>
    if p.length = 0 then (s, none)
    else
      match turn d s p with
      | .again s p => scanLoop d fuel s p
      | .done s => (s, none)
      | .failed s e => (s, some e)

/-- Consumes `p`. Every turn of the loop takes a byte of `p`, so its length is fuel enough. -/
def scan (d : Driver) (s : Scanner) (p : Bytes) : Scanner × Option StreamErr := scanLoop d p.length s p

def finish (s : Scanner) : Option StreamErr :=
  match s.err with
  | some e => some e
  | none => if 0 < s.prefixN then some .truncated else none

end Scanner

/-! ## Writing through a scanner -/

/-- A scanner, what it has passed to a writer that never fails, and what its `Write` calls returned. -/
structure Pipe where
  scanner : Scanner := {}
  out : Bytes := []
  results : List (Option StreamErr) := []

namespace Pipe

def write (d : Driver) (w : Pipe) (p : Bytes) : Pipe :=
  match w.scanner.err with
  | some e => { w with results := w.results ++ [some e] }
  | none =>
    match w.scanner.scan d p with
    | (s, some e) => { w with scanner := { s with err := some e }, results := w.results ++ [some e] }
    | (s, none) => { scanner := s, out := w.out ++ p, results := w.results ++ [none] }

/-- A new scanner after the given `Write` calls. -/
def writes (d : Driver) (ps : List Bytes) : Pipe := ps.foldl (write d) {}

end Pipe

end MongoRescue.Oplog
