import Gloop.Foundation.Iterate
import Gloop.Foundation.BitString

/-!
# `csv::Parser` of `parser.h` and `parser.cc`

A parser pulls its text out of a `ByteSource` in pieces of the source's own choosing and keeps one
record. `advance` runs the state machine over the next record, `Parser.new` is the constructor, and
`records` is what a loop from `begin()` to `end()` sees. A failed `DCHECK` and a `Skip` beyond the
end of the source are `none`.
-/

namespace Gloop.Csv

open Gloop.Foundation

/-- `'"'`. -/
def quote : Byte := 0x22#8

/-- `'\n'`. -/
def lf : Byte := 0x0a#8

/-- `'\r'`. -/
def cr : Byte := 0x0d#8

/-- `'\\'`. -/
def backslash : Byte := 0x5c#8

/-- `Parser::Mode`. -/
inductive Mode where
  | rfc4180
  | literalQuotes
  | mysqlEscaping
  deriving DecidableEq, Repr

/-- `ParseState`. -/
inductive ParseState where
  | fieldStart
  | inField
  | inQuotedField
  | quotedQuote
  | quotedBackslashEscape
  | error
  | endOfRecord
  deriving DecidableEq, Repr

/-- A `ByteSource`, by what `Peek()` answers when the given bytes are left. The region is not empty
unless the source is exhausted, and it starts with the bytes that are left; the parser allows for
regions that go on beyond them. -/
structure ByteSource where
  peek : List Byte → List Byte
  peek_ne_nil : ∀ left, left ≠ [] → peek left ≠ []
  peek_prefix : ∀ left, (peek left).take left.length <+: left

/-- `ArrayByteSource`: the whole rest in one region. -/
def arrayByteSource : ByteSource where
  peek := id
  peek_ne_nil := fun _ h => h
  peek_prefix := fun left => List.take_prefix left.length left

/-- A `Record`. Its `status_` is left out: nothing assigns it. -/
structure Record where
  number : Nat
  fields : List (List Byte)
  deriving DecidableEq, Repr

/-- The members of a `Parser` that change, and the bytes that its source has left. -/
structure Parser where
  left : List Byte
  origStrSize : Nat
  currentStr : List Byte
  record : Record
  hasMoreData : Bool
  recordCount : Nat
  deriving DecidableEq, Repr

/-! ## Reading -/

section Reading

variable (source : ByteSource)

/-- `PopulateCurrentString()`. -/
def populateCurrentString (p : Parser) : Option (Bool × Parser) :=
  if p.origStrSize ≤ p.left.length then
    let left := p.left.drop p.origStrSize
    if left.length = 0 then
      some (false, { p with left := left, origStrSize := 0 })
    else
      let currentStr := (source.peek left).take left.length
      some (true,
        { p with left := left, currentStr := currentStr, origStrSize := currentStr.length })
  else none

/-- The test `current_str_.empty() && !PopulateCurrentString()`, negated: whether there is a next
character. -/
def hasNext (p : Parser) : Option (Bool × Parser) :=
  if p.currentStr = [] then populateCurrentString source p else some (true, p)

/-- `current_str_[0]` and `current_str_.remove_prefix(1)`. -/
def takeChar (p : Parser) : Option (Byte × Parser) :=
  match p.currentStr with
  | [] => none
  | c :: rest => some (c, { p with currentStr := rest })

/-- The next character, where `"\r\n"` and a lone `'\r'` count as `'\n'`. -/
def nextChar (p : Parser) : Option (Byte × Parser) := do
  let (c, p) ← takeChar p
  if c = cr then
    let (more, p) ← hasNext source p
    if more then
      let (second, after) ← takeChar p
      if second = lf then some (lf, after) else some (lf, p)
    else some (lf, p)
  else some (c, p)

end Reading

/-! ## The state machine -/

/-- The state of the machine with `current_field` and the fields of `record_`. -/
structure Scan where
  state : ParseState
  currentField : List Byte
  fields : List (List Byte)
  deriving DecidableEq, Repr

/-- What the machine starts a record with. -/
def Scan.fresh : Scan :=
  ⟨.fieldStart, [], []⟩

/-- `record_.fields_.push_back(current_field)`. -/
def Scan.pushField (s : Scan) : Scan :=
  { s with fields := s.fields ++ [s.currentField] }

/-- `current_field.push_back(c)`. -/
def Scan.pushChar (s : Scan) (c : Byte) : Scan :=
  { s with currentField := s.currentField ++ [c] }

/-- The last three branches of the cases `FIELD_START`, `IN_FIELD` and `QUOTED_QUOTE`. -/
def Scan.unquoted (delim : Byte) (c : Byte) (s : Scan) : Scan :=
  if c = delim then { s.pushField with currentField := [], state := .fieldStart }
  else if c = lf then { s.pushField with state := .endOfRecord }
  else { s.pushChar c with state := .inField }

/-- The `switch` on the state, without its checks. -/
def Scan.transition (delim : Byte) (mode : Mode) (c : Byte) (s : Scan) : Scan :=
  match s.state with
  | .fieldStart | .inField =>
    if mode ≠ .literalQuotes ∧ c = quote then { s with state := .inQuotedField }
    else s.unquoted delim c
  | .inQuotedField =>
    if c = quote then { s with state := .quotedQuote }
    else if c = backslash ∧ mode = .mysqlEscaping then { s with state := .quotedBackslashEscape }
    else s.pushChar c
  | .quotedBackslashEscape => { s.pushChar c with state := .inQuotedField }
  | .quotedQuote =>
    if c = quote ∧ mode ≠ .mysqlEscaping then { s.pushChar quote with state := .inQuotedField }
    else s.unquoted delim c
  | .error | .endOfRecord => s

/-- The `DCHECK` at the head of the case for the state. -/
def Scan.check (mode : Mode) (s : Scan) : Bool :=
  match s.state with
  | .fieldStart => s.currentField = []
  | .inQuotedField | .quotedQuote => mode ≠ .literalQuotes
  | .quotedBackslashEscape => mode = .mysqlEscaping
  | .inField | .error | .endOfRecord => true

/-- The `switch` on the state. -/
def Scan.switch (delim : Byte) (mode : Mode) (c : Byte) (s : Scan) : Option Scan :=
  if s.check mode then some (s.transition delim mode c) else none

/-! ## Records -/

section Records

variable (source : ByteSource) (delim : Byte) (mode : Mode)

/-- A round of the loop that leaves a broken line. -/
def skipLineStep : Parser × Byte → Option (Parser × Byte ⊕ Parser)
  | (p, c) =>
    if c = lf ∨ c = cr then some (.inr p)
    else do
      let (more, p) ← hasNext source p
      if more then
        let (next, p) ← takeChar p
        some (.inl (p, next))
      else some (.inr p)

/-- What `Advance()` does at the end of the input: the field that is left is added unless it is
empty and the record is. -/
def finishRecord (p : Parser) (s : Scan) : Parser :=
  let s := if s.currentField ≠ [] ∨ s.fields ≠ [] then s.pushField else s
  let p := { p with record := { p.record with fields := s.fields } }
  if s.fields ≠ [] then p else { p with hasMoreData := false }

/-- A round of the loop of `Advance()`. -/
def advanceStep : Parser × Scan → Option (Parser × Scan ⊕ Parser)
  | (p, s) =>
    if s.state = .error ∨ s.state = .endOfRecord then
      some (.inr { p with record := { p.record with fields := s.fields } })
    else do
      let (more, p) ← hasNext source p
      if more then
        let (c, p) ← nextChar source p
        let s ← s.switch delim mode c
        if s.state = .error then
          let p ← iterate (skipLineStep source) (p, c)
          some (.inl (p, s))
        else some (.inl (p, s))
      else some (.inr (finishRecord p s))

/-- `Advance()`. -/
def advance (p : Parser) : Option Parser :=
  iterate (advanceStep source delim mode)
    ({ p with record := ⟨p.recordCount, []⟩, recordCount := p.recordCount + 1 }, .fresh)

/-- The constructor, for a source with the given bytes. -/
def Parser.new (data : List Byte) : Option Parser :=
  advance source delim mode
    { left := data, origStrSize := 0, currentStr := [], record := ⟨0, []⟩, hasMoreData := true,
      recordCount := 0 }

/-- A round of a loop from an iterator to `end()`, with the parser, `is_end_` and the records
seen. -/
def collectStep : Parser × Bool × List Record → Option ((Parser × Bool × List Record) ⊕ List Record)
  | (p, isEnd, seen) =>
    if isEnd || !p.hasMoreData then some (.inr seen)
    else do
      let after ← advance source delim mode p
      some (.inl (after, isEnd || !after.hasMoreData, seen ++ [p.record]))

/-- The records between `begin()` and `end()` of a parser for a source with the given bytes. -/
def records (data : List Byte) : Option (List Record) := do
  let p ← Parser.new source delim mode data
  iterate (collectStep source delim mode) (p, data.length = 0, [])

end Records

/-- `ParseLine(line, delim, mode)`. -/
def parseLine (line : List Byte) (delim : Byte) (mode : Mode) : Option Record := do
  let p ← Parser.new arrayByteSource delim mode (if line = [] then [lf] else line)
  some p.record

end Gloop.Csv
