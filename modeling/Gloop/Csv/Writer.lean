import Gloop.Csv.Parser

/-!
# `csv::Writer` of `writer.h` and `writer.cc`

The writer with the order of fields as given (`DefaultOrder`) and the standard formatter. Its sink
is the list of bytes appended so far, so flushing is left out.
-/

namespace Gloop.Csv

open Gloop.Foundation List

/-- An `absl::Status`, as far as the writer returns one. -/
inductive Status where
  | ok
  | invalidArgument (message : String)
  deriving DecidableEq, Repr

/-- The members of a `Writer` and the bytes in its sink. -/
structure Writer where
  sink : List Byte
  numFields : Nat
  fieldDelimiter : Byte
  recordDelimiter : List Byte
  status : Status
  deriving DecidableEq, Repr

/-- The constructor with a field delimiter. -/
def Writer.new (numFields : Nat) (fieldDelimiter : Byte) (sink : List Byte) : Writer :=
  ⟨sink, numFields, fieldDelimiter, [lf], .ok⟩

/-- `SetCRLFRecordDelimiter(use_crlf)`. -/
def Writer.setCRLFRecordDelimiter (w : Writer) (useCrlf : Bool) : Writer :=
  { w with recordDelimiter := if useCrlf then [cr, lf] else [lf] }

variable (fieldDelimiter : Byte)

/-- Whether the standard formatter puts a field into quotes. -/
def quoteField (field : List Byte) : Bool :=
  field.any fun c => c ∈ [fieldDelimiter, quote, lf, cr]

/-- A round of the loop over the pieces between quotes, with the sink and `qq`. -/
def appendPiece : List Byte × List Byte → List Byte → List Byte × List Byte
  | (sink, qq), sp => (sink ++ qq ++ sp, [quote, quote])

/-- `StandardFieldFormatter(field_delimiter)`. -/
def standardFieldFormatter (field sink : List Byte) : List Byte :=
  let sink := if quoteField fieldDelimiter field then sink ++ [quote] else sink
  let sink := ((field.splitOn quote).foldl appendPiece (sink, [])).1
  if quoteField fieldDelimiter field then sink ++ [quote] else sink

/-- A round of the loop over the fields of a record, with the position. -/
def appendField (sink : List Byte) : List Byte × Nat → List Byte
  | (field, i) =>
    standardFieldFormatter fieldDelimiter field (if i ≠ 0 then sink ++ [fieldDelimiter] else sink)

/-- `WriteRecord(record)`. The writer keeps the status that it returns. -/
def Writer.writeRecord (w : Writer) (record : List (List Byte)) : Writer :=
  if w.numFields ≠ record.length then
    { w with status := .invalidArgument ("Expected " ++ toString w.numFields ++ " fields but got "
        ++ toString record.length) }
  else
    { w with
      sink := record.zipIdx.foldl (appendField w.fieldDelimiter) w.sink ++ w.recordDelimiter
      status := .ok }

/-- `WriteRecordToString(record, field_delimiter)`. -/
def writeRecordToString (record : List (List Byte)) (fieldDelimiter : Byte) : Option (List Byte) :=
  let w := (Writer.new record.length fieldDelimiter []).writeRecord record
  if w.status = .ok then some (w.sink.take (w.sink.length - 1)) else none

/-! ## The text of a record -/

/-- A text with every quote written twice. -/
def doubled (field : List Byte) : List Byte :=
  field.flatMap fun c => if c = quote then [quote, quote] else [c]

@[simp] theorem doubled_nil : doubled [] = [] := rfl

theorem doubled_cons (c : Byte) (field : List Byte) :
    doubled (c :: field) = (if c = quote then [quote, quote] else [c]) ++ doubled field := rfl

/-- The text of a field. -/
def formatted (field : List Byte) : List Byte :=
  if quoteField fieldDelimiter field then quote :: (doubled field ++ [quote]) else field

/-- The text of a record with at least one field, without its delimiter. -/
def recordText (field : List Byte) (more : List (List Byte)) : List Byte :=
  formatted fieldDelimiter field ++ more.flatMap fun next =>
    fieldDelimiter :: formatted fieldDelimiter next

/-- The pieces between quotes are joined by two quotes. -/
theorem foldl_appendPiece (field sink qq : List Byte) :
    ((field.splitOn quote).foldl appendPiece (sink, qq)).1 = sink ++ qq ++ doubled field := by
  induction field generalizing sink qq with
  | nil => rfl
  | cons c field ih =>
    rw [splitOn, splitOnP_cons_eq_if_modifyHead, doubled_cons]
    by_cases hc : c = quote
    · rw [if_pos (by simpa using hc), if_pos hc]
      show ((field.splitOn quote).foldl appendPiece (sink ++ qq ++ [], [quote, quote])).1 = _
      rw [ih, append_nil, append_assoc]
    -- the character is the first of the next piece, so it goes out as a separator would
    rw [if_neg (by simpa using hc), if_neg hc, ← append_assoc, ← ih]
    cases hpieces : field.splitOn quote with
    | nil => exact absurd hpieces (splitOnP_ne_nil _ _)
    | cons piece pieces =>
      rw [show field.splitOnP (· == quote) = piece :: pieces from hpieces, modifyHead_cons,
        foldl_cons, foldl_cons, appendPiece, appendPiece, append_assoc _ [c], singleton_append]

variable {field : List Byte}

/-- A field without quotes stays as it is. -/
theorem doubled_eq_self (h : quote ∉ field) : doubled field = field := by
  induction field with
  | nil => rfl
  | cons c field ih =>
    rw [mem_cons, not_or] at h
    rw [doubled_cons, if_neg (Ne.symm h.1), ih h.2, singleton_append]

/-- A field that needs no quotes has no special bytes. -/
theorem quoteField_eq_false {fieldDelimiter : Byte} (h : ¬ quoteField fieldDelimiter field = true)
    {c : Byte} (hc : c ∈ field) : c ≠ fieldDelimiter ∧ c ≠ quote ∧ c ≠ lf ∧ c ≠ cr := by
  have hnone : c ∉ [fieldDelimiter, quote, lf, cr] := by
    intro hmem
    exact h (any_eq_true.mpr ⟨c, hc, by simpa using hmem⟩)
  simpa using hnone

/-- The formatter appends the formatted field. -/
theorem standardFieldFormatter_eq (fieldDelimiter : Byte) (field sink : List Byte) :
    standardFieldFormatter fieldDelimiter field sink = sink ++ formatted fieldDelimiter field := by
  rw [standardFieldFormatter, formatted]
  split_ifs with h
  · simp [foldl_appendPiece]
  · have hquote : quote ∉ field := fun hmem => (quoteField_eq_false h hmem).2.1 rfl
    rw [foldl_appendPiece, append_nil, doubled_eq_self hquote]

/-- The other fields are appended after delimiters. -/
theorem foldl_appendField (fieldDelimiter : Byte) (more : List (List Byte)) (sink : List Byte)
    (start : Nat) : (more.zipIdx (start + 1)).foldl (appendField fieldDelimiter) sink =
      sink ++ more.flatMap fun next => fieldDelimiter :: formatted fieldDelimiter next := by
  induction more generalizing sink start with
  | nil => simp
  | cons next more ih =>
    rw [zipIdx_cons, foldl_cons, ih, appendField, standardFieldFormatter_eq]
    simp

/-- A record of the right size goes out as the text of its fields and the record delimiter. -/
theorem writeRecord_eq {w : Writer} {more : List (List Byte)}
    (h : (field :: more).length = w.numFields) : w.writeRecord (field :: more) = { w with
        sink := w.sink ++ recordText w.fieldDelimiter field more ++ w.recordDelimiter
        status := .ok } := by
  rw [Writer.writeRecord, if_neg (not_not.mpr h.symm), zipIdx_cons, foldl_cons,
    foldl_appendField, appendField, if_neg (not_not.mpr rfl), standardFieldFormatter_eq, recordText,
    append_assoc w.sink]

end Gloop.Csv
