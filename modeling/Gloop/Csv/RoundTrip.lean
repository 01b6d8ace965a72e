import Gloop.Csv.Scan
import Gloop.Csv.Writer

/-!
# What the writer writes, the parser reads

At the end of the input `Advance()` does not look at its state: it returns a record if the field or
the record that it has begun is not empty. `newlineOptional_iff` says for which texts the last
newline may be left out. The two characters `""` are a record with one empty field before a newline,
and no record at the end of the input.

The state machine reads the text of a field back, so a record is read back by induction on its
fields, and a file by an invariant of the writer. Line ends inside fields come back normalized. The
theorem at the end is about the parser as it stands, through `records_eq`, and about `ParseLine`,
which gets a record without its newline.
-/

namespace Gloop.Csv

section

open Gloop.Foundation List Scan
variable {delim : Byte} {mode : Mode}

/-- The machine at the end of a text, with what it holds of the last record. -/
def pendingScan (delim : Byte) (mode : Mode) (text : List Byte) : Scan :=
  ((normalize text).foldl (feed delim mode) ([], .fresh)).2

/-- The parser returns the same records with and without a newline at the end, for any two
sources. -/
def NewlineOptional (delim : Byte) (mode : Mode) (text : List Byte) : Prop :=
  ∀ first second : ByteSource, ∃ found, records first delim mode text = some found ∧
    records second delim mode (text ++ [lf]) = some found

/-- The end of the input does the same as a newline if and only if there is something to return. -/
theorem close_feed_lf {s : Scan} (h : s.Good mode) (hs : ¬ s.Unfinished)
    (done : List (List (List Byte))) : close (done, s) = close (feed delim mode (done, s) lf) ↔
      delim ≠ lf ∧ (s.currentField ≠ [] ∨ s.fields ≠ []) := by
  rw [feed, h.transition_unquoted delim hs (by decide), unquoted]
  by_cases hdelim : lf = delim
  · -- the newline opens one more field, which the end of the input closes
    rw [if_pos hdelim, if_neg (by simp)]
    have hmore : close (done, { s.pushField with currentField := [], state := .fieldStart }) =
        done ++ [s.fields ++ [s.currentField] ++ [[]]] := by
      simp [close, finish, pushField]
    rw [hmore]
    refine iff_of_false ?_ (fun hc => hc.1 hdelim.symm)
    rw [close, finish]
    split_ifs <;> simp
  · rw [if_neg hdelim, if_pos rfl, if_pos rfl]
    have hone : close (done ++ [s.pushField.fields], .fresh) =
        done ++ [s.fields ++ [s.currentField]] := by
      simp [close, finish, fresh, pushField]
    rw [hone, close, finish]
    split_ifs with hpending
    · exact iff_of_true rfl ⟨Ne.symm hdelim, hpending⟩
    · exact iff_of_false (by simp) (fun hc => hpending hc.2)

/-- A final newline is optional if it does not change what is parsed. -/
theorem newlineOptional_iff_parse (text : List Byte) : NewlineOptional delim mode text ↔
      parse delim mode (normalize text) = parse delim mode (normalize (text ++ [lf])) := by
  constructor
  · intro h
    obtain ⟨found, hfirst, hsecond⟩ := h arrayByteSource arrayByteSource
    rw [records_eq] at hfirst hsecond
    exact numbered_injective 0 ((Option.some.inj hfirst).trans (Option.some.inj hsecond).symm)
  · intro h first second
    exact ⟨_, records_eq first delim mode text, by rw [records_eq, h]⟩

/-- After a character that ends no line, the machine has left the start of a record. -/
theorem pendingScan_ne_fresh {text : List Byte} (hne : text ≠ []) (hlf : text.getLast? ≠ some lf)
    (hcr : text.getLast? ≠ some cr) : pendingScan delim mode text ≠ .fresh := by
  obtain ⟨before, c, rfl⟩ := eq_nil_or_concat text |>.resolve_left hne
  rw [concat_eq_append, getLast?_concat] at hlf hcr
  have hc : c ≠ lf := fun he => hlf (congrArg some he)
  have hsplit : normalize (before ++ [c]) = normalize before ++ [c] := by
    rw [normalize_append (.inr (show [c].head? ≠ some lf from hlf)),
      normalize_cons fun he => hcr (congrArg some he), normalize_nil]
  rw [pendingScan, concat_eq_append, hsplit, foldl_append, foldl_cons]
  have hgood : ((normalize before).foldl (feed delim mode) ([], .fresh)).2.Good mode :=
    good_foldl_feed _ good_fresh
  obtain ⟨hnext, hfresh⟩ | ⟨habsurd, -⟩ := Scan.Good.transition delim hgood c
  · rw [feed, if_neg fun he => hnext.state_ne (.inr he)]
    exact hfresh
  · exact absurd habsurd hc

/-- A machine that holds nothing and is not at the start of a record has read a quoted part that is
empty. -/
theorem Scan.Good.holds_nothing_iff {s : Scan} (h : s.Good mode) (hs : ¬ s.Unfinished)
    (hfresh : s ≠ .fresh) : (s.currentField ≠ [] ∨ s.fields ≠ []) ↔ s ≠ ⟨.quotedQuote, [], []⟩ := by
  obtain ⟨state, field, fields⟩ := s
  cases state with
  | fieldStart =>
    have hfield : field = [] := h
    subst hfield
    refine iff_of_true (.inr fun hfields => hfresh ?_) (fun he => by cases congrArg state he)
    exact congrArg (mk .fieldStart []) hfields
  | inField => exact iff_of_true (.inl h) (fun he => by cases congrArg state he)
  | quotedQuote => simp [or_iff_not_imp_left]
  | inQuotedField => exact absurd (.inl rfl) hs
  | quotedBackslashEscape => exact absurd (.inr rfl) hs
  | error => exact h.elim
  | endOfRecord => exact h.elim

/-- The newline after the last record may be left out unless it is the delimiter, or the last record
is a quoted part that is empty and nothing else. -/
theorem newlineOptional_iff {text : List Byte} (hne : text ≠ []) (hlf : text.getLast? ≠ some lf)
    (hcr : text.getLast? ≠ some cr) (hend : ¬ (pendingScan delim mode text).Unfinished) :
    NewlineOptional delim mode text ↔
      delim ≠ lf ∧ pendingScan delim mode text ≠ ⟨.quotedQuote, [], []⟩ := by
  have hfresh : pendingScan delim mode text ≠ .fresh := pendingScan_ne_fresh hne hlf hcr
  have hgood : (pendingScan delim mode text).Good mode := good_foldl_feed _ good_fresh
  rw [newlineOptional_iff_parse, normalize_append (.inl hcr), parse, parse, foldl_append,
    ← hgood.holds_nothing_iff hend hfresh]
  exact close_feed_lf hgood hend _

/-- One record with two fields, with and without its newline. -/
theorem newlineOptional_two_fields : NewlineOptional 0x2c#8 .rfc4180 [0x61#8, 0x2c#8, 0x62#8] :=
  (newlineOptional_iff (by decide) (by decide) (by decide) (by decide)).mpr (by decide)

/-- `""` at the end of the input is no record, and with a newline behind it is a record with one
empty field. The machine is not inside the quotes. -/
theorem quoted_empty_record_lost : ¬ (pendingScan 0x2c#8 .rfc4180 [quote, quote]).Unfinished ∧
      records arrayByteSource 0x2c#8 .rfc4180 [quote, quote] = some [] ∧
      records arrayByteSource 0x2c#8 .rfc4180 [quote, quote, lf] = some [⟨0, [[]]⟩] := by
  rw [records_eq, records_eq]
  decide

end

open Gloop.Foundation List Scan Writer
variable {delim : Byte} {done : List (List (List Byte))}

/-! ## Normalized fields -/

variable {text field : List Byte}

/-- A text without carriage returns stays as it is. -/
theorem normalize_eq_self (h : ∀ c ∈ text, c ≠ cr) : normalize text = text := by
  induction text with
  | nil => rfl
  | cons c text ih =>
    rw [normalize_cons (h c mem_cons_self), ih fun d hd => h d (mem_cons_of_mem c hd)]

theorem normalize_eq_nil : normalize text = [] ↔ text = [] := by
  fun_cases normalize text <;> simp

/-- Doubling keeps the first byte. -/
theorem doubled_head? (field : List Byte) : (doubled field).head? = field.head? := by
  cases field with
  | nil => rfl
  | cons c field =>
    rw [doubled_cons]
    split_ifs with hc
    · rw [hc]; rfl
    · rfl

theorem doubled_cons_of_ne {c : Byte} (h : c ≠ quote) (field : List Byte) :
    doubled (c :: field) = c :: doubled field := by
  rw [doubled_cons, if_neg h, singleton_append]

theorem doubled_quote (field : List Byte) :
    doubled (quote :: field) = quote :: quote :: doubled field :=
  rfl

/-- Doubling quotes does not touch the ends of lines. -/
theorem normalize_doubled (field : List Byte) :
    normalize (doubled field) = doubled (normalize field) := by
  have hquote : quote ≠ cr := by decide
  have hlf : lf ≠ quote := by decide
  fun_induction normalize field with
  | case1 => rfl
  | case2 c =>
    by_cases hc : c = cr
    · subst hc; rfl
    rw [if_neg hc]
    refine normalize_eq_self fun d hd => ?_
    by_cases hq : c = quote
    · subst hq
      have hd' : d = quote := by simpa [doubled_quote] using hd
      exact hd' ▸ hquote
    · have hd' : d = c := by simpa [doubled_cons_of_ne hq] using hd
      exact hd' ▸ hc
  | case3 rest ih =>
    rw [doubled_cons_of_ne hquote.symm, doubled_cons_of_ne hlf, normalize_crlf, ih,
      doubled_cons_of_ne hlf]
  | case4 d rest hd ih =>
    have hhead : (doubled (d :: rest)).head? ≠ some lf := by
      rw [doubled_head?]
      exact fun he => hd (Option.some.inj he)
    rw [doubled_cons_of_ne hquote.symm, normalize_cr hhead, ih, doubled_cons_of_ne hlf]
  | case5 c d rest hc ih =>
    by_cases hq : c = quote
    · subst hq
      rw [doubled_quote, normalize_cons hc, normalize_cons hc, ih, doubled_quote]
    · rw [doubled_cons_of_ne hq, normalize_cons hc, ih, doubled_cons_of_ne hq]

/-- The text does not end in the first half of a `"\r\n"`. -/
def EndsClean (text : List Byte) : Prop :=
  text.getLast? ≠ some cr

theorem endsClean_nil : EndsClean [] :=
  nofun

/-- A text that ends clean may be followed by another one. -/
theorem EndsClean.append {first second : List Byte} (hfirst : EndsClean first)
    (hsecond : EndsClean second) : EndsClean (first ++ second) := by
  rw [EndsClean, getLast?_append]
  cases hlast : second.getLast? with
  | none => exact hfirst
  | some c => exact fun he => hsecond (hlast.trans he)

/-- A formatted field ends clean. -/
theorem endsClean_formatted (field : List Byte) : EndsClean (formatted delim field) := by
  rw [formatted]
  split_ifs with h
  · rw [← cons_append, EndsClean, getLast?_concat]
    decide
  · intro hlast
    exact (quoteField_eq_false h (mem_of_getLast? hlast)).2.2.2 rfl

/-- The other fields of a record end clean. -/
theorem endsClean_more (hcr : delim ≠ cr) (more : List (List Byte)) :
    EndsClean (more.flatMap fun next => delim :: formatted delim next) := by
  induction more with
  | nil => exact endsClean_nil
  | cons next more ih =>
    have hdelim : EndsClean [delim] := fun he => hcr (Option.some.inj he)
    exact (hdelim.append (endsClean_formatted next)).append ih

/-! ## Reading a record back -/

/-- The machine has read the fields, the last of which is still open. -/
structure Holds (s : Scan) (fields : List (List Byte)) : Prop where
  good : s.Good .rfc4180
  finished : ¬ s.Unfinished
  fields_eq : s.fields ++ [s.currentField] = fields

variable {fields : List (List Byte)} {s : Scan}

theorem Holds.feed_delim (h : Holds s fields) (hquote : delim ≠ quote) :
    feed delim .rfc4180 (done, s) delim = (done, ⟨.fieldStart, [], fields⟩) := by
  rw [feed, h.good.transition_unquoted delim h.finished hquote, unquoted, if_pos rfl, ← h.fields_eq]
  rfl

variable (done) in
theorem Holds.feed_lf (h : Holds s fields) (hlf : delim ≠ lf) :
    feed delim .rfc4180 (done, s) lf = (done ++ [fields], .fresh) := by
  rw [feed, h.good.transition_unquoted delim h.finished (by decide), unquoted, if_neg hlf.symm,
    ← h.fields_eq]
  rfl

/-- A text without special characters goes into the field as it is. -/
theorem foldl_feed_plain (h : ∀ c ∈ field, c ≠ delim ∧ c ≠ quote ∧ c ≠ lf ∧ c ≠ cr)
    (hs : s.Good .rfc4180) (hend : ¬ s.Unfinished) :
    ∃ after, field.foldl (feed delim .rfc4180) (done, s) = (done, after) ∧
      Holds after (s.fields ++ [s.currentField ++ field]) := by
  induction field generalizing s with
  | nil => exact ⟨s, rfl, hs, hend, by rw [append_nil]⟩
  | cons c field ih =>
    obtain ⟨hdelim, hquote, hlf, -⟩ := h c mem_cons_self
    have hnext : s.transition delim .rfc4180 c = { s.pushChar c with state := .inField } := by
      rw [hs.transition_unquoted delim hend hquote, unquoted, if_neg hdelim, if_neg hlf]
    rw [foldl_cons, feed, hnext]
    obtain ⟨after, hfold, hafter⟩ := ih (fun d hd => h d (mem_cons_of_mem c hd))
      (show Scan.Good .rfc4180 { s.pushChar c with state := .inField } by
        simp [Scan.Good, pushChar]) (by simp [Scan.Unfinished])
    refine ⟨after, hfold, ?_⟩
    simpa [pushChar] using hafter

/-- Inside quotes the machine takes doubled quotes for quotes. -/
theorem foldl_feed_doubled (field : List Byte) (read : List Byte) (fields : List (List Byte)) :
    (doubled field).foldl (feed delim .rfc4180) (done, ⟨.inQuotedField, read, fields⟩) =
      (done, ⟨.inQuotedField, read ++ field, fields⟩) := by
  induction field generalizing read with
  | nil => rw [doubled_nil, foldl_nil, append_nil]
  | cons c field ih =>
    by_cases hc : c = quote
    · subst hc
      have hstep : feed delim .rfc4180
          (feed delim .rfc4180 (done, ⟨.inQuotedField, read, fields⟩) quote) quote =
          (done, ⟨.inQuotedField, read ++ [quote], fields⟩) := rfl
      rw [doubled_quote, foldl_cons, foldl_cons, hstep, ih, ← append_cons]
    · have hstep : feed delim .rfc4180 (done, ⟨.inQuotedField, read, fields⟩) c =
          (done, ⟨.inQuotedField, read ++ [c], fields⟩) := by
        simp [feed, transition, hc, pushChar]
      rw [doubled_cons_of_ne hc, foldl_cons, hstep, ih, ← append_cons]

variable (delim done) in
/-- The machine reads the text of a field up to the character behind it. -/
theorem foldl_feed_formatted (field : List Byte) (fields : List (List Byte)) :
    ∃ after, (normalize (formatted delim field)).foldl (feed delim .rfc4180)
        (done, ⟨.fieldStart, [], fields⟩) = (done, after) ∧
      Holds after (fields ++ [normalize field]) := by
  rw [formatted]
  split_ifs with h
  · have hsplit : normalize (quote :: (doubled field ++ [quote])) =
        quote :: (doubled (normalize field) ++ [quote]) := by
      rw [normalize_cons (by decide), normalize_append (.inr (by decide)), normalize_doubled]
      rfl
    have hopen : feed delim .rfc4180 (done, ⟨.fieldStart, [], fields⟩) quote =
        (done, ⟨.inQuotedField, [], fields⟩) := rfl
    rw [hsplit, foldl_cons, hopen, foldl_append, foldl_feed_doubled]
    exact ⟨⟨.quotedQuote, normalize field, fields⟩,
      rfl, by simp [Scan.Good], by simp [Scan.Unfinished], rfl⟩
  · have hplain : ∀ c ∈ field, c ≠ delim ∧ c ≠ quote ∧ c ≠ lf ∧ c ≠ cr :=
      fun _ hc => quoteField_eq_false h hc
    rw [normalize_eq_self fun c hc => (hplain c hc).2.2.2]
    exact foldl_feed_plain hplain rfl (by simp [Scan.Unfinished])

/-- The other fields of a record are read one after the other. -/
theorem foldl_feed_more (hquote : delim ≠ quote) (hcr : delim ≠ cr) (more : List (List Byte))
    (hs : Holds s fields) :
    ∃ after, (normalize (more.flatMap fun next => delim :: formatted delim next)).foldl
        (feed delim .rfc4180) (done, s) = (done, after) ∧
      Holds after (fields ++ more.map normalize) := by
  induction more generalizing s fields with
  | nil => exact ⟨s, rfl, by rwa [map_nil, append_nil]⟩
  | cons next more ih =>
    obtain ⟨afterField, hfield, hholds⟩ := foldl_feed_formatted delim done next fields
    obtain ⟨after, hfold, hafter⟩ := ih hholds
    refine ⟨after, ?_, ?_⟩
    · rw [flatMap_cons, cons_append, normalize_cons hcr,
        normalize_append (.inl (endsClean_formatted next)), foldl_cons, hs.feed_delim hquote,
        foldl_append, hfield, hfold]
    · rwa [append_assoc] at hafter

variable (done) in
/-- The machine reads the text of a record up to its last field. -/
theorem foldl_feed_recordText (hquote : delim ≠ quote) (hcr : delim ≠ cr) (field : List Byte)
    (more : List (List Byte)) :
    ∃ after, (normalize (recordText delim field more)).foldl (feed delim .rfc4180) (done, .fresh) =
        (done, after) ∧ Holds after ((field :: more).map normalize) := by
  obtain ⟨afterField, hfield, hholds⟩ := foldl_feed_formatted delim done field []
  obtain ⟨after, hfold, hafter⟩ := foldl_feed_more hquote hcr more hholds
  refine ⟨after, ?_, hafter⟩
  rw [recordText, normalize_append (.inl (endsClean_formatted field)), foldl_append, fresh, hfield,
    hfold]

/-! ## Reading a file back -/

/-- What a writer has in its sink is read back as the given records. -/
structure Written (w : Writer) (found : List (List (List Byte))) : Prop where
  endsClean : EndsClean w.sink
  foldl_eq : (normalize w.sink).foldl (feed w.fieldDelimiter .rfc4180)
    ([], .fresh) = (found, .fresh)

variable {found : List (List (List Byte))}

/-- Writing a record adds it to the records that are read back. -/
theorem Written.writeRecord {w : Writer} (h : Written w found)
    (hquote : w.fieldDelimiter ≠ quote) (hlf : w.fieldDelimiter ≠ lf) (hcr : w.fieldDelimiter ≠ cr)
    (hend : w.recordDelimiter = [lf] ∨ w.recordDelimiter = [cr, lf])
    {more : List (List Byte)} (hsize : (field :: more).length = w.numFields) :
    Written (w.writeRecord (field :: more)) (found ++ [(field :: more).map normalize]) := by
  rw [writeRecord_eq hsize]
  have hclean : EndsClean (w.sink ++ recordText w.fieldDelimiter field more) :=
    h.endsClean.append ((endsClean_formatted field).append (endsClean_more hcr more))
  have hdelim : normalize w.recordDelimiter = [lf] := by
    rcases hend with hend | hend <;> rw [hend] <;> rfl
  have hdelimClean : EndsClean w.recordDelimiter := by
    rcases hend with hend | hend <;> rw [hend] <;> exact fun he => by cases he
  refine ⟨hclean.append hdelimClean, ?_⟩
  obtain ⟨s, hfold, hs⟩ :=
    foldl_feed_recordText found hquote hcr field more
  rw [normalize_append (.inl hclean), normalize_append (.inl h.endsClean), foldl_append,
    foldl_append, h.foldl_eq, hfold, hdelim, foldl_cons, foldl_nil, hs.feed_lf _ hlf]

/-- Writing records of the right size adds them all, and every write succeeds. -/
theorem Written.writeRecords (recs : List (List (List Byte))) {w : Writer} (h : Written w found)
    (hok : w.status = .ok) (hquote : w.fieldDelimiter ≠ quote) (hlf : w.fieldDelimiter ≠ lf)
    (hcr : w.fieldDelimiter ≠ cr) (hend : w.recordDelimiter = [lf] ∨ w.recordDelimiter = [cr, lf])
    (hpos : 1 ≤ w.numFields) (hsize : ∀ record ∈ recs, record.length = w.numFields) :
    (recs.foldl Writer.writeRecord w).status = .ok ∧
      (recs.foldl Writer.writeRecord w).fieldDelimiter = w.fieldDelimiter ∧
      Written (recs.foldl Writer.writeRecord w) (found ++ recs.map (map normalize)) := by
  induction recs generalizing w found with
  | nil => exact ⟨hok, rfl, by rwa [map_nil, append_nil]⟩
  | cons record recs ih =>
    have hrecord := hsize record mem_cons_self
    cases record with
    | nil => exact absurd hrecord.symm (by simp only [length_nil]; omega)
    | cons field more =>
      have hnext := h.writeRecord hquote hlf hcr hend hrecord
      have hrest := fun record hmem => hsize record (mem_cons_of_mem _ hmem)
      rw [foldl_cons]
      rw [writeRecord_eq hrecord] at hnext ⊢
      obtain ⟨hstatus, hdelim, hwritten⟩ := ih hnext rfl hquote hlf hcr hend hpos hrest
      refine ⟨hstatus, hdelim, ?_⟩
      rw [map_cons, append_cons]
      exact hwritten

/-! ## The parser -/

/-- `ParseLine` returns the first record of the line, where an empty line is a newline. -/
theorem parseLine_eq {mode : Mode} {line : List Byte} {more : List (List (List Byte))}
    (h : parse delim mode (normalize (if line = [] then [lf] else line)) = fields :: more) :
    parseLine line delim mode = some ⟨0, fields⟩ := by
  rw [parseLine]
  generalize (if line = [] then [lf] else line) = text at *
  let start : Parser := ⟨text, 0, [], ⟨0, []⟩, true, 0⟩
  obtain ⟨p, hp, hspec⟩ := advance_spec arrayByteSource delim mode
    (show start.InBounds from Nat.zero_le _)
  have hnew : Parser.new arrayByteSource delim mode text = some p := hp
  rw [hnew, Option.bind_eq_bind, Option.bind_some]
  rw [parse_eq_scanRecord] at h
  have hrest : start.rest = text := rfl
  rw [hrest] at hspec
  generalize scanRecord delim mode .fresh (normalize text) = result at *
  obtain ⟨fields?, rest⟩ := result
  cases fields? with
  | none => cases h
  | some fields' =>
    obtain ⟨rfl, -⟩ := cons.inj h
    rw [(hspec.found _ rfl).1]

/-- A record without its newline is read back, also where the line is empty. -/
theorem parse_recordText (hquote : delim ≠ quote) (hlf : delim ≠ lf) (hcr : delim ≠ cr)
    (field : List Byte) (more : List (List Byte)) : parse delim .rfc4180 (normalize
        (if recordText delim field more = [] then [lf] else recordText delim field more)) =
      [(field :: more).map normalize] := by
  obtain ⟨s, hfold, hs⟩ := foldl_feed_recordText [] hquote hcr field more
  split_ifs with hempty
  · rw [hempty] at hfold
    have hfresh : s = .fresh := (Prod.mk.inj hfold).2.symm
    have hfeed := hs.feed_lf [] hlf
    rw [hfresh] at hfeed
    show close (feed delim .rfc4180 ([], .fresh) lf) = _
    rw [hfeed]
    rfl
  · rw [parse, hfold, close, finish, if_pos, hs.fields_eq]
    · rfl
    · -- a machine that holds one empty field has read an empty text
      by_contra hnothing
      rw [not_or, not_not, not_not] at hnothing
      have hfields := hs.fields_eq
      rw [hnothing.1, hnothing.2] at hfields
      obtain ⟨hfield, hmore⟩ := cons.inj hfields
      have hfieldNil : field = [] := normalize_eq_nil.mp hfield.symm
      have hmoreNil : more = [] := map_eq_nil_iff.mp hmore.symm
      subst hfieldNil hmoreNil
      exact hempty rfl

/-- The writer and the parser agree: records of one size are read back from any source, and a single
record is read back from its line. Line ends inside fields come back as `'\n'`. -/
theorem csv_round_trip (delim : Byte) (hquote : delim ≠ quote) (hlf : delim ≠ lf)
    (hcr : delim ≠ cr) : (∀ (source : ByteSource) (useCrlf : Bool) (n : Nat)
      (recs : List (List (List Byte))), 1 ≤ n → (∀ record ∈ recs, record.length = n) →
      ∃ w, w = recs.foldl writeRecord ((new n delim []).setCRLFRecordDelimiter useCrlf) ∧
        w.status = .ok ∧ records source delim .rfc4180 w.sink =
          some (numbered 0 (recs.map (List.map normalize)))) ∧
    ∀ fields : List (List Byte), fields ≠ [] → ∃ line,
        writeRecordToString fields delim = some line ∧
          parseLine line delim .rfc4180 = some ⟨0, fields.map normalize⟩ := by
  constructor
  · intro source useCrlf n recs hpos hsize
    have hstart : Written ((new n delim []).setCRLFRecordDelimiter useCrlf) [] :=
      ⟨endsClean_nil, rfl⟩
    have hend : ((new n delim []).setCRLFRecordDelimiter useCrlf).recordDelimiter = [lf] ∨
        ((new n delim []).setCRLFRecordDelimiter useCrlf).recordDelimiter = [cr, lf] := by
      cases useCrlf with
      | false => exact .inl rfl
      | true => exact .inr rfl
    obtain ⟨hok, hdelim, hwritten⟩ :=
      hstart.writeRecords recs rfl hquote hlf hcr hend hpos hsize
    generalize hw : recs.foldl Writer.writeRecord
      ((Writer.new n delim []).setCRLFRecordDelimiter useCrlf) = w at *
    refine ⟨w, rfl, hok, ?_⟩
    have hfold := hwritten.foldl_eq
    rw [show w.fieldDelimiter = delim from hdelim] at hfold
    rw [records_eq, parse, hfold, close]
    simp [finish, fresh]
  · intro fields hne
    cases fields with
    | nil => exact absurd rfl hne
    | cons field more =>
      refine ⟨recordText delim field more, ?_, ?_⟩
      · rw [writeRecordToString, writeRecord_eq rfl]
        simp [new]
      · exact parseLine_eq (parse_recordText hquote hlf hcr field more)

/-- Two records that need quotes, written with `"\r\n"` and read back. -/
theorem csv_round_trip_quoted : records arrayByteSource 0x2c#8 .rfc4180
        ([[[quote], []], [[cr, lf], [0x2c#8]]].foldl writeRecord
          ((new 2 0x2c#8 []).setCRLFRecordDelimiter true)).sink =
      some [⟨0, [[quote], []]⟩, ⟨1, [[lf], [0x2c#8]]⟩] ∧
    parseLine [] 0x2c#8 .rfc4180 = some ⟨0, [[]]⟩ := by
  have h := csv_round_trip 0x2c#8 (by decide) (by decide) (by decide)
  obtain ⟨w, hw, -, hrecords⟩ := h.1 arrayByteSource true 2 [[[quote], []], [[cr, lf], [0x2c#8]]]
    (by decide) (by decide)
  obtain ⟨line, hline, hparse⟩ := h.2 [[]] (by decide)
  cases hline
  subst hw
  exact ⟨hrecords, hparse⟩

end Gloop.Csv
