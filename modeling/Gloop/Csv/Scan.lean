import Gloop.Csv.Parser

/-!
# The parser as a fold over plain text

`normalize` turns every `"\r\n"` and every lone `'\r'` into `'\n'`. `feed` is the state machine with
a fresh start after each record, `parse` folds it over a normalized text, and `records_eq` says that
the parser returns just these records, whatever regions its source hands out.
-/

namespace Gloop.Csv

open Gloop.Foundation List Option Scan Csv.Parser

/-! ## Line ends -/

/-- Every line end as `'\n'`. -/
def normalize : List Byte → List Byte
  | [] => []
  | [c] => [if c = cr then lf else c]
  | c :: d :: rest =>
    if c = cr then
      if d = lf then lf :: normalize rest else lf :: normalize (d :: rest)
    else c :: normalize (d :: rest)

@[simp] theorem normalize_nil : normalize [] = [] := rfl

theorem normalize_cons {c : Byte} (h : c ≠ cr) (rest : List Byte) :
    normalize (c :: rest) = c :: normalize rest := by
  cases rest with
  | nil =>
    show [if c = cr then lf else c] = [c]
    rw [if_neg h]
  | cons d rest => rw [normalize, if_neg h]

/-- A carriage return before a newline is dropped. -/
theorem normalize_crlf (rest : List Byte) :
    normalize (cr :: lf :: rest) = lf :: normalize rest := by
  rw [normalize, if_pos rfl, if_pos rfl]

/-- Any other carriage return is a newline. -/
theorem normalize_cr {rest : List Byte} (h : rest.head? ≠ some lf) :
    normalize (cr :: rest) = lf :: normalize rest := by
  cases rest with
  | nil => rfl
  | cons d rest =>
    have hd : d ≠ lf := fun he => h (congrArg some he)
    rw [normalize, if_pos rfl, if_neg hd]

/-- Texts are normalized apart unless a `"\r\n"` is cut in two. -/
theorem normalize_append {first second : List Byte}
    (h : first.getLast? ≠ some cr ∨ second.head? ≠ some lf) :
      normalize (first ++ second) = normalize first ++ normalize second := by
  fun_induction normalize first with
  | case1 => rfl
  | case2 c =>
    by_cases hc : c = cr
    · subst hc
      have hsecond : second.head? ≠ some lf := h.resolve_left (fun hne => hne rfl)
      rw [if_pos rfl, singleton_append, normalize_cr hsecond, singleton_append]
    · rw [if_neg hc, singleton_append, normalize_cons hc, singleton_append]
  | case3 rest ih =>
    rw [cons_append, cons_append, normalize_crlf, ih, cons_append]
    cases rest with
    | nil => exact .inl (by simp)
    | cons d rest => simpa using h
  | case4 d rest hd ih =>
    have hhead : (d :: rest ++ second).head? ≠ some lf := by simpa using hd
    rw [cons_append, normalize_cr hhead, ih (by simpa using h), cons_append]
  | case5 c d rest hc ih =>
    rw [cons_append, normalize_cons hc, ih (by simpa using h), cons_append]

/-! ## The machine over plain text -/

section Machine

variable (delim : Byte) (mode : Mode)

/-- The fields of a record that the end of the input closes, if there is one. -/
def Scan.finish (s : Scan) : Option (List (List Byte)) :=
  if s.currentField ≠ [] ∨ s.fields ≠ [] then some (s.fields ++ [s.currentField]) else none

/-- One character for the machine that has already completed some records. -/
def feed : List (List (List Byte)) × Scan → Byte → List (List (List Byte)) × Scan
  | (done, s), c =>
    if (s.transition delim mode c).state = .endOfRecord then
      (done ++ [(s.transition delim mode c).fields], .fresh)
    else (done, s.transition delim mode c)

/-- The records of a machine at the end of its input. -/
def close : List (List (List Byte)) × Scan → List (List (List Byte))
  | (done, s) => done ++ s.finish.toList

/-- The records of a normalized text. -/
def parse (text : List Byte) : List (List (List Byte)) :=
  close (text.foldl (feed delim mode) ([], .fresh))

/-- The first record that the machine completes and the text behind it. -/
def scanRecord : Scan → List Byte → Option (List (List Byte)) × List Byte
  | s, [] => (s.finish, [])
  | s, c :: rest =>
    if (s.transition delim mode c).state = .endOfRecord then
      (some (s.transition delim mode c).fields, rest)
    else scanRecord (s.transition delim mode c) rest

/-- What holds of the machine before each character. -/
def Scan.Good (s : Scan) : Prop :=
  match s.state with
  | .fieldStart => s.currentField = []
  | .inField => s.currentField ≠ []
  | .inQuotedField | .quotedQuote => mode ≠ .literalQuotes
  | .quotedBackslashEscape => mode = .mysqlEscaping
  | .error | .endOfRecord => False

/-- The machine is inside a quoted part or behind the backslash of an escape. -/
def Scan.Unfinished (s : Scan) : Prop :=
  s.state = .inQuotedField ∨ s.state = .quotedBackslashEscape

instance (s : Scan) : Decidable s.Unfinished :=
  inferInstanceAs (Decidable (_ ∨ _))

variable {delim mode}

theorem Scan.good_fresh : fresh.Good mode := rfl

variable {s : Scan}

/-- A good state passes the check. -/
theorem Scan.Good.check (h : s.Good mode) : s.check mode = true := by
  obtain ⟨state, field, fields⟩ := s
  cases state <;> simp_all [Scan.Good, check]

/-- The cases without quotes complete the record or stay good, and do not look fresh. -/
theorem Scan.unquoted_cases (s : Scan) (c : Byte) :
    (s.unquoted delim c).Good mode ∧ s.unquoted delim c ≠ .fresh ∨
      c = lf ∧ (s.unquoted delim c).state = .endOfRecord := by
  unfold unquoted
  split_ifs with hdelim hlf
  · refine .inl ⟨rfl, fun h => ?_⟩
    have hfields := congrArg fields h
    simp [pushField, fresh] at hfields
  · exact .inr ⟨hlf, rfl⟩
  · exact .inl ⟨by simp [Scan.Good, pushChar], fun h => by cases congrArg state h⟩

variable (delim) in
/-- What one character does to a machine in good order. -/
theorem Scan.Good.transition (h : s.Good mode) (c : Byte) :
    (s.transition delim mode c).Good mode ∧ s.transition delim mode c ≠ .fresh ∨
      c = lf ∧ (s.transition delim mode c).state = .endOfRecord := by
  obtain ⟨state, field, fields⟩ := s
  cases state with
  | fieldStart | inField =>
    by_cases hq : mode ≠ .literalQuotes ∧ c = quote
    · exact .inl (by simp [transition, hq, Scan.Good, fresh])
    · simpa only [transition, if_neg hq] using unquoted_cases _ c
  | inQuotedField =>
    have hmode : mode ≠ .literalQuotes := h
    refine .inl ?_
    simp only [transition]
    split_ifs with hq hb
    · exact ⟨hmode, by simp [fresh]⟩
    · exact ⟨hb.2, by simp [fresh]⟩
    · exact ⟨hmode, by simp [fresh, pushChar]⟩
  | quotedQuote =>
    have hmode : mode ≠ .literalQuotes := h
    by_cases hq : c = quote ∧ mode ≠ .mysqlEscaping
    · exact .inl (by simp [transition, hq, Scan.Good, fresh, hmode])
    · simpa only [transition, if_neg hq] using unquoted_cases _ c
  | quotedBackslashEscape =>
    have hmode : mode = .mysqlEscaping := h
    exact .inl (by simp [transition, Scan.Good, fresh, hmode])
  | error => exact h.elim
  | endOfRecord => exact h.elim

theorem Scan.Good.state_ne (h : s.Good mode) : ¬ (s.state = .error ∨ s.state = .endOfRecord) := by
  rintro (hs | hs) <;> simp [Scan.Good, hs] at h

variable (delim) in
/-- Outside quotes every character but a quote is handled in the same way. -/
theorem Scan.Good.transition_unquoted (h : s.Good mode) (hs : ¬ s.Unfinished) {c : Byte}
    (hc : c ≠ quote) : s.transition delim mode c = s.unquoted delim c := by
  obtain ⟨state, field, fields⟩ := s
  cases state with
  | fieldStart | inField => simp [Scan.transition, hc]
  | quotedQuote => simp [Scan.transition, hc]
  | inQuotedField => exact absurd (.inl rfl) hs
  | quotedBackslashEscape => exact absurd (.inr rfl) hs
  | error => exact h.elim
  | endOfRecord => exact h.elim

/-- The machine stays in good order over a text. -/
theorem good_foldl_feed (text : List Byte) {done : List (List (List Byte))} (h : s.Good mode) :
    (text.foldl (feed delim mode) (done, s)).2.Good mode := by
  induction text generalizing done s with
  | nil => exact h
  | cons c text ih =>
    rw [foldl_cons, feed]
    split_ifs with hend
    · exact ih good_fresh
    · exact ih ((h.transition delim c).elim (·.1) fun hlf => absurd hlf.2 hend)

/-- The records from a state on are the first one and those of the text behind it. -/
theorem close_foldl_feed (text : List Byte) (done : List (List (List Byte))) (s : Scan) :
    close (text.foldl (feed delim mode) (done, s)) = done ++ match scanRecord delim mode s text with
        | (none, _) => []
        | (some fields, rest) => fields :: parse delim mode rest := by
  induction text generalizing done s with
  | nil =>
    rw [foldl_nil, close, scanRecord]
    cases s.finish <;> rfl
  | cons c text ih =>
    rw [foldl_cons, feed, scanRecord]
    split_ifs with hend
    · rw [ih, append_assoc]
      show _ = done ++ ([_] ++ parse delim mode text)
      rw [parse, ih, nil_append]
    · exact ih _ _

/-- Parsing a text scans its first record and parses the rest. -/
theorem parse_eq_scanRecord (text : List Byte) :
    parse delim mode text = match scanRecord delim mode .fresh text with
      | (none, _) => []
      | (some fields, rest) => fields :: parse delim mode rest :=
  close_foldl_feed text [] .fresh

end Machine

/-! ## Reading from any source -/

section Reading

variable (source : ByteSource)

/-- The text that a parser has not read. -/
def Parser.rest (p : Parser) : List Byte :=
  p.currentStr ++ p.left.drop p.origStrSize

/-- The region last taken from the source is not larger than what the source has left. -/
def Parser.InBounds (p : Parser) : Prop :=
  p.origStrSize ≤ p.left.length

/-- Reading has left `rest` to read and has changed nothing else. -/
structure Reads (p : Parser) (rest : List Byte) (after : Parser) : Prop where
  inBounds : after.InBounds
  rest_eq : after.rest = rest
  record_eq : after.record = p.record
  hasMoreData_eq : after.hasMoreData = p.hasMoreData
  recordCount_eq : after.recordCount = p.recordCount

variable {p : Parser}

theorem Reads.refl (h : p.InBounds) : Reads p p.rest p :=
  ⟨h, rfl, rfl, rfl, rfl⟩

theorem Reads.trans {after last : Parser} {first second : List Byte} (h : Reads p first after)
    (hlast : Reads after second last) : Reads p second last :=
  ⟨hlast.inBounds, hlast.rest_eq, hlast.record_eq.trans h.record_eq,
    hlast.hasMoreData_eq.trans h.hasMoreData_eq, hlast.recordCount_eq.trans h.recordCount_eq⟩

/-- The source is asked for more until there is something or it ends. -/
theorem populateCurrentString_spec (h : p.InBounds) (hempty : p.currentStr = []) :
    (p.rest = [] ∧ ∃ after, populateCurrentString source p = some (false, after) ∧
      Reads p [] after) ∨
    (∃ after, populateCurrentString source p = some (true, after) ∧ Reads p p.rest after ∧
      after.currentStr ≠ []) := by
  have hrest : p.rest = p.left.drop p.origStrSize := by rw [rest, hempty, nil_append]
  rw [populateCurrentString, if_pos (show p.origStrSize ≤ p.left.length from h)]
  by_cases hnil : p.left.drop p.origStrSize = []
  · refine .inl ⟨hrest.trans hnil, ?_⟩
    simp only [hnil]
    exact ⟨_, rfl, Nat.zero_le _, by simp [rest, hempty], rfl, rfl, rfl⟩
  right
  have hlength : (p.left.drop p.origStrSize).length ≠ 0 :=
    fun hzero => hnil (eq_nil_of_length_eq_zero hzero)
  obtain ⟨tail, htail⟩ := source.peek_prefix (p.left.drop p.origStrSize)
  simp only [if_neg hlength]
  generalize p.left.drop p.origStrSize = left at *
  generalize hregion : (source.peek left).take left.length = region at *
  refine ⟨_, rfl, ⟨?_, ?_, rfl, rfl, rfl⟩, ?_⟩
  · show region.length ≤ left.length
    rw [← htail, length_append]
    exact Nat.le_add_right _ _
  · show region ++ left.drop region.length = p.rest
    rw [hrest, ← htail, drop_left]
  · -- an empty region would come from an empty answer of the source
    intro hregionNil
    have htake := hregion.trans hregionNil
    rw [take_eq_nil_iff] at htake
    exact htake.elim hlength (source.peek_ne_nil left hnil)

/-- The test for a next character tells whether anything is left. -/
theorem hasNext_spec (h : p.InBounds) :
    (p.rest = [] ∧ ∃ after, hasNext source p = some (false, after) ∧ Reads p [] after) ∨
    (∃ after, hasNext source p = some (true, after) ∧ Reads p p.rest after ∧
      after.currentStr ≠ []) := by
  rw [hasNext]
  split_ifs with hempty
  · exact populateCurrentString_spec source h hempty
  · exact .inr ⟨p, rfl, Reads.refl h, hempty⟩

/-- A character is taken from what is left. -/
theorem takeChar_spec (h : p.InBounds) (hne : p.currentStr ≠ []) :
    ∃ c rest after, takeChar p = some (c, after) ∧ p.rest = c :: rest ∧ Reads p rest after := by
  rw [takeChar, rest]
  cases hcur : p.currentStr with
  | nil => exact absurd hcur hne
  | cons c rest => exact ⟨c, _, _, rfl, rfl, h, rfl, rfl, rfl, rfl⟩

/-- The characters that the machine sees are those of the normalized text. A `'\r'` and a `'\n'` are
one character also where they come from two regions. -/
theorem nextChar_spec (h : p.InBounds) (hne : p.currentStr ≠ []) :
    ∃ c rest after, nextChar source p = some (c, after) ∧ Reads p rest after ∧
      normalize p.rest = c :: normalize rest ∧ rest.length < p.rest.length := by
  obtain ⟨c, rest, afterFirst, htake, hrest, hfirst⟩ := takeChar_spec h hne
  simp only [nextChar, htake, bind_eq_bind, bind_some]
  rw [hrest]
  by_cases hcr : c = cr
  · subst hcr
    obtain ⟨hnil, after, hnext, hreads⟩ | ⟨after, hnext, hreads, hcur⟩ :=
      hasNext_spec source hfirst.inBounds
    · have hrestNil : rest = [] := hfirst.rest_eq.symm.trans hnil
      subst hrestNil
      rw [hnext]
      exact ⟨lf, [], after, rfl, hfirst.trans hreads, rfl, Nat.zero_lt_one⟩
    rw [hnext]
    have hreads' : Reads p rest after := hfirst.rest_eq ▸ hfirst.trans hreads
    obtain ⟨second, tail, last, htake', htail, hlast⟩ := takeChar_spec hreads.inBounds hcur
    have hrest' : rest = second :: tail := hreads'.rest_eq.symm.trans htail
    simp only [bind_some, if_true, htake']
    split_ifs with hsecond
    · subst hsecond
      refine ⟨lf, tail, last, rfl, hreads'.trans hlast, ?_, ?_⟩
      · rw [hrest', normalize_crlf]
      · rw [hrest', length_cons, length_cons]
        omega
    · refine ⟨lf, rest, after, rfl, hreads', normalize_cr ?_, Nat.lt_succ_self _⟩
      rw [hrest']
      exact fun he => hsecond (some.inj he)
  · rw [if_neg hcr]
    exact ⟨c, rest, afterFirst, rfl, hfirst, normalize_cons hcr rest, Nat.lt_succ_self _⟩

end Reading

/-! ## Records from any source -/

section Records

variable (source : ByteSource) (delim : Byte) (mode : Mode)

/-- The parser has gone on to a record of the text, or has found that there is none. -/
structure Advances (p : Parser) (result : Option (List (List Byte)) × List Byte) (after : Parser) :
    Prop where
  inBounds : after.InBounds
  rest_eq : normalize after.rest = result.2
  recordCount_eq : after.recordCount = p.recordCount
  found : ∀ fields, result.1 = some fields →
    after.record = ⟨p.record.number, fields⟩ ∧ after.hasMoreData = p.hasMoreData
  missing : result.1 = none → after.hasMoreData = false

theorem Reads.advances {p after last : Parser} {rest : List Byte}
    {result : Option (List (List Byte)) × List Byte} (h : Reads p rest after)
    (hlast : Advances after result last) : Advances p result last :=
  ⟨hlast.inBounds, hlast.rest_eq, hlast.recordCount_eq.trans h.recordCount_eq,
    fun fields hfields => by
      rw [← h.record_eq, ← h.hasMoreData_eq]
      exact hlast.found fields hfields,
    hlast.missing⟩

variable {p : Parser}

/-- The end of the input closes a record as `finish` says. -/
theorem finishRecord_advances (h : p.InBounds) (hrest : p.rest = []) (s : Scan) :
    Advances p (s.finish, []) (finishRecord p s) := by
  by_cases hs : s.currentField ≠ [] ∨ s.fields ≠ []
  · have hne : s.fields ++ [s.currentField] ≠ [] := by simp
    simp only [finishRecord, if_pos hs, finish, pushField, if_pos hne]
    refine ⟨h, congrArg normalize hrest, rfl, ?_, ?_⟩
    · intro fields hfields
      cases hfields
      exact ⟨rfl, rfl⟩
    · intro hnone
      cases hnone
  · have hfields : ¬ s.fields ≠ [] := fun hne => hs (.inr hne)
    simp only [finishRecord, if_neg hs, finish, if_neg hfields]
    refine ⟨h, congrArg normalize hrest, rfl, ?_, fun _ => rfl⟩
    intro fields hsome
    cases hsome

/-- A round of the loop that reads a character hands it to the machine. -/
theorem advanceStep_read {s : Scan} (h : p.InBounds) (hs : s.Good mode) (hne : p.rest ≠ []) :
    ∃ c rest after, advanceStep source delim mode (p, s) =
      some (.inl (after, s.transition delim mode c)) ∧ Reads p rest after ∧
        normalize p.rest = c :: normalize rest ∧ rest.length < p.rest.length := by
  obtain ⟨hnil, -⟩ | ⟨ready, hnext, hready, hcur⟩ := hasNext_spec source h
  · exact absurd hnil hne
  obtain ⟨c, rest, after, hread, hreads, htext, hless⟩ := nextChar_spec source hready.inBounds hcur
  rw [hready.rest_eq] at htext hless
  have hstate : (s.transition delim mode c).state ≠ .error := by
    intro herror
    obtain ⟨hgood, -⟩ | ⟨-, hend⟩ := hs.transition delim c
    · exact hgood.state_ne (.inl herror)
    · rw [herror] at hend
      cases hend
  refine ⟨c, rest, after, ?_, hready.trans hreads, htext, hless⟩
  simp [advanceStep, if_neg hs.state_ne, hnext, hread, switch, hs.check, if_neg hstate]

/-- The loop of `Advance()` scans one record of the normalized text. -/
theorem iterate_advanceStep {s : Scan} (h : p.InBounds) (hs : s.Good mode) :
    ∃ after, iterate (advanceStep source delim mode) (p, s) = some after ∧
      Advances p (scanRecord delim mode s (normalize p.rest)) after := by
  induction hn : p.rest.length using Nat.strongRecOn generalizing p s with
  | ind n ih =>
    by_cases hnil : p.rest = []
    · obtain ⟨-, after, hnext, hreads⟩ | ⟨after, -, hreads, hcur⟩ := hasNext_spec source h
      · refine ⟨finishRecord after s, iterate_done ?_, ?_⟩
        · simp [advanceStep, if_neg hs.state_ne, hnext]
        · rw [hnil]
          exact hreads.advances (finishRecord_advances hreads.inBounds hreads.rest_eq s)
      · have hcurNil := hreads.rest_eq.trans hnil
        exact absurd (append_eq_nil_iff.mp hcurNil).1 hcur
    · obtain ⟨c, rest, after, hstep, hreads, htext, hless⟩ :=
        advanceStep_read source delim mode h hs hnil
      rw [iterate_next hstep, htext, scanRecord]
      obtain ⟨hgood, -⟩ | ⟨-, hend⟩ := hs.transition delim c
      · rw [if_neg fun he => hgood.state_ne (.inr he)]
        rw [← hreads.rest_eq] at hless
        obtain ⟨last, hlast, hadv⟩ := ih _ (hn ▸ hless) hreads.inBounds hgood rfl
        exact ⟨last, hlast, hreads.advances (hreads.rest_eq ▸ hadv)⟩
      rw [if_pos hend]
      refine ⟨_, iterate_done (by rw [advanceStep, if_pos (.inr hend)]), ?_⟩
      refine ⟨hreads.inBounds, congrArg normalize hreads.rest_eq, hreads.recordCount_eq, ?_, ?_⟩
      · intro fields hfields
        cases hfields
        exact ⟨by rw [hreads.record_eq], hreads.hasMoreData_eq⟩
      · intro hnone
        cases hnone

/-- `Advance()` goes on to the next record of the normalized text. -/
theorem advance_spec (h : p.InBounds) : ∃ after, advance source delim mode p = some after ∧
      Advances { p with record := ⟨p.recordCount, []⟩, recordCount := p.recordCount + 1 }
        (scanRecord delim mode .fresh (normalize p.rest)) after :=
  iterate_advanceStep source delim mode h good_fresh

/-- Records numbered from `start` on. -/
def numbered (start : Nat) (fields : List (List (List Byte))) : List Record :=
  (fields.zipIdx start).map fun entry => ⟨entry.2, entry.1⟩

theorem numbered_cons (start : Nat) (fields : List (List Byte)) (more : List (List (List Byte))) :
    numbered start (fields :: more) = ⟨start, fields⟩ :: numbered (start + 1) more := rfl

/-- Records are told apart by what is numbered. -/
theorem numbered_injective (start : Nat) : Function.Injective (numbered start) := by
  intro first second h
  have hfields := congrArg (List.map Record.fields) h
  simpa [numbered, List.map_map, Function.comp_def] using hfields

/-- A loop over the iterators sees the records of the text that was left before the last advance. -/
theorem iterate_collectStep (found : List (List (List Byte))) :
    ∀ {p after : Parser} (isEnd : Bool) (seen : List Record), p.InBounds → p.hasMoreData = true →
      parse delim mode (normalize p.rest) = found → advance source delim mode p = some after →
      (isEnd = true → after.hasMoreData = false) →
      iterate (collectStep source delim mode) (after, isEnd, seen) =
        some (seen ++ numbered p.recordCount found) := by
  induction found with
  | nil =>
    intro p after isEnd seen h hmore hparse hadv hend
    obtain ⟨after', hadv', hspec⟩ := advance_spec source delim mode h
    cases hadv.symm.trans hadv'
    rw [parse_eq_scanRecord] at hparse
    generalize scanRecord delim mode .fresh (normalize p.rest) = result at *
    obtain ⟨fields?, rest⟩ := result
    cases fields? with
    | none =>
      have hno : after.hasMoreData = false := hspec.missing rfl
      refine iterate_done ?_
      rw [collectStep, hno, Bool.not_false, Bool.or_true, if_pos rfl, numbered, zipIdx_nil,
        map_nil, append_nil]
    | some fields => cases hparse
  | cons fields found ih =>
    intro p after isEnd seen h hmore hparse hadv hend
    obtain ⟨after', hadv', hspec⟩ := advance_spec source delim mode h
    cases hadv.symm.trans hadv'
    rw [parse_eq_scanRecord] at hparse
    generalize scanRecord delim mode .fresh (normalize p.rest) = result at *
    obtain ⟨fields?, rest⟩ := result
    cases fields? with
    | none => cases hparse
    | some fields' =>
      obtain ⟨rfl, hfound⟩ := cons.inj hparse
      obtain ⟨hrecord, hdata⟩ := hspec.found _ rfl
      have hyes : after.hasMoreData = true := hdata.trans hmore
      have hnotEnd : isEnd = false := by
        cases isEnd with
        | false => rfl
        | true => exact absurd ((hend rfl).symm.trans hyes) (by decide)
      obtain ⟨last, hlast, -⟩ := advance_spec source delim mode hspec.inBounds
      have hstep : collectStep source delim mode (after, isEnd, seen) =
          some (.inl (last, !last.hasMoreData, seen ++ [after.record])) := by
        simp [collectStep, hyes, hnotEnd, hlast]
      rw [iterate_next hstep, ih _ _ hspec.inBounds hyes (hspec.rest_eq ▸ hfound) hlast (by simp),
        hrecord, hspec.recordCount_eq, numbered_cons, ← append_cons]

/-- Whatever regions the source hands out, the parser returns the records of the normalized text,
numbered from zero. -/
theorem records_eq (data : List Byte) :
    records source delim mode data = some (numbered 0 (parse delim mode (normalize data))) := by
  let start : Parser := ⟨data, 0, [], ⟨0, []⟩, true, 0⟩
  have hstart : start.InBounds := Nat.zero_le _
  obtain ⟨p, hp, hspec⟩ := advance_spec source delim mode hstart
  have hnew : new source delim mode data = some p := hp
  rw [records, hnew, bind_eq_bind, bind_some,
    iterate_collectStep source delim mode _ _ [] hstart rfl rfl hp]
  · rfl
  · intro hempty
    have hdata : data = [] := by simpa using hempty
    subst hdata
    exact hspec.missing rfl

end Records

end Gloop.Csv
