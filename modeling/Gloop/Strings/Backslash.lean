import Gloop.Foundation.Iterate
import Gloop.Foundation.BitString
import Mathlib.Data.List.TakeWhile

/-!
# `BackslashEscape`, `BackslashUnescape` and `BackslashUnescapedFind` of `escaping.cc`

The three functions take a test for the characters that are escaped. `backslashUnescape` keeps back
a backslash until it has seen the next character, and `backslashUnescapedFind` keeps the start of a
run of backslashes and escaped characters, and decides by the parity of the distance to it.
`unescapedScan` is the search that reads two characters at a time.
-/

namespace Gloop.Strings

open Gloop.Foundation List Nat

/-- `'\\'`. -/
def backslash : Byte := 0x5c#8

/-- An `absl::CharSet`, by its `contains`. -/
structure CharSet where
  contains : Byte → Bool

/-- The set of one character. -/
def CharSet.char (delim : Byte) : CharSet :=
  ⟨fun c => c = delim⟩

/-! ## Escaping -/

/-- A round of the outer loop of `BackslashEscape`. The inner loop goes on to the next character
that needs a backslash. -/
def escapeStep (delimiterCheck : Byte → Bool) :
    List Byte × List Byte → Option (List Byte × List Byte ⊕ List Byte)
  | ([], dest) => some (.inr dest)
  | (first, dest) =>
    let dest := dest ++ first.takeWhile (!delimiterCheck ·)
    match first.dropWhile (!delimiterCheck ·) with
    | [] => some (.inl ([], dest))
    | c :: next => some (.inl (next, dest ++ [backslash, c]))

/-- `BackslashEscape(src, delimiter_check, dest)`. -/
def backslashEscapeWith (src : List Byte) (delimiterCheck : Byte → Bool) (dest : List Byte) :
    Option (List Byte) :=
  iterate (escapeStep delimiterCheck) (src, dest)

/-- `BackslashEscape(src, delim, dest)` for a character. -/
def backslashEscapeChar (src : List Byte) (delim : Byte) (dest : List Byte) : Option (List Byte) :=
  backslashEscapeWith src (fun c => c = delim) dest

/-- `BackslashEscape(src, delims, dest)` for a set. -/
def backslashEscape (src : List Byte) (delims : CharSet) (dest : List Byte) : Option (List Byte) :=
  backslashEscapeWith src (fun c => delims.contains c) dest

/-! ## Unescaping -/

/-- A round of `BackslashUnescape` with the destination and `escaped`. -/
def unescapeStep (delimiterCheck : Byte → Bool) : List Byte × Bool → Byte → List Byte × Bool
  | (dest, true), c =>
    if delimiterCheck c then (dest ++ [c], false)
    else if c = backslash then (dest ++ [backslash], true)
    else (dest ++ [backslash] ++ [c], false)
  | (dest, false), c =>
    if c = backslash then (dest, true) else (dest ++ [c], false)

/-- What stands after the loop of `BackslashUnescape`: a trailing backslash. -/
def finishUnescape : List Byte × Bool → List Byte
  | (dest, true) => dest ++ [backslash]
  | (dest, false) => dest

/-- `BackslashUnescape(src, delimiter_check, dest)`. -/
def backslashUnescapeWith (src : List Byte) (delimiterCheck : Byte → Bool) (dest : List Byte) :
    List Byte :=
  finishUnescape (src.foldl (unescapeStep delimiterCheck) (dest, false))

/-- `BackslashUnescape(src, delim, dest)` for a character. -/
def backslashUnescapeChar (src : List Byte) (delim : Byte) (dest : List Byte) : List Byte :=
  backslashUnescapeWith src (fun c => c = delim) dest

/-- `BackslashUnescape(src, delims, dest)` for a set. -/
def backslashUnescape (src : List Byte) (delims : CharSet) (dest : List Byte) : List Byte :=
  backslashUnescapeWith src (fun c => delims.contains c) dest

/-! ## Finding -/

/-- The loop of `BackslashUnescapedFindIter`, from the position `first` on. -/
def findIter (delimiterCheck : Byte → Bool) : List Byte → Nat → Bool → Nat → Nat
  | [], first, escaped, slashPos =>
    if escaped && delimiterCheck backslash then
      if (first - slashPos) % 2 = 1 then first - 1 else first
    else first
  | c :: rest, first, escaped, slashPos =>
    if escaped then
      if delimiterCheck backslash then
        if c = backslash then findIter delimiterCheck rest (first + 1) true slashPos
        else if (first - slashPos) % 2 = 0 then
          if delimiterCheck c then first
          else findIter delimiterCheck rest (first + 1) false slashPos
        -- an unescaped backslash stands right before
        else if delimiterCheck c then findIter delimiterCheck rest (first + 1) true slashPos
        else first - 1
      else findIter delimiterCheck rest (first + 1) false slashPos
    else if c = backslash then findIter delimiterCheck rest (first + 1) true first
    else if delimiterCheck c then first
    else findIter delimiterCheck rest (first + 1) false slashPos

/-- `BackslashUnescapedFind(src, delimiter_check)`, with `none` for `npos`. -/
def backslashUnescapedFindWith (src : List Byte) (delimiterCheck : Byte → Bool) : Option Nat :=
  let pos := findIter delimiterCheck src 0 false 0
  if pos = src.length then none else some pos

/-- `BackslashUnescapedFind(src, delims)` for a set. -/
def backslashUnescapedFind (src : List Byte) (delims : CharSet) : Option Nat :=
  backslashUnescapedFindWith src fun c => delims.contains c

/-- The search that reads a backslash together with the character after it, from position `i` on. -/
def unescapedScan (delims : CharSet) : List Byte → Nat → Option Nat
  | [], _ => none
  | [c], i =>
    if delims.contains c then some i else none
  | c :: d :: rest, i =>
    if c = backslash then
      if delims.contains backslash && !delims.contains d then some i
      else unescapedScan delims rest (i + 2)
    else if delims.contains c then some i
    else unescapedScan delims (d :: rest) (i + 1)

/-! ## The escaped string -/

variable {delimiterCheck : Byte → Bool}

/-- The string with a backslash before each character that needs one. -/
def escaped (delimiterCheck : Byte → Bool) (src : List Byte) : List Byte :=
  src.flatMap fun c => if delimiterCheck c then [backslash, c] else [c]

theorem escaped_cons (c : Byte) (src : List Byte) : escaped delimiterCheck (c :: src) =
      (if delimiterCheck c then [backslash, c] else [c]) ++ escaped delimiterCheck src :=
  flatMap_cons

/-- A run of ordinary characters is copied. -/
theorem escaped_run {run : List Byte} (hrun : ∀ c ∈ run, delimiterCheck c = false)
    (src : List Byte) : escaped delimiterCheck (run ++ src) =
      run ++ escaped delimiterCheck src := by
  induction run with
  | nil => rfl
  | cons c run ih =>
    have hc : delimiterCheck c = false := hrun c mem_cons_self
    have hrest := ih fun d hd => hrun d (mem_cons_of_mem c hd)
    rw [cons_append, escaped_cons, hc, hrest]
    rfl

/-- A round of the loop moves a prefix of the source over in its escaped form. -/
theorem escapeStep_cons (c : Byte) (src dest : List Byte) :
    ∃ next dest', escapeStep delimiterCheck (c :: src, dest) = some (.inl (next, dest')) ∧
      next.length < (c :: src).length ∧
      dest' ++ escaped delimiterCheck next = dest ++ escaped delimiterCheck (c :: src) := by
  have hsplit := takeWhile_append_dropWhile (p := (!delimiterCheck ·)) (l := c :: src)
  have hrun : ∀ d ∈ (c :: src).takeWhile (!delimiterCheck ·), delimiterCheck d = false := by
    intro d hd
    simpa using mem_takeWhile_imp hd
  have hescaped := escaped_run hrun ((c :: src).dropWhile (!delimiterCheck ·))
  rw [hsplit] at hescaped
  cases hdrop : (c :: src).dropWhile (!delimiterCheck ·) with
  | nil =>
    rw [hdrop] at hescaped
    refine ⟨[], dest ++ (c :: src).takeWhile (!delimiterCheck ·), ?_, succ_pos _, ?_⟩
    · simp only [escapeStep, hdrop]
    · rw [hescaped, append_assoc]
  | cons d next =>
    have hd : delimiterCheck d = true := by
      have hhead := head_dropWhile_not (p := (!delimiterCheck ·)) (l := c :: src)
      simpa [hdrop] using hhead
    have hlength := (dropWhile_suffix (l := c :: src) (!delimiterCheck ·)).length_le
    rw [hdrop] at hescaped hlength
    refine ⟨next, dest ++ (c :: src).takeWhile (!delimiterCheck ·) ++ [backslash, d], ?_, hlength,
      ?_⟩
    · simp only [escapeStep, hdrop]
    · rw [hescaped, escaped_cons, hd, if_pos rfl]
      simp only [append_assoc]

/-- Escaping puts a backslash before each delimiter. -/
theorem backslashEscapeWith_eq (src dest : List Byte) :
    backslashEscapeWith src delimiterCheck dest = some (dest ++ escaped delimiterCheck src) := by
  -- each round shortens the rest of the source and keeps the string that results
  refine iterate_eq (fun s : List Byte × List Byte =>
    s.2 ++ escaped delimiterCheck s.1 = dest ++ escaped delimiterCheck src)
      (fun s => s.1.length) ?_ rfl
  rintro ⟨first, current⟩ hs
  cases first with
  | nil =>
    rw [← hs]
    exact .inr (congrArg (fun result => some (Sum.inr result)) (append_nil current).symm)
  | cons c first =>
    obtain ⟨next, dest', hstep, hless, hkeep⟩ := escapeStep_cons c first current
    exact .inl ⟨(next, dest'), hstep, hkeep.trans hs, hless⟩

/-! ## Unescaping it -/

/-- The backslash that is kept back. -/
def pending : Bool → List Byte
  | true => [backslash]
  | false => []

/-- A backslash is only kept back while it is not itself a delimiter, or right before one. -/
theorem unescape_escaped (src dest : List Byte) (isPending : Bool)
    (hpending : isPending = true → delimiterCheck backslash = false) :
    finishUnescape ((escaped delimiterCheck src).foldl (unescapeStep delimiterCheck)
      (dest, isPending)) = dest ++ pending isPending ++ src := by
  induction src generalizing dest isPending with
  | nil => cases isPending <;> simp [escaped, finishUnescape, pending]
  | cons c src ih =>
    rw [escaped_cons]
    cases hc : delimiterCheck c with
    | true =>
      -- the inserted backslash pushes out one that is kept back
      have hslash : unescapeStep delimiterCheck (dest, isPending) backslash =
          (dest ++ pending isPending, true) := by
        cases isPending with
        | true => simp [unescapeStep, pending, hpending rfl]
        | false => simp [unescapeStep, pending]
      have hnext := ih (dest ++ pending isPending ++ [c]) false nofun
      rw [if_pos rfl, cons_append, foldl_cons, hslash, cons_append, foldl_cons, nil_append]
      have hchar : unescapeStep delimiterCheck (dest ++ pending isPending, true) c =
          (dest ++ pending isPending ++ [c], false) := by
        simp [unescapeStep, hc]
      rw [hchar, hnext]
      simp [pending]
    | false =>
      rw [if_neg Bool.false_ne_true, cons_append, foldl_cons, nil_append]
      by_cases hslash : c = backslash
      · subst hslash
        have hstep : unescapeStep delimiterCheck (dest, isPending) backslash =
            (dest ++ pending isPending, true) := by
          cases isPending <;> simp [unescapeStep, pending, hc]
        rw [hstep, ih _ true fun _ => hc]
        simp [pending]
      · have hstep : unescapeStep delimiterCheck (dest, isPending) c =
            (dest ++ pending isPending ++ [c], false) := by
          cases isPending <;> simp [unescapeStep, pending, hc, hslash]
        rw [hstep, ih _ false nofun]
        simp [pending]

/-- `BackslashUnescape` takes back what `BackslashEscape` does, for every set, and the functions for
a character are those for the set of that character. -/
theorem backslashUnescape_backslashEscape (src : List Byte) (delims : CharSet) :
    (∃ encoded, backslashEscape src delims [] = some encoded ∧
      backslashUnescape encoded delims [] = src) ∧
    ∀ delim dest, backslashEscapeChar src delim dest =
      backslashEscape src (CharSet.char delim) dest ∧ backslashUnescapeChar src delim dest =
        backslashUnescape src (CharSet.char delim) dest := by
  refine ⟨⟨_, backslashEscapeWith_eq src [], ?_⟩, fun delim dest => ⟨rfl, rfl⟩⟩
  exact unescape_escaped src [] false nofun

/-! ## Finding its end -/

/-- The position of the iterator that the search stops at. -/
def stopAt (result : Option Nat) (last : Nat) : Nat :=
  result.getD last

/-- The loop outside of a run or in a run where everything is paired, and in a run that ends in a
backslash without its character. If a backslash is no delimiter, the last one is the whole run. -/
theorem findIter_eq (delims : CharSet) (src : List Byte) : ∀ first slashPos, slashPos ≤ first →
      (∀ isEscaped, (isEscaped = true → delims.contains backslash = true ∧
        (first - slashPos) % 2 = 0) → findIter delims.contains src first isEscaped slashPos =
          stopAt (unescapedScan delims src first) (first + src.length)) ∧
      ((delims.contains backslash = true → (first - slashPos) % 2 = 1) → slashPos < first →
        findIter delims.contains src first true slashPos =
          stopAt (unescapedScan delims (backslash :: src) (first - 1)) (first + src.length)) := by
  induction src with
  | nil =>
    intro first slashPos hle
    refine ⟨fun isEscaped heven => ?_, fun hodd hlt => ?_⟩
    · cases isEscaped with
      | false => rfl
      | true => simp [findIter, unescapedScan, stopAt, (heven rfl).2]
    · cases hslash : delims.contains backslash with
      | true => simp [findIter, unescapedScan, stopAt, hslash, hodd hslash]
      | false => simp [findIter, unescapedScan, stopAt, hslash]
  | cons c src ih =>
    intro first slashPos hle
    have hlast : first + (c :: src).length = first + 1 + src.length := by
      rw [length_cons]
      omega
    rw [hlast]
    obtain ⟨hplain, hrun⟩ := ih (first + 1) slashPos (by omega)
    refine ⟨fun isEscaped heven => ?_, fun hodd hlt => ?_⟩
    · by_cases hc : c = backslash
      · subst hc
        cases isEscaped with
        | false =>
          -- a backslash starts a run at distance one
          simp only [findIter, Bool.false_eq_true, if_false, if_true]
          exact (ih (first + 1) first (by omega)).2 (fun _ => by omega) (lt_succ_self first)
        | true =>
          obtain ⟨hslash, heven⟩ := heven rfl
          simp only [findIter, hslash, if_true]
          exact hrun (fun _ => by omega) (by omega)
      have hstep : findIter delims.contains (c :: src) first isEscaped slashPos =
          if delims.contains c then first
          else findIter delims.contains src (first + 1) false slashPos := by
        cases isEscaped with
        | false => simp [findIter, hc]
        | true => simp [findIter, hc, heven rfl]
      rw [hstep, hplain false nofun]
      cases hdelim : delims.contains c <;> cases src <;> simp [unescapedScan, stopAt, hc, hdelim]
    · have hnext : first - 1 + 2 = first + 1 := by omega
      cases hslash : delims.contains backslash with
      | false =>
        rw [unescapedScan, if_pos rfl, hslash, Bool.false_and, if_neg Bool.false_ne_true, hnext,
          ← hplain false nofun]
        simp [findIter, hslash]
      | true =>
        have hparity := hodd hslash
        cases hdelim : delims.contains c with
        | true =>
          rw [unescapedScan, if_pos rfl, hdelim, Bool.not_true, Bool.and_false,
            if_neg Bool.false_ne_true, hnext, ← hplain true fun _ => ⟨hslash, by omega⟩]
          simp [findIter, hslash, hdelim, hparity]
        | false =>
          have hc : c ≠ backslash := by
            rintro rfl
            rw [hslash] at hdelim
            cases hdelim
          rw [unescapedScan]
          simp [findIter, stopAt, hslash, hdelim, hparity, hc]

/-- The search stops at a position of the string. -/
theorem unescapedScan_lt {delims : CharSet} {src : List Byte} {i j : Nat}
    (h : unescapedScan delims src i = some j) : j < i + src.length := by
  fun_induction unescapedScan delims src i with
  | case1 i => cases h
  | case2 c i hdelim =>
    cases h
    exact lt_succ_self _
  | case3 c i hdelim => cases h
  | case4 d rest i hstop =>
    cases h
    exact Nat.lt_add_of_pos_right (succ_pos _)
  | case5 d rest i hskip ih =>
    have hlt := ih h
    simp only [length_cons]
    omega
  | case6 c d rest i hc hdelim =>
    cases h
    exact Nat.lt_add_of_pos_right (succ_pos _)
  | case7 c d rest i hc hdelim ih =>
    have hlt := ih h
    simp only [length_cons] at hlt ⊢
    omega

/-- The search is a scan that skips escaped characters. -/
theorem backslashUnescapedFind_eq_scan (src : List Byte) (delims : CharSet) :
    backslashUnescapedFind src delims = unescapedScan delims src 0 := by
  have hfind := (findIter_eq delims src 0 0 (le_refl 0)).1 false nofun
  unfold backslashUnescapedFind backslashUnescapedFindWith
  rw [hfind, zero_add]
  cases hscan : unescapedScan delims src 0 with
  | none => exact if_pos rfl
  | some j =>
    have hlt := unescapedScan_lt hscan
    exact if_neg (by rw [stopAt, Option.getD_some]; omega)

/-- The search passes over an escaped string. -/
theorem unescapedScan_escaped {delims : CharSet} (hslash : delims.contains backslash = true)
    {d : Byte} (hd : delims.contains d = true) (hne : d ≠ backslash) (src suffix : List Byte)
    (i : Nat) : unescapedScan delims (escaped delims.contains src ++ d :: suffix) i =
      some (i + (escaped delims.contains src).length) := by
  induction src generalizing i with
  | nil => cases suffix <;> simp [escaped, unescapedScan, hd, hne]
  | cons c src ih =>
    rw [escaped_cons]
    cases hc : delims.contains c with
    | true =>
      rw [if_pos rfl]
      simp only [cons_append, nil_append, length_cons]
      rw [unescapedScan, if_pos rfl, hc, Bool.not_true, Bool.and_false, if_neg Bool.false_ne_true,
        ih]
      congr 1
      omega
    | false =>
      have hplain : c ≠ backslash := by
        rintro rfl
        rw [hslash] at hc
        cases hc
      have hscan : ∀ rest, rest ≠ [] → unescapedScan delims (c :: rest) i =
          unescapedScan delims rest (i + 1) := by
        intro rest hrest
        cases rest with
        | nil => exact absurd rfl hrest
        | cons e rest => simp [unescapedScan, hplain, hc]
      rw [if_neg Bool.false_ne_true]
      simp only [cons_append, nil_append, length_cons]
      rw [hscan _ (by simp), ih]
      congr 1
      omega

/-- The search is the one that reads two characters at a time, and it finds the delimiter after an
escaped string. -/
theorem backslashUnescapedFind_finds_end : (∀ (src : List Byte) (delims : CharSet),
      backslashUnescapedFind src delims = unescapedScan delims src 0) ∧
    ∀ (front suffix : List Byte) (delims : CharSet) (d : Byte),
      delims.contains backslash = true → delims.contains d = true → d ≠ backslash →
      ∃ encoded, backslashEscape front delims [] = some encoded ∧
        backslashUnescapedFind (encoded ++ d :: suffix) delims = some encoded.length := by
  refine ⟨backslashUnescapedFind_eq_scan, ?_⟩
  intro front suffix delims d hslash hd hne
  refine ⟨_, backslashEscapeWith_eq front [], ?_⟩
  rw [nil_append, backslashUnescapedFind_eq_scan, unescapedScan_escaped hslash hd hne, zero_add]

/-- The delimiters `:` and backslash, and the field `\:`. -/
theorem backslashUnescapedFind_finds_colon :
    ∃ encoded, backslashEscape [backslash, 0x3a#8] ⟨fun c => c = 0x3a#8 || c = backslash⟩ [] =
        some encoded ∧
      backslashUnescapedFind (encoded ++ 0x3a#8 :: [0x3a#8])
        ⟨fun c => c = 0x3a#8 || c = backslash⟩ = some encoded.length :=
  backslashUnescapedFind_finds_end.2 [backslash, 0x3a#8] [0x3a#8] _ 0x3a#8 rfl rfl
    (by decide)

end Gloop.Strings
