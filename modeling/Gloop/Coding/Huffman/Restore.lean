import Gloop.Coding.Huffman.RoundTrip
import Gloop.Hash.Jenkins
import Mathlib.Tactic.Positivity

/-!
# Huffman codes from untrusted data

`safeRestore` checks the number of symbols, the range of each length and a checksum, but not that
the lengths are those of a complete code. `cannot_stall_iff` says exactly when the decoder made from
an accepted code makes progress and decodes what was encoded.
-/

namespace Gloop.Coding.Huffman

open Gloop.Foundation Gloop.Coding.BitCoding Gloop.Hash List Option
open BitDecoder (make)

/-! ## `SafeRestore` -/

/-- `kMagicNumber`. -/
def kMagicNumber : BitVec 32 :=
  0x7af663fb#32

/-- The loop of `SafeRestore` over the lengths. The result is missing where the C++ function returns
null. -/
def restoreLengths : Nat → Decoder → Option (Option (List Nat) × Decoder)
  | 0, d => some (some [], d)
  | num + 1, d => do
    let (b, d) ← d.get8
    if b.toNat < 1 ∨ 27 < b.toNat then pure (none, d)
    else
      let (lengths, d) ← restoreLengths num d
      pure (lengths.map (b.toNat :: ·), d)

/-- `SafeRestore(buffer, size, length)`: the code and the number of bytes read, unless it returns
null. -/
def safeRestore (buffer : List Byte) : Option (Option (HuffmanCode × Nat)) := do
  let d : Decoder := ⟨buffer, 0⟩
  if d.avail < 12 then pure none
  else
    let (magic, d) ← d.get32
    if magic ≠ kMagicNumber then pure none
    else
      let (num, d) ← d.get32
      if num.toNat < 2 then pure none
      else if d.avail < num.toNat ∨ d.avail - num.toNat < 4 then pure none
      else
        let (lengths, d) ← restoreLengths num.toNat d
        match lengths with
        | none => pure none
        | some lengths =>
          let (checksum, d) ← d.get32
          if hashTo32 (buffer.take (8 + num.toNat)) ≠ checksum then pure none
          else pure (some (⟨lengths⟩, d.pos))

/-- The length bytes of a serialized code. -/
def lengthBytes (buffer : List Byte) : List Nat :=
  ((buffer.drop 8).take (ofBytes ((buffer.drop 4).take 4))).map BitVec.toNat

/-- The lengths that are restored are bytes of the buffer from 1 to 27. -/
theorem restoreLengths_spec {num : Nat} {d d' : Decoder} {lengths : List Nat}
    (h : restoreLengths num d = some (some lengths, d')) :
    lengths = ((d.buf.drop d.pos).take num).map BitVec.toNat ∧ lengths.length = num ∧
      ∀ l ∈ lengths, 1 ≤ l ∧ l ≤ 27 := by
  induction num generalizing d d' lengths with
  | zero =>
    cases h
    exact ⟨rfl, rfl, fun l hl => absurd hl not_mem_nil⟩
  | succ num ih =>
    by_cases hpos : d.pos < d.buf.length
    · have hget : d.get8 = some (d.buf[d.pos], ⟨d.buf, d.pos + 1⟩) := by
        rw [Decoder.get8, getElem?_eq_getElem]
        rfl
      simp only [restoreLengths, hget, bind_eq_bind, bind_some] at h
      split at h
      next => cases h
      next hrange =>
        obtain ⟨⟨result, d₁⟩, hrest, h⟩ := bind_eq_some_iff.mp h
        cases result with
        | none => cases h
        | some rest =>
          obtain ⟨hrest, hlength, hbounds⟩ := ih hrest
          cases h
          refine ⟨?_, by rw [length_cons, hlength], fun l hl => ?_⟩
          · rw [hrest, drop_eq_getElem_cons hpos, take_succ_cons, map_cons]
          · rcases mem_cons.mp hl with rfl | hmem
            · omega
            · exact hbounds l hmem
    · rw [restoreLengths, Decoder.get8, getElem?_eq_none (by omega)] at h
      cases h

/-- What is known of a code that was accepted. -/
theorem safeRestore_accepted {buffer : List Byte} {h : HuffmanCode} {consumed : Nat}
    (haccepted : safeRestore buffer = some (some (h, consumed))) :
    h.length = lengthBytes buffer ∧ 2 ≤ h.length.length ∧ ∀ l ∈ h.length, 1 ≤ l ∧ l ≤ 27 := by
  have hget32 : ∀ pos, pos + 4 ≤ buffer.length → Decoder.get32 ⟨buffer, pos⟩ =
      some (BitVec.ofNat 32 (ofBytes ((buffer.drop pos).take 4)), ⟨buffer, pos + 4⟩) :=
    fun pos hpos => if_pos (show 4 ≤ buffer.length - pos by omega)
  unfold safeRestore at haccepted
  simp only [bind_eq_bind] at haccepted
  split at haccepted
  next => cases haccepted
  rename_i hsize
  have hsize : 12 ≤ buffer.length := not_lt.mp hsize
  have hnum : ofBytes ((buffer.drop 4).take 4) < 2 ^ 32 := by
    have hlt := ofBytes_lt ((buffer.drop 4).take 4)
    rwa [length_take, length_drop, min_eq_left (by omega)] at hlt
  rw [hget32 0 (by omega), bind_some, hget32 4 (by omega), bind_some] at haccepted
  simp only [BitVec.toNat_ofNat, Nat.mod_eq_of_lt hnum] at haccepted
  split at haccepted
  next => cases haccepted
  split at haccepted
  next => cases haccepted
  split at haccepted
  next => cases haccepted
  obtain ⟨⟨result, d⟩, hlengths, haccepted⟩ := bind_eq_some_iff.mp haccepted
  cases result with
  | none => cases haccepted
  | some lengths =>
    obtain ⟨hvalue, hcount, hbounds⟩ := restoreLengths_spec hlengths
    obtain ⟨⟨checksum, d'⟩, -, haccepted⟩ := bind_eq_some_iff.mp haccepted
    split at haccepted
    next => cases haccepted
    cases haccepted
    exact ⟨hvalue, show 2 ≤ lengths.length by omega, hbounds⟩

/-! ## Progress -/

/-- The decoder made from the code consumes bits whenever it returns a symbol, in every state that
it reaches on any bytes, and returns the symbol whose code is next. -/
def CannotStall (h : HuffmanCode) (maxlen : Nat) : Prop :=
  ∃ encoder decoder, h.initializeEncoder = some encoder ∧
    TableDecoder.initializeFromEncoder maxlen encoder = some decoder ∧
    (∀ bytes count results d, decodeSymbols decoder count (make bytes) = some (results, d) →
      ∃ result d', decoder.getSymbol d = some (result, d') ∧
        (result = none ∨ d'.availBits < d.availBits)) ∧
    ∀ s < h.length.length, ∀ bytes, encoder.code s <+: bytesToBits bytes →
      ∃ d', decoder.getSymbol (make bytes) = some (some s, d')

section Progress

variable {len : Nat → Nat} {n maxlen : Nat} {p : Nat}

/-- Every entry of the table of a complete code is that of a symbol. -/
theorem Complete.exists_entry (h : Complete len n maxlen) (hp : p < 2 ^ maxlen) :
    ∃ s < n, decodingEntry len n maxlen p = decoderEntry len s := by
  have hmem : p ∈ (tableFills len n maxlen).map Prod.fst :=
    h.perm_range.mem_iff.mpr (mem_range.mpr hp)
  rw [map_fst_tableFills] at hmem
  obtain ⟨w, hw, hentry⟩ := mem_flatMap.mp hmem
  obtain ⟨s, hs, rfl⟩ := mem_map.mp hw
  have hs := mem_range.mp hs
  exact ⟨s, hs, h.decodingEntry_eq hs hentry⟩

/-- A complete table always finds a symbol or the end. -/
theorem Complete.getSymbol_progress (h : Complete len n maxlen) {d : BitDecoder}
    {stream : List Bool} (hd : Reads d stream) :
    ∃ result d' stream', (decoderTable len n maxlen).getSymbol d = some (result, d') ∧
      Reads d' stream' ∧ (result = none ∨ stream'.length < stream.length) := by
  obtain ⟨s, hs, hentry⟩ := h.exists_entry (peek_lt maxlen stream)
  have hlen := h.bounds s hs
  obtain ⟨d', hget, -, hreads⟩ :=
    getSymbol_spec hd h.small hentry (h.decoderEntry_parts hs).1 hlen.2
  by_cases henough : len s ≤ stream.length
  · rw [if_pos henough] at hget hreads
    refine ⟨_, d', _, hget, hreads, Or.inr ?_⟩
    rw [length_drop]
    omega
  · rw [if_neg henough] at hget hreads
    exact ⟨_, d', _, hget, hreads, Or.inl rfl⟩

/-- Whatever the bytes are, a run stays in a good state. -/
theorem Complete.decodeSymbols_reads (h : Complete len n maxlen) {count : Nat} {d d' : BitDecoder}
    {stream : List Bool} {results : List (Option Nat)} (hd : Reads d stream)
    (hrun : decodeSymbols (decoderTable len n maxlen) count d = some (results, d')) :
    ∃ stream', Reads d' stream' := by
  induction count generalizing d stream results with
  | zero =>
    cases hrun
    exact ⟨stream, hd⟩
  | succ count ih =>
    obtain ⟨result, d₁, stream₁, hget, hreads, -⟩ := h.getSymbol_progress hd
    simp only [decodeSymbols, hget, bind_eq_bind, bind_some] at hrun
    obtain ⟨⟨rest, d₂⟩, hrest, hrun⟩ := bind_eq_some_iff.mp hrun
    cases hrun
    exact ih hreads hrest

/-! ## Codes that are not complete -/

/-- An entry that no code begins makes the decoder return symbol 0 without consuming a bit. -/
theorem getSymbol_hole (hmaxlen : maxlen ≤ 24) (hp : p < 2 ^ maxlen)
    (hhole : p ∉ filled maxlen (codeWords len n)) :
    ∃ d', (decoderTable len n maxlen).getSymbol (make (toBytes p 3)) = some (some 0, d') ∧
      d'.availBits = (make (toBytes p 3)).availBits := by
  have hreads := reads_make (toBytes p 3)
  rw [← map_fst_tableFills] at hhole
  have hentry : decodingEntry len n maxlen (peek maxlen (bytesToBits (toBytes p 3))) = 0#32 := by
    rw [peek, bytesToBits_toBytes, toBits_split (by omega), take_left' (length_toBits _ _),
      ofBits_toBits hp]
    exact updateAll_of_notMem hhole
  obtain ⟨d', hget, -, hreads'⟩ :=
    getSymbol_spec hreads hmaxlen hentry (show (0#32 >>> lenShift).toNat = 0 from rfl) zero_le
  rw [if_pos zero_le] at hget hreads'
  refine ⟨d', hget, ?_⟩
  rw [hreads'.availBits, hreads.availBits, drop_zero]

end Progress

section Incomplete

variable {lengths : List Nat} {maxlen : Nat}

theorem map_length_codeWords (hbounds : ∀ l ∈ lengths, l ≤ 27) :
    (codeWords (lengthAt lengths) lengths.length).map CodeWord.length = lengths := by
  have hmap : (codeWords (lengthAt lengths) lengths.length).map CodeWord.length =
      tabulate lengths.length (lengthAt lengths) := by
    rw [codeWords, tabulate, List.map_map]
    exact List.map_congr_left fun s hs =>
      length_entryWord (hbounds _ (lengthAt_mem (List.mem_range.mp hs)))
  rw [hmap, tabulate_lengthAt]

section

variable (hnum : 2 ≤ lengths.length) (hbounds : ∀ l ∈ lengths, 1 ≤ l ∧ l ≤ 27)
  (hmaxlen : ∀ l ∈ lengths, l ≤ maxlen) (hsmall : maxlen ≤ 24)
include hnum hbounds hmaxlen hsmall

/-- The tables for the lengths of an accepted code. -/
theorem tables_eq : (HuffmanCode.mk lengths).initializeEncoder =
      some (encoderTable (lengthAt lengths) lengths.length) ∧
        TableDecoder.initializeFromEncoder maxlen (encoderTable (lengthAt lengths) lengths.length) =
        some (decoderTable (lengthAt lengths) lengths.length maxlen) := by
  refine ⟨initializeEncoder_eq hnum fun l hl => ?_,
    initializeFromEncoder_eq (by omega) hsmall fun s hs => hmaxlen _ (lengthAt_mem hs)⟩
  have := hbounds l hl
  omega

/-- A code with Kraft sum below 1 has a hole in its table. -/
theorem stalls_of_kraft_lt (hkraft : kraftCount maxlen lengths < 2 ^ maxlen) :
    ¬ CannotStall ⟨lengths⟩ maxlen := by
  rintro ⟨encoder, decoder, hencoder, hdecoder, hprogress, -⟩
  obtain ⟨hencoder', hdecoder'⟩ := tables_eq hnum hbounds hmaxlen hsmall
  cases hencoder.symm.trans hencoder'
  cases hdecoder.symm.trans hdecoder'
  rw [← map_length_codeWords fun l hl => (hbounds l hl).2] at hkraft
  obtain ⟨p, hp, hhole⟩ := exists_not_filled hkraft
  obtain ⟨d', hget, havail⟩ := getSymbol_hole hsmall hp hhole
  obtain ⟨result, d₁, hget₁, hstep⟩ := hprogress (toBytes p 3) 0 [] _ rfl
  cases hget.symm.trans hget₁
  rcases hstep with hnone | hless
  · cases hnone
  · omega

/-- A code with Kraft sum above 1 gives one table entry to two symbols. -/
theorem confuses_of_kraft_gt (hkraft : 2 ^ maxlen < kraftCount maxlen lengths) :
    ¬ CannotStall ⟨lengths⟩ maxlen := by
  rintro ⟨encoder, decoder, hencoder, hdecoder, -, hdecodes⟩
  obtain ⟨hencoder', hdecoder'⟩ := tables_eq hnum hbounds hmaxlen hsmall
  cases hencoder.symm.trans hencoder'
  cases hdecoder.symm.trans hdecoder'
  rw [← map_length_codeWords fun l hl => (hbounds l hl).2] at hkraft
  have hdepth : ∀ w ∈ codeWords (lengthAt lengths) lengths.length, w.length ≤ maxlen :=
    fun w hw => length_le_of_mem_codeWords hsmall (fun s hs => hmaxlen _ (lengthAt_mem hs)) hw
  obtain ⟨i, j, hi, hj, p, hij, hpi, hpj⟩ := exists_filled_twice hdepth hkraft
  -- Both codes begin the bytes of that entry, so the decoder would have to return both symbols.
  have hbegins : ∀ k (hk : k < (codeWords (lengthAt lengths) lengths.length).length),
      p ∈ (codeWords (lengthAt lengths) lengths.length)[k].entries maxlen → k < lengths.length ∧
        (encoderTable (lengthAt lengths) lengths.length).code k <+: bytesToBits (toBytes p 3) := by
    intro k hk hp
    have hkn : k < lengths.length := by simpa [codeWords] using hk
    refine ⟨hkn, ?_⟩
    rw [code_encoderTable hkn, ← getElem_codeWords, bytesToBits_toBytes, toBits_split (by omega)]
    exact ((CodeWord.mem_entries_iff (hdepth _ (getElem_mem hk)) p).mp hp).2.trans
      (prefix_append _ _)
  obtain ⟨hi, hbeginsi⟩ := hbegins i hi hpi
  obtain ⟨hj, hbeginsj⟩ := hbegins j hj hpj
  obtain ⟨di, hgeti⟩ := hdecodes i hi _ hbeginsi
  obtain ⟨dj, hgetj⟩ := hdecodes j hj _ hbeginsj
  cases hgeti.symm.trans hgetj
  omega

end

/-- `EnsureBits` does not allow tables of more than 24 bits. -/
theorem fails_of_maxlen_gt (h : HuffmanCode) (hlarge : 24 < maxlen) : ¬ CannotStall h maxlen := by
  rintro ⟨encoder, decoder, -, -, hprogress, -⟩
  obtain ⟨result, d', hget, -⟩ := hprogress (replicate 4 0) 0 [] _ rfl
  have havail : (make (replicate 4 0)).availBits = 32 := rfl
  have hensure : (make (replicate 4 0)).ensureBits (min maxlen 32) = none := by
    rw [BitDecoder.ensureBits, if_neg (by omega)]
  rw [TableDecoder.getSymbol, havail, hensure] at hget
  cases hget

end Incomplete

/-- Decoding with a code that was restored cannot stall just if its Kraft sum is one and the table
is at most 24 bits deep. -/
theorem cannot_stall_iff (buffer : List Byte) (h : HuffmanCode) (consumed : Nat)
    (haccepted : safeRestore buffer = some (some (h, consumed))) (maxlen : Nat)
    (hmaxlen : ∀ l ∈ h.length, l ≤ maxlen) : CannotStall h maxlen ↔
      ((lengthBytes buffer).map fun l => (1 / 2 ^ l : ℚ)).sum = 1 ∧ maxlen ≤ 24 := by
  obtain ⟨hlengths, hnum, hbounds⟩ := safeRestore_accepted haccepted
  obtain ⟨lengths⟩ := h
  rw [← hlengths]
  have hcount := kraftCount_eq hmaxlen
  constructor
  · intro hstall
    have hsmall : maxlen ≤ 24 := by
      by_contra hlarge
      exact fails_of_maxlen_gt _ (not_le.mp hlarge) hstall
    have hexact : kraftCount maxlen lengths = 2 ^ maxlen := by
      rcases lt_trichotomy (kraftCount maxlen lengths) (2 ^ maxlen) with hlt | heq | hgt
      · exact absurd hstall (stalls_of_kraft_lt hnum hbounds hmaxlen hsmall hlt)
      · exact heq
      · exact absurd hstall (confuses_of_kraft_gt hnum hbounds hmaxlen hsmall hgt)
    rw [hexact] at hcount
    push_cast at hcount
    exact ⟨(mul_eq_left₀ (by positivity)).mp hcount.symm, hsmall⟩
  · rintro ⟨hkraft, hsmall⟩
    have hcomplete := complete_of_kraft (fun l hl => (hbounds l hl).1) hmaxlen hsmall hkraft
    obtain ⟨hencoder, hdecoder⟩ := tables_eq hnum hbounds hmaxlen hsmall
    refine ⟨_, _, hencoder, hdecoder, ?_, ?_⟩
    · intro bytes count results d hrun
      obtain ⟨stream, hreads⟩ := hcomplete.decodeSymbols_reads (reads_make bytes) hrun
      obtain ⟨result, d', stream', hget, hreads', hstep⟩ := hcomplete.getSymbol_progress hreads
      refine ⟨result, d', hget, ?_⟩
      rwa [hreads.availBits, hreads'.availBits]
    · intro s hs bytes hbegins
      obtain ⟨rest, hrest⟩ := hbegins
      obtain ⟨d', hget, -⟩ := hcomplete.gets_getSymbol hs _ rest
        (hrest ▸ reads_make bytes)
      exact ⟨d', hget⟩

/-- A serialized code with two symbols of one bit. -/
def sampleBuffer : List Byte :=
  [0xfb, 0x63, 0xf6, 0x7a, 2, 0, 0, 0, 1, 1] ++ toBytes 3483050238 4

/-- A buffer with two codes of length one is accepted. -/
theorem safeRestore_sampleBuffer : safeRestore sampleBuffer = some (some (⟨[1, 1]⟩, 14)) := by
  have hhash : hashTo32 (sampleBuffer.take (8 + 2)) = 3483050238#32 := by
    rw [hashTo32, hash32StringWithSeed_short (by decide) (by decide)]
    decide
  have hchecksum : safeRestore sampleBuffer =
      if hashTo32 (sampleBuffer.take (8 + 2)) ≠ 3483050238#32 then some none
      else some (some (⟨[1, 1]⟩, 14)) := rfl
  rw [hchecksum, hhash]
  rfl

/-- Two codes of length one cannot stall. -/
theorem sampleBuffer_cannot_stall : CannotStall ⟨[1, 1]⟩ 1 := by
  refine (cannot_stall_iff sampleBuffer ⟨[1, 1]⟩ 14 safeRestore_sampleBuffer 1 (by simp)).mpr
    ⟨?_, by simp⟩
  have hlengths : lengthBytes sampleBuffer = [1, 1] := by decide
  rw [hlengths]
  norm_num

/-- A serialized code with two symbols of two bits: half of its table is empty. -/
def incompleteBuffer : List Byte :=
  [0xfb, 0x63, 0xf6, 0x7a, 2, 0, 0, 0, 2, 2] ++ toBytes 119112709 4

/-- Two codes of length two are accepted, and stall. -/
theorem incompleteBuffer_stalls :
    safeRestore incompleteBuffer = some (some (⟨[2, 2]⟩, 14)) ∧ ¬ CannotStall ⟨[2, 2]⟩ 2 := by
  refine ⟨?_, stalls_of_kraft_lt (by simp) (by simp) (by simp) (by simp) (by decide)⟩
  have hhash : hashTo32 (incompleteBuffer.take (8 + 2)) = 119112709#32 := by
    rw [hashTo32, hash32StringWithSeed_short (by decide) (by decide)]
    decide
  have hchecksum : safeRestore incompleteBuffer =
      if hashTo32 (incompleteBuffer.take (8 + 2)) ≠ 119112709#32 then some none
      else some (some (⟨[2, 2]⟩, 14)) := rfl
  rw [hchecksum, hhash]
  rfl

end Gloop.Coding.Huffman
