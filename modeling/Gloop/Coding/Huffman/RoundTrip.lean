import Gloop.Coding.BitCoding.Decode
import Gloop.Coding.Huffman.Encoder
import Mathlib.Tactic.NormNum

/-!
# Coding symbols with a complete Huffman code

`initializeFromEncoder_eq` says which entries the loops of the decoder assign. `getSymbol_spec` has
the result of `GetSymbol` for every table and every stream: it looks up the next bits of the stream,
with zeros after its end, and consumes as many bits as the entry says if the stream has them.
`huffman_round_trip` is for every vector of lengths with Kraft sum 1: the assigned codes are
prefix-free, every entry of the table is filled once, and decoding returns the symbols that were
encoded.
-/

namespace Gloop.Coding.Huffman

section

open Gloop.Foundation Gloop.Coding.BitCoding List BitVec Nat

/-! ## Filling the table -/

/-- The entry of the decoding table for a symbol. -/
def decoderEntry (len : Nat → Nat) (s : Nat) : BitVec 32 :=
  (BitVec.ofNat 32 (len s) <<< lenShift) ||| BitVec.ofNat 32 s

/-- The assignments that the loops of `InitializeFromEncoder` make. -/
def tableFills (len : Nat → Nat) (n maxlen : Nat) : List (Nat × BitVec 32) :=
  (List.range n).flatMap fun s =>
    ((entryWord (symbolEntry len n s)).entries maxlen).map fun p => (p, decoderEntry len s)

section Fills

variable {len : Nat → Nat} {n maxlen : Nat}

/-- The table of the encoder. -/
def encoderTable (len : Nat → Nat) (n : Nat) : TableEncoder :=
  ⟨n, tabulate n fun s => some (symbolEntry len n s)⟩

theorem entry_encoderTable (len : Nat → Nat) {s : Nat} (hs : s < n) :
    (encoderTable len n).entry s = some (symbolEntry len n s) := by
  rw [TableEncoder.entry, encoderTable, getElem?_tabulate hs]
  rfl

/-- A symbol fills the entries that start with its code. -/
theorem symbolFills_eq (hmaxlen : maxlen ≤ 24) {s : Nat} (hs : s < n) (hlen : len s ≤ maxlen) :
    symbolFills maxlen (encoderTable len n) s =
      some (((entryWord (symbolEntry len n s)).entries maxlen).map fun p =>
        (p, decoderEntry len s)) := by
  have hlength : (encoderTable len n).encodingLength s = some (len s) := by
    rw [TableEncoder.encodingLength, entry_encoderTable len hs]
    show some (tableEntry (len s) _ >>> 27).toNat = some (len s)
    rw [toNat_tableEntry_length (by omega)]
  have hencoding : (encoderTable len n).encoding s =
      some (symbolEntry len n s &&& 0x7FFFFFF#32) := by
    rw [TableEncoder.encoding, entry_encoderTable len hs]
    rfl
  have hvalue : (symbolEntry len n s &&& 0x7FFFFFF#32).toNat =
      (entryWord (symbolEntry len n s)).value := by
    rw [value_entryWord (by omega)]
    exact toNat_tableEntry_encoding (by omega) _
  have hlt := (entryWord (symbolEntry len n s)).value_lt
  simp only [symbolFills, hlength, hencoding, Option.bind_eq_bind, Option.bind_some, if_pos hlen,
    CodeWord.entries, map_map, length_entryWord (show len s ≤ 27 by omega), one_shiftLeft]
  rw [length_entryWord (by omega)] at hlt
  refine congrArg some (map_congr_left fun extra hextra => ?_)
  have hextra : extra < 2 ^ (maxlen - len s) := mem_range.mp hextra
  have hmul : extra * 2 ^ len s < 2 ^ 24 := by
    calc extra * 2 ^ len s < 2 ^ (maxlen - len s) * 2 ^ len s :=
          Nat.mul_lt_mul_of_pos_right hextra (Nat.two_pow_pos _)
      _ = 2 ^ maxlen := by rw [← pow_add, Nat.sub_add_cancel hlen]
      _ ≤ 2 ^ 24 := Nat.pow_le_pow_right (by omega) hmaxlen
  have hle : extra ≤ extra * 2 ^ len s := Nat.le_mul_of_pos_right _ (Nat.two_pow_pos _)
  have hpattern : ((BitVec.ofNat 32 extra <<< len s) |||
      (symbolEntry len n s &&& 0x7FFFFFF#32)).toNat = (entryWord (symbolEntry len n s)).value +
        2 ^ len s * extra := by
    rw [toNat_or, hvalue, toNat_shiftLeft, BitVec.toNat_ofNat, Nat.shiftLeft_eq,
      mod_eq_of_lt (show extra < 2 ^ 32 by omega), mod_eq_of_lt (by omega), mul_comm,
      ← two_pow_add_eq_or_of_lt hlt, add_comm]
  exact Prod.ext hpattern rfl

/-- The symbols fill the table one after the other. -/
theorem fills_eq (hn : n ≠ 0) (hmaxlen : maxlen ≤ 24) (hlen : ∀ s < n, len s ≤ maxlen) :
    fills maxlen (encoderTable len n) = some (tableFills len n maxlen) := by
  have hmap := mapM_eq_some fun s hs =>
    symbolFills_eq hmaxlen (mem_range.mp hs) (hlen s (mem_range.mp hs))
  have hnum : (encoderTable len n).num = n := rfl
  rw [fills, hnum, if_neg hn, hmap]
  rfl

/-- The entries that the loops assign are those that the codes begin. -/
theorem map_fst_tableFills :
    (tableFills len n maxlen).map Prod.fst = filled maxlen (codeWords len n) := by
  rw [tableFills, filled, codeWords, tabulate, map_flatMap, flatMap_map]
  congr 1
  funext s
  rw [map_map]
  exact map_id _

/-- No code word is longer than the table is deep. -/
theorem length_le_of_mem_codeWords (hmaxlen : maxlen ≤ 24) (hlen : ∀ s < n, len s ≤ maxlen)
    {w : CodeWord} (hw : w ∈ codeWords len n) : w.length ≤ maxlen := by
  obtain ⟨s, hs, rfl⟩ := mem_map.mp hw
  have hs := hlen s (mem_range.mp hs)
  rw [length_entryWord (by omega)]
  exact hs

/-- An entry of the decoding table. -/
def decodingEntry (len : Nat → Nat) (n maxlen : Nat) : Nat → BitVec 32 :=
  updateAll (fun _ => 0) (tableFills len n maxlen)

/-- The decoding table. -/
def decoderTable (len : Nat → Nat) (n maxlen : Nat) : TableDecoder maxlen :=
  ⟨tabulate (2 ^ maxlen) (decodingEntry len n maxlen)⟩

/-- The table for any vector of lengths. -/
theorem initializeFromEncoder_eq (hn : n ≠ 0) (hmaxlen : maxlen ≤ 24)
    (hlen : ∀ s < n, len s ≤ maxlen) :
      TableDecoder.initializeFromEncoder maxlen (encoderTable len n) =
        some (decoderTable len n maxlen) := by
  have hinside : ∀ a ∈ tableFills len n maxlen, a.1 < 2 ^ maxlen := by
    intro a ha
    have hmem : a.1 ∈ filled maxlen (codeWords len n) :=
      map_fst_tableFills ▸ mem_map_of_mem ha
    exact mem_range.mp
      (filled_subset (fun w hw => length_le_of_mem_codeWords hmaxlen hlen hw) hmem)
  rw [TableDecoder.initializeFromEncoder, fills_eq hn hmaxlen hlen, replicate_eq_tabulate]
  simp only [Option.bind_eq_bind, Option.bind_some, foldlM_assign hinside]
  rfl

end Fills

/-! ## `GetSymbol` -/

/-- The next bits of the stream as the index of an entry. -/
def peek (maxlen : Nat) (stream : List Bool) : Nat :=
  ofBits (stream.take maxlen)

theorem peek_lt (maxlen : Nat) (stream : List Bool) : peek maxlen stream < 2 ^ maxlen := by
  refine (ofBits_lt _).trans_le (Nat.pow_le_pow_right (by omega) ?_)
  rw [length_take]
  exact min_le_left _ _

/-- The index into the table shows the next bits of the stream. -/
theorem index_eq_peek {maxlen : Nat} {d : BitDecoder} {stream : List Bool} (h : Reads d stream)
    (hmaxlen : maxlen ≤ 24) (hnbuf : min maxlen stream.length ≤ d.nbuf) :
    (d.buf.setWidth 32 &&& BitVec.ofNat 32 (2 ^ maxlen - 1)).toNat = peek maxlen stream := by
  have hpow : 2 ^ maxlen ≤ 2 ^ 24 := Nat.pow_le_pow_right (by omega) hmaxlen
  have hpos := Nat.two_pow_pos maxlen
  have hindex : (d.buf.setWidth 32 &&& BitVec.ofNat 32 (2 ^ maxlen - 1)).toNat =
      d.buf.toNat % 2 ^ maxlen := by
    rw [toNat_and, toNat_setWidth, BitVec.toNat_ofNat,
      mod_eq_of_lt (show 2 ^ maxlen - 1 < 2 ^ 32 by omega), and_two_pow_sub_one_eq_mod,
        mod_mod_of_dvd _ (pow_dvd_pow 2 (by omega))]
  rw [hindex, peek]
  by_cases hfull : maxlen ≤ d.nbuf
  · have htake : stream.take maxlen = toBits (d.buf.toNat % 2 ^ maxlen) maxlen := by
      rw [toBits_mod (le_refl _), ← h.stream_eq, toBits_split hfull, List.append_assoc]
      exact take_left' (length_toBits _ _)
    rw [htake, ofBits_toBits (mod_lt _ hpos)]
  -- The whole rest of the stream is in the word buffer.
  have hlength := h.length
  have hstream : stream = toBits d.buf.toNat d.nbuf := by
    have hrest : bytesToBits (d.decoder.buf.drop d.decoder.pos) = [] := by
      rw [← length_eq_zero_iff, length_bytesToBits, length_drop]
      unfold Decoder.avail at hlength
      omega
    rw [← h.stream_eq, hrest, append_nil]
  have hclean := h.clean.trans_le (Nat.pow_le_pow_right (by omega) (show d.nbuf ≤ maxlen by omega))
  rw [take_of_length_le (by omega), hstream, ofBits_toBits h.clean, mod_eq_of_lt hclean]

/-- What `GetSymbol` returns, where the entry asks for no more than `maxlen` bits. -/
theorem getSymbol_spec {maxlen : Nat} {entry : Nat → BitVec 32} {d : BitDecoder}
    {stream : List Bool} (h : Reads d stream) (hmaxlen : maxlen ≤ 24) {v : BitVec 32} {nbits : Nat}
    (hentry : entry (peek maxlen stream) = v) (hv : (v >>> lenShift).toNat = nbits)
    (hnbits : nbits ≤ maxlen) :
    ∃ d', (TableDecoder.mk (tabulate (2 ^ maxlen) entry) : TableDecoder maxlen).getSymbol d =
        some (if nbits ≤ stream.length then
          some (v &&& BitVec.ofNat 32 (2 ^ lenShift - 1)).toNat else none, d') ∧
      d'.decoder.buf = d.decoder.buf ∧
      Reads d' (if nbits ≤ stream.length then stream.drop nbits else stream) := by
  have havail := h.availBits
  obtain ⟨d₁, hensure, hreads, hnbuf, hbuf⟩ := ensureBits_spec h
    (show min maxlen stream.length ≤ 24 by omega) (min_le_right _ _)
  have hread := getElem?_tabulate (peek_lt maxlen stream) entry
  have hindex := index_eq_peek hreads hmaxlen hnbuf
  simp only [TableDecoder.getSymbol, havail, hensure, hindex, hread, hentry, hv,
    Option.bind_eq_bind, Option.bind_some]
  by_cases henough : nbits ≤ stream.length
  · obtain ⟨d₂, hconsume, hreads₂, hbuf₂⟩ := consumeBits_spec hreads
      (show nbits ≤ d₁.nbuf by omega)
    refine ⟨d₂, ?_, hbuf₂.trans hbuf, ?_⟩
    · rw [if_pos henough, if_pos henough, hconsume]
      rfl
    · rwa [if_pos henough]
  · refine ⟨d₁, ?_, hbuf, ?_⟩
    · rw [if_neg henough, if_neg henough]
      rfl
    · rwa [if_neg henough]

end

/-! ## Complete codes -/

open Gloop.Foundation Gloop.Coding.BitCoding List BitVec

/-- The code of a symbol. -/
def TableEncoder.code (t : TableEncoder) (sym : Nat) : List Bool :=
  (t.entry sym).elim [] fun v => (entryWord v).bits

/-- Encode the symbols in order. -/
def encodeSymbols (t : TableEncoder) (syms : List Nat) (e : BitEncoder) : Option BitEncoder :=
  syms.foldlM t.putSymbol e

/-- Decode a number of symbols. -/
def decodeSymbols {maxlen : Nat} (t : TableDecoder maxlen) :
    Nat → BitDecoder → Option (List (Option Nat) × BitDecoder)
  | 0, d => some ([], d)
  | count + 1, d => do
    let (sym, d) ← t.getSymbol d
    let (syms, d) ← decodeSymbols t count d
    pure (sym :: syms, d)

variable {s : Nat}

section Symbols

variable {len : Nat → Nat} {n maxlen : Nat}

theorem code_encoderTable (hs : s < n) :
    (encoderTable len n).code s = (entryWord (symbolEntry len n s)).bits := by
  rw [TableEncoder.code, entry_encoderTable len hs]
  rfl

/-! ## Encoding -/

/-- `PutSymbol` puts the code of a symbol. -/
theorem puts_putSymbol (len : Nat → Nat) (hs : s < n) :
    Puts (fun e => (encoderTable len n).putSymbol e s) ((encoderTable len n).code s) := by
  have hentry := entry_encoderTable len hs
  have hlength : (symbolEntry len n s >>> 27).toNat ≤ 32 := by
    rw [toNat_ushiftRight]
    omega
  have hput := puts_putBits (symbolEntry len n s) hlength
  rw [code_encoderTable hs, CodeWord.bits, entryWord, toBits_mod (le_refl _)]
  simpa only [TableEncoder.putSymbol, hentry, Option.bind_eq_bind, Option.bind_some] using hput

/-- A run of the encoder puts the codes of the symbols. -/
theorem encodeSymbols_spec (len : Nat → Nat) {syms : List Nat} (hsyms : ∀ s ∈ syms, s < n)
    {e : BitEncoder}
    {stream : List Bool} (he : Written 0 e stream)
    (hroom : stream.length + (syms.flatMap (encoderTable len n).code).length ≤
      8 * e.encoder.capacity) :
    ∃ e', encodeSymbols (encoderTable len n) syms e = some e' ∧
      Written 0 e' (stream ++ syms.flatMap (encoderTable len n).code) ∧
      e'.encoder.capacity = e.encoder.capacity := by
  induction syms generalizing e stream with
  | nil => exact ⟨e, rfl, by simpa using he, rfl⟩
  | cons s syms ih =>
    rw [flatMap_cons, length_append] at hroom
    obtain ⟨e₁, hput, he₁, hcapacity₁⟩ :=
      puts_putSymbol len (hsyms s mem_cons_self) 0 e stream he (by omega)
    obtain ⟨e', hencode, he', hcapacity⟩ := ih (fun s h => hsyms s (mem_cons_of_mem _ h)) he₁
      (by rw [length_append]; omega)
    have hput : (encoderTable len n).putSymbol e s = some e₁ := hput
    refine ⟨e', ?_, ?_, hcapacity.trans hcapacity₁⟩
    · rw [encodeSymbols, foldlM_cons, hput]
      exact hencode
    · rwa [flatMap_cons, ← List.append_assoc]

/-! ## Decoding -/

/-- A code that begins the stream begins the index that is looked up. -/
theorem isPrefix_peek {w : CodeWord} (hw : w.length ≤ maxlen) {stream : List Bool}
    (h : w.bits <+: stream) : w.bits <+: toBits (peek maxlen stream) maxlen := by
  have htake : w.bits <+: stream.take maxlen := by
    rw [prefix_take_iff]
    exact ⟨h, by rwa [CodeWord.length_bits]⟩
  refine htake.trans ?_
  have hlength : (stream.take maxlen).length ≤ maxlen := by
    rw [length_take]
    exact min_le_left _ _
  have hsplit := toBits_add (peek maxlen stream) (stream.take maxlen).length
    (maxlen - (stream.take maxlen).length)
  rw [Nat.add_sub_cancel' hlength, peek, toBits_ofBits] at hsplit
  exact ⟨_, hsplit.symm⟩

/-- An entry of the decoder has a length and a symbol. -/
theorem toNat_decoderEntry (hlen : len s ≤ 27) (hs : s < 2 ^ 27) :
    (decoderEntry len s >>> lenShift).toNat = len s ∧
      (decoderEntry len s &&& BitVec.ofNat 32 (2 ^ lenShift - 1)).toNat = s := by
  have hvalue : (decoderEntry len s).toNat = 2 ^ 27 * len s + s := by
    simp (disch := omega) only [decoderEntry, lenShift, toNat_or, toNat_shiftLeft,
      BitVec.toNat_ofNat, Nat.shiftLeft_eq, Nat.mod_eq_of_lt]
    rw [mul_comm, Nat.two_pow_add_eq_or_of_lt hs]
  constructor
  · rw [toNat_ushiftRight, lenShift]
    omega
  · rw [toNat_and, lenShift, show (BitVec.ofNat 32 (2 ^ 27 - 1)).toNat = 2 ^ 27 - 1 from rfl,
      Nat.and_two_pow_sub_one_eq_mod]
    omega

/-- The lengths are those of a complete code. -/
structure Complete (len : Nat → Nat) (n maxlen : Nat) : Prop where
  bounds : ∀ s < n, 1 ≤ len s ∧ len s ≤ maxlen
  small : maxlen ≤ 24
  kraft : kraftCount maxlen (tabulate n len) = 2 ^ maxlen

namespace Complete

section

variable (h : Complete len n maxlen)
include h

/-- No code word is the start of another one. -/
theorem prefixFree : PrefixFree (codeWords len n) := by
  have hsmall := h.small
  exact prefixFree_codeWords h.bounds (by omega) h.kraft.le

/-- The code words have the lengths of the symbols. -/
theorem map_length : (codeWords len n).map CodeWord.length = tabulate n len := by
  have hsmall := h.small
  rw [codeWords, tabulate, map_map]
  refine map_congr_left fun s hs => ?_
  have hle := (h.bounds s (mem_range.mp hs)).2
  exact length_entryWord (by omega)

/-- Every entry of the table is assigned once. -/
theorem perm_range : ((tableFills len n maxlen).map Prod.fst).Perm (range (2 ^ maxlen)) := by
  rw [map_fst_tableFills]
  refine perm_range_of_kraft (fun w hw => ?_) h.prefixFree ?_
  · exact length_le_of_mem_codeWords h.small (fun s hs => (h.bounds s hs).2) hw
  rw [h.map_length, h.kraft]

/-- There are no more symbols than entries. -/
theorem num_le : n ≤ 2 ^ maxlen := by
  rw [← h.kraft]
  calc n = (tabulate n len).length := (length_tabulate n len).symm
    _ = ((tabulate n len).map fun l => 2 ^ (maxlen - l)).length := (length_map _).symm
    _ ≤ ((tabulate n len).map fun l => 2 ^ (maxlen - l)).sum := by
      refine length_le_sum_of_one_le _ fun x hx => ?_
      obtain ⟨l, -, rfl⟩ := mem_map.mp hx
      exact Nat.two_pow_pos _

/-- The number of bits and the symbol in the entry of a symbol. -/
theorem decoderEntry_parts (hs : s < n) : (decoderEntry len s >>> lenShift).toNat = len s ∧
      (decoderEntry len s &&& BitVec.ofNat 32 (2 ^ lenShift - 1)).toNat = s := by
  have hsmall := h.small
  have hle := (h.bounds s hs).2
  have hnum := h.num_le
  have hpow : 2 ^ maxlen ≤ 2 ^ 24 := Nat.pow_le_pow_right (by omega) hsmall
  exact toNat_decoderEntry (by omega) (by omega)

/-- An entry that the code of a symbol begins is that of the symbol. -/
theorem decodingEntry_eq {p : Nat} (hs : s < n)
    (hp : p ∈ (entryWord (symbolEntry len n s)).entries maxlen) :
      decodingEntry len n maxlen p = decoderEntry len s := by
  have hfill : (p, decoderEntry len s) ∈ tableFills len n maxlen :=
    mem_flatMap.mpr ⟨s, mem_range.mpr hs, mem_map_of_mem hp⟩
  exact updateAll_of_mem (h.perm_range.nodup_iff.mpr nodup_range) hfill

/-- `GetSymbol` reads the code of a symbol. -/
theorem gets_getSymbol (hs : s < n) :
    Gets (decoderTable len n maxlen).getSymbol ((encoderTable len n).code s) s := by
  intro d rest hreads
  have hsmall := h.small
  have hlen := h.bounds s hs
  rw [code_encoderTable hs] at hreads
  generalize hstream : (entryWord (symbolEntry len n s)).bits ++ rest = stream at hreads
  have hbegins : (entryWord (symbolEntry len n s)).bits <+: stream := ⟨rest, hstream⟩
  have hlength : (entryWord (symbolEntry len n s)).length = len s := length_entryWord (by omega)
  have hentry := h.decodingEntry_eq hs ((CodeWord.mem_entries_iff (by omega) _).mpr
    ⟨peek_lt maxlen stream, isPrefix_peek (by omega) hbegins⟩)
  obtain ⟨hnbits, hsym⟩ := h.decoderEntry_parts hs
  have henough : len s ≤ stream.length := by
    have hle := hbegins.length_le
    rwa [CodeWord.length_bits, hlength] at hle
  obtain ⟨d', hget, hbuf, hreads'⟩ := getSymbol_spec hreads hsmall hentry hnbits hlen.2
  rw [hsym, if_pos henough] at hget
  rw [if_pos henough, ← hstream, drop_left' (by rw [CodeWord.length_bits, hlength])] at hreads'
  exact ⟨d', hget, hreads', hbuf⟩

/-- A run of the decoder reads the symbols back. -/
theorem decodeSymbols_spec {syms : List Nat} (hsyms : ∀ s ∈ syms, s < n) {d : BitDecoder}
    {rest : List Bool} (hd : Reads d (syms.flatMap (encoderTable len n).code ++ rest)) :
    ∃ d', decodeSymbols (decoderTable len n maxlen) syms.length d = some (syms.map some, d') := by
  induction syms generalizing d with
  | nil => exact ⟨d, rfl⟩
  | cons s syms ih =>
    rw [flatMap_cons, List.append_assoc] at hd
    obtain ⟨d₁, hget, hd₁, -⟩ := h.gets_getSymbol (hsyms s mem_cons_self) d _ hd
    obtain ⟨d', hdecode⟩ := ih (fun s h => hsyms s (mem_cons_of_mem _ h)) hd₁
    refine ⟨d', ?_⟩
    rw [length_cons, decodeSymbols, hget]
    simp only [Option.bind_eq_bind, Option.bind_some, hdecode]
    rfl

end

end Complete

end Symbols

/-! ## Codes from vectors of lengths -/

/-- The length of each symbol's code. -/
def lengthAt (lengths : List Nat) (s : Nat) : Nat :=
  lengths[s]?.getD 0

theorem tabulate_lengthAt (lengths : List Nat) :
    tabulate lengths.length (lengthAt lengths) = lengths :=
  (eq_tabulate lengths 0).symm

variable {lengths : List Nat}

theorem lengthAt_mem (hs : s < lengths.length) : lengthAt lengths s ∈ lengths := by
  rw [lengthAt, List.getElem?_eq_getElem]
  exact getElem_mem hs

/-- The encoder of a code with legal lengths. -/
theorem initializeEncoder_eq (hnum : 2 ≤ lengths.length)
    (hlengths : ∀ l ∈ lengths, 1 ≤ l ∧ l < 32) : (HuffmanCode.mk lengths).initializeEncoder =
      some (encoderTable (lengthAt lengths) lengths.length) := by
  have hencoder := initializeEncoder_tabulate (by omega)
    fun s hs => hlengths _ (lengthAt_mem hs)
  rwa [tabulate_lengthAt] at hencoder

/-- A Kraft sum of 1 makes the code complete. -/
theorem complete_of_kraft (hpos : ∀ l ∈ lengths, 1 ≤ l) {maxlen : Nat}
    (hmaxlen : ∀ l ∈ lengths, l ≤ maxlen) (hsmall : maxlen ≤ 24)
    (hkraft : (lengths.map fun l => (1 / 2 ^ l : ℚ)).sum = 1) :
    Complete (lengthAt lengths) lengths.length maxlen := by
  refine ⟨fun s hs => ⟨hpos _ (lengthAt_mem hs), hmaxlen _ (lengthAt_mem hs)⟩, hsmall, ?_⟩
  have hcount := kraftCount_eq hmaxlen
  rw [hkraft, mul_one] at hcount
  rw [tabulate_lengthAt]
  exact_mod_cast hcount

/-- A code with a Kraft sum of one builds an encoder whose codes are no prefixes of each other, and
a decoder that fills each entry of its table once. Every sequence of symbols that is encoded is
decoded again. -/
theorem huffman_round_trip (lengths : List Nat) (hnum : 2 ≤ lengths.length)
    (hlengths : ∀ l ∈ lengths, 1 ≤ l ∧ l ≤ 24)
    (hkraft : (lengths.map fun l => (1 / 2 ^ l : ℚ)).sum = 1) (maxlen : Nat)
    (hmaxlen : ∀ l ∈ lengths, l ≤ maxlen) (hsmall : maxlen ≤ 24) :
    ∃ encoder decoder assignments, (HuffmanCode.mk lengths).initializeEncoder = some encoder ∧
      TableDecoder.initializeFromEncoder maxlen encoder = some decoder ∧
      (∀ i < lengths.length, ∀ j < lengths.length, i ≠ j → ¬ encoder.code i <+: encoder.code j) ∧
      fills maxlen encoder = some assignments ∧
      (assignments.map Prod.fst).Perm (List.range (2 ^ maxlen)) ∧ ∀ (syms : List Nat) (pad : Bool)
        (size : Nat), (∀ s ∈ syms, s < lengths.length) →
          ((syms.flatMap encoder.code).length + 7) / 8 ≤ size →
        ∃ e flushed d, encodeSymbols encoder syms (BitEncoder.make size) = some e ∧
          e.flush pad = some flushed ∧
          decodeSymbols decoder syms.length (BitDecoder.make flushed.encoder.bytes) =
            some (syms.map some, d) := by
  have hcomplete := complete_of_kraft (fun l hl => (hlengths l hl).1) hmaxlen hsmall hkraft
  have hlen : ∀ s < lengths.length, lengthAt lengths s ≤ maxlen :=
    fun s hs => (hcomplete.bounds s hs).2
  refine ⟨encoderTable (lengthAt lengths) lengths.length,
    decoderTable (lengthAt lengths) lengths.length maxlen,
    tableFills (lengthAt lengths) lengths.length maxlen, ?_, ?_, ?_, ?_, hcomplete.perm_range, ?_⟩
  · refine initializeEncoder_eq hnum fun l hl => ?_
    have := hlengths l hl
    omega
  · exact initializeFromEncoder_eq (by omega) hsmall hlen
  · intro i hi j hj hne hbegins
    rw [code_encoderTable hi, code_encoderTable hj] at hbegins
    refine hne (eq_of_isPrefix hcomplete.bounds (by omega) ?_ hi hj hbegins)
    exact hcomplete.kraft.le
  · exact fills_eq (by omega) hsmall hlen
  · intro syms pad size hsyms hroom
    obtain ⟨e, hencode, he, hcapacity⟩ := encodeSymbols_spec (lengthAt lengths) hsyms
      (written_make size) (by
        show 0 + _ ≤ 8 * size
        omega)
    obtain ⟨flushed, padding, hflush, hbytes⟩ := flush_spec he pad (by rw [hcapacity]; exact hroom)
    obtain ⟨d, hdecode⟩ := hcomplete.decodeSymbols_spec hsyms
      (hbytes ▸ (reads_make flushed.encoder.bytes))
    exact ⟨e, flushed, d, hencode, hflush, hdecode⟩

/-- The code with lengths 2, 1, 3 and 3, in a table for codes of up to five bits. -/
theorem sampleCode_round_trip : ∃ encoder decoder assignments,
      (HuffmanCode.mk [2, 1, 3, 3]).initializeEncoder = some encoder ∧
      TableDecoder.initializeFromEncoder 5 encoder = some decoder ∧
      (∀ i < 4, ∀ j < 4, i ≠ j → ¬ encoder.code i <+: encoder.code j) ∧
      fills 5 encoder = some assignments ∧ (assignments.map Prod.fst).Perm (List.range (2 ^ 5)) ∧
      ∀ (syms : List Nat) (pad : Bool) (size : Nat), (∀ s ∈ syms, s < 4) →
        ((syms.flatMap encoder.code).length + 7) / 8 ≤ size →
        ∃ e flushed d, encodeSymbols encoder syms (BitEncoder.make size) = some e ∧
          e.flush pad = some flushed ∧
          decodeSymbols decoder syms.length (BitDecoder.make flushed.encoder.bytes) =
            some (syms.map some, d) :=
  huffman_round_trip [2, 1, 3, 3] (by simp) (by simp) (by norm_num) 5 (by simp) (by simp)

end Gloop.Coding.Huffman
