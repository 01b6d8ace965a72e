import Gloop.Foundation.Digits
import Gloop.Foundation.Iterate

/-!
# Hosts and ports of `strings/host_port.cc`

A host with a colon in it is put into brackets before a port is appended. The parser looks for the
last closing bracket, and without brackets for a single colon. A parser that returns false is
`none`.
-/

namespace Gloop.Strings

open Gloop.Foundation List

/-- `'['`. -/
def openBracket : Byte := 0x5b#8

/-- `']'`. -/
def closeBracket : Byte := 0x5d#8

/-- `':'`. -/
def colon : Byte := 0x3a#8

/-- `NeedsBrackets(host)`. -/
def needsBrackets (host : List Byte) : Bool :=
  host ≠ [] ∧ host.head? ≠ some openBracket ∧ colon ∈ host

/-- `HostOnlyString(host)`. -/
def hostOnlyString (host : List Byte) : List Byte :=
  if needsBrackets host then [openBracket] ++ host ++ [closeBracket] else host

/-- `HostPortString(host, port)`. -/
def hostPortString (host : List Byte) (port : BitVec 16) : List Byte :=
  if needsBrackets host then [openBracket] ++ host ++ [closeBracket, colon] ++ decimal port.toNat
  else host ++ [colon] ++ decimal port.toNat

/-- `rfind(c)`. -/
def rfind (c : Byte) : List Byte → Option Nat
  | [] => none
  | a :: s => ((rfind c s).map (· + 1)).or (if a = c then some 0 else none)

/-- What follows the closing bracket is nothing or a port. -/
def portAfterBracket (full : List Byte) (rbracket : Nat) : Option (List Byte) :=
  if rbracket + 1 < full.length then do
    guard (full[rbracket + 1]? = some colon)
    let portPiece := full.drop (rbracket + 2)
    guard (portPiece ≠ [])
    pure portPiece
  else some []

/-- The first part of `ParseHostOptionalPort`, with `host_piece` and `port_piece`. -/
def splitHostPort (full : List Byte) : Option (List Byte × List Byte) :=
  if full.head? = some openBracket then do
    let rbracket ← rfind closeBracket full
    let portPiece ← portAfterBracket full rbracket
    let hostPiece := (full.drop 1).take (rbracket - 1)
    guard (colon ∈ hostPiece)
    pure (hostPiece, portPiece)
  else if full.idxOf colon < full.length ∧ colon ∉ full.drop (full.idxOf colon + 1) then do
    let portPiece := full.drop (full.idxOf colon + 1)
    guard (portPiece ≠ [])
    pure (full.take (full.idxOf colon), portPiece)
  else some (full, [])

/-- A round of the loop over the digits of the port. -/
def portDigit (port32 : Nat) (c : Byte) : Option Nat := do
  guard (isDigit c)
  let port32 := 10 * port32 + (c.toNat - 0x30)
  guard (port32 ≤ 65535)
  pure port32

/-- The second part of `ParseHostOptionalPort`. -/
def parsePort (portPiece : List Byte) (defaultPort : Int) : Option Nat :=
  if portPiece = [] then do
    guard (0 ≤ defaultPort ∧ defaultPort ≤ 65535)
    pure defaultPort.toNat
  else portPiece.foldlM portDigit 0

/-- `ParseHostOptionalPort(full, default_port, host, port)`. -/
def parseHostOptionalPort (full : List Byte) (defaultPort : Int) :
    Option (List Byte × BitVec 16) := do
  let (hostPiece, portPiece) ← splitHostPort full
  let port32 ← parsePort portPiece defaultPort
  pure (hostPiece, BitVec.ofNat 16 port32)

/-! ## Printed hosts are read back -/

/-- The last occurrence of a character. -/
theorem rfind_append {c : Byte} {back : List Byte} (hback : c ∉ back) (front : List Byte) :
    rfind c (front ++ c :: back) = some front.length := by
  have hnone : rfind c back = none := by
    induction back with
    | nil => rfl
    | cons b back ih =>
      rw [mem_cons, not_or] at hback
      rw [rfind, ih hback.2, if_neg (Ne.symm hback.1)]
      rfl
  induction front with
  | nil => simp [rfind, hnone]
  | cons a front ih => simp [rfind, ih]

/-- A port is read back from its decimal number. -/
theorem parsePort_decimal (port : BitVec 16) (defaultPort : Int) :
    parsePort (decimal port.toNat) defaultPort = some port.toNat := by
  have hlt := port.isLt
  rw [parsePort, if_neg (decimal_ne_nil _)]
  refine foldlM_decimal 65535 (fun v d hd hbound => ?_) _ (by omega)
  rw [portDigit, Option.bind_eq_bind, guard_bind (isDigit_digitChar hd), toNat_digitChar hd,
    Nat.add_sub_cancel_left, guard_bind hbound]
  rfl

/-- A decimal number has digits only. -/
theorem not_mem_decimal {c : Byte} (hc : isDigit c = false) (n : Nat) : c ∉ decimal n := by
  intro hmem
  rw [isDigit_of_mem_decimal n c hmem] at hc
  cases hc

variable {host : List Byte}

/-- A host with colons is split off at its bracket. -/
theorem splitHostPort_bracketed (hcolon : colon ∈ host) (rest portPiece : List Byte)
    (hrest : closeBracket ∉ rest)
    (hport : portAfterBracket ([openBracket] ++ host ++ closeBracket :: rest) (host.length + 1) =
      some portPiece) :
    splitHostPort ([openBracket] ++ host ++ closeBracket :: rest) = some (host, portPiece) := by
  have hfind := rfind_append hrest ([openBracket] ++ host)
  rw [length_append, length_singleton, Nat.add_comm] at hfind
  rw [splitHostPort, if_pos (by simp), hfind, Option.bind_eq_bind, Option.bind_some, hport,
    Option.bind_eq_bind, Option.bind_some]
  simp [hcolon]

/-- A host without colons is split off at the colon. -/
theorem splitHostPort_colon (hhost : host.head? ≠ some openBracket) (hcolon : colon ∉ host)
    {portPiece : List Byte} (hpiece : colon ∉ portPiece) (hne : portPiece ≠ []) :
    splitHostPort (host ++ [colon] ++ portPiece) = some (host, portPiece) := by
  have hidx : (host ++ [colon] ++ portPiece).idxOf colon = host.length := by
    rw [append_assoc, idxOf_append_of_notMem hcolon]
    simp
  have hhead : (host ++ [colon] ++ portPiece).head? ≠ some openBracket := by
    cases host with
    | nil => exact fun h => absurd (Option.some.inj h) (by decide)
    | cons a host => exact hhost
  rw [splitHostPort, if_neg hhead, hidx]
  simp [hpiece, hne]

/-- A port that can be parsed is returned. -/
theorem parseHostOptionalPort_eq {full portPiece : List Byte} {defaultPort : Int} {port : BitVec 16}
    (hsplit : splitHostPort full = some (host, portPiece))
    (hport : parsePort portPiece defaultPort = some port.toNat) :
    parseHostOptionalPort full defaultPort = some (host, port) := by
  simp [parseHostOptionalPort, hsplit, hport]

/-- A host that does not start with a bracket and a port are read back from their string, and a host
alone gets the default port. -/
theorem parseHostOptionalPort_hostPortString (host : List Byte)
    (hhost : host.head? ≠ some openBracket) (port : BitVec 16) :
    (∀ defaultPort : Int, parseHostOptionalPort (hostPortString host port) defaultPort =
      some (host, port)) ∧ parseHostOptionalPort (hostOnlyString host) port.toNat =
        some (host, port) := by
  have hlt := port.isLt
  have hdefault : parsePort [] port.toNat = some port.toNat := by
    rw [parsePort, if_pos rfl, Option.bind_eq_bind, guard_bind (by omega)]
    rfl
  by_cases hcolon : colon ∈ host
  · have hbrackets : needsBrackets host = true :=
      decide_eq_true ⟨ne_nil_of_mem hcolon, hhost, hcolon⟩
    rw [hostOnlyString, if_pos hbrackets]
    refine ⟨fun defaultPort => ?_, parseHostOptionalPort_eq ?_ hdefault⟩
    · have hsplit := splitHostPort_bracketed hcolon (colon :: decimal port.toNat)
        (decimal port.toNat)
        (by simpa [show closeBracket ≠ colon by decide] using not_mem_decimal (by decide) _)
        (by simp [portAfterBracket, decimal_ne_nil])
      rw [hostPortString, if_pos hbrackets, append_assoc]
      exact parseHostOptionalPort_eq hsplit (parsePort_decimal port defaultPort)
    · exact splitHostPort_bracketed hcolon [] [] (by simp) (by simp [portAfterBracket])
  · have hbrackets : ¬ needsBrackets host = true := fun h => hcolon (of_decide_eq_true h).2.2
    rw [hostOnlyString, if_neg hbrackets]
    refine ⟨fun defaultPort => ?_, parseHostOptionalPort_eq ?_ hdefault⟩
    · rw [hostPortString, if_neg hbrackets]
      exact parseHostOptionalPort_eq (splitHostPort_colon hhost hcolon
        (not_mem_decimal (by decide) _)
        (decimal_ne_nil _)) (parsePort_decimal port defaultPort)
    · rw [splitHostPort, if_neg hhost, if_neg (fun h => hcolon (idxOf_lt_length_iff.mp h.1))]

/-- The host `::1`. -/
theorem parseHostOptionalPort_hostPortString_loopback :
    parseHostOptionalPort (hostPortString [colon, colon, 0x31#8] 80#16) (-1) =
      some ([colon, colon, 0x31#8], 80#16) :=
  (parseHostOptionalPort_hostPortString [colon, colon, 0x31#8] (by decide) 80#16).1 (-1)

end Gloop.Strings
