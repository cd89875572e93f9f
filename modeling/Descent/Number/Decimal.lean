import Descent.Number.Shortest

/-!
# Numbers as text

`text` writes a number with the fewest digits that read back as it, never with an exponent;
`ofText?` reads a decimal with an optional sign, point and exponent, or the name of an infinity or
of the value that is no number.

* `shortest_cellOfBits`: the digits that are written stand for the number, and none on a coarser
  grid do.
-/
namespace Descent.Number

/-! ## Writing -/

/-- `digits * 10 ^ exponent` in positional notation. -/
def place (digits : List Char) (exponent : Int) : List Char :=
  if 0 ≤ exponent then digits ++ List.replicate exponent.toNat '0'
  else
    let places := (-exponent).toNat
    if places < digits.length then
      digits.take (digits.length - places) ++ '.' :: digits.drop (digits.length - places)
    else '0' :: '.' :: (List.replicate (places - digits.length) '0' ++ digits)

/-- The cell of a finite number other than zero, from the fields of its bits. -/
def cellOfBits (bits : Nat) : Cell :=
  let fraction : Nat := bits % Nat.pow 2 52
  let exponent : Nat := bits / Nat.pow 2 52 % Nat.pow 2 11
  if exponent = 0 then .ofBinary fraction (-1074) false
  else .ofBinary (Nat.pow 2 52 + fraction) (exponent - 1075) (fraction = 0 ∧ 1 < exponent)

/-- The cell of a number is proper; `bits` are those without the sign. -/
theorem proper_cellOfBits {bits : Nat} (hpos : 0 < bits) (hbits : bits < Nat.pow 2 63) :
    (cellOfBits bits).Proper ∧ -1076 ≤ (cellOfBits bits).exponent := by
  unfold cellOfBits
  simp only [Nat.pow_eq] at hbits ⊢
  split
  · exact ⟨Cell.proper_ofBinary (by omega) _ _, by simp [Cell.ofBinary]⟩
  · exact ⟨Cell.proper_ofBinary (by omega) _ _, by simp only [Cell.ofBinary]; omega⟩

/-- The digits that are written for a number belong to its cell, and no decimal on a coarser grid
does. -/
theorem shortest_cellOfBits {bits : Nat} (hpos : 0 < bits) (hbits : bits < Nat.pow 2 63) :
    let c := cellOfBits bits
    c.covers c.shortest.2 c.shortest.1 = true ∧ ∀ k d, c.shortest.2 < k → c.covers k d = false := by
  obtain ⟨hc, hfine⟩ := proper_cellOfBits hpos hbits
  exact Cell.shortest_spec hc hfine

/-- The text of a number. Zero keeps its sign. -/
def text (x : Float) : String :=
  let bits := x.toBits.toNat
  let magnitude := bits % Nat.pow 2 63
  let sign := if bits / Nat.pow 2 63 = 1 then "-" else ""
  if x.isNaN then "NaN"
  else if x.isInf then sign ++ "inf"
  else if magnitude = 0 then sign ++ "0"
  else
    let (digits, exponent) := (cellOfBits magnitude).shortest
    sign ++ String.ofList (place (Nat.toDigits 10 digits) exponent)

/-! ## Reading -/

def valueOfDigits (cs : List Char) : Nat :=
  cs.foldl (fun n c => 10 * n + (c.toNat - '0'.toNat)) 0

/-- Reads an optional sign; `true` is a minus. -/
def readSign : List Char → Bool × List Char
  | '-' :: cs => (true, cs)
  | '+' :: cs => (false, cs)
  | cs => (false, cs)

/-- Reads the exponent at the end of a number, `0` where there is none. -/
def readExponent : List Char → Option Int
  | [] => some 0
  | c :: cs =>
    if c = 'e' ∨ c = 'E' then
      let (negative, digits) := readSign cs
      if digits.isEmpty || digits.any (!·.isDigit) then none
      else some (if negative then -(valueOfDigits digits : Int) else valueOfDigits digits)
    else none

/-- Reads an unsigned number as digits and the exponent of the last of them. -/
def readDecimal (cs : List Char) : Option (Nat × Int) :=
  let whole := cs.takeWhile Char.isDigit
  let (fraction, rest) := match cs.dropWhile Char.isDigit with
    | '.' :: cs => (cs.takeWhile Char.isDigit, cs.dropWhile Char.isDigit)
    | cs => ([], cs)
  if whole.isEmpty && fraction.isEmpty then none
  else (readExponent rest).map fun e => (valueOfDigits (whole ++ fraction), e - fraction.length)

/-- The number nearest to `digits * 10 ^ exponent`. Beyond the range of finite numbers the result
is settled by the magnitude alone. -/
def nearest (digits : Nat) (exponent : Int) : Float :=
  let magnitude := (Nat.toDigits 10 digits).length + exponent
  if digits = 0 ∨ magnitude < -400 then 0
  else if 400 < magnitude then 1 / 0
  else .ofScientific digits (exponent < 0) exponent.natAbs

/-- The unsigned number that a text writes. -/
def readMagnitude (cs : List Char) : Option Float :=
  let name := String.ofList (cs.map Char.toLower)
  if name = "inf" ∨ name = "infinity" then some (1 / 0)
  else if name = "nan" then some (0 / 0)
  else (readDecimal cs).map fun (digits, exponent) => nearest digits exponent

/-- The number that a text writes, if it writes one. -/
def ofText? (s : String) : Option Float :=
  let (negative, cs) := readSign s.toList
  (readMagnitude cs).map fun x => if negative then -x else x

end Descent.Number
