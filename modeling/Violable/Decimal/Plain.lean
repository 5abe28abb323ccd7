import Violable.Decimal.Shortest

/-!
# Plain notation

A number is written with the fewest digits that read back as the same number, all of them in
their places: there is no exponent, a whole number has no point, and zero keeps its sign.
-/

namespace Violable.Decimal

/-- The digits of a numeral in their places. -/
def Numeral.plain (d : Numeral) : String :=
  let digits := Nat.toDigits 10 d.coefficient
  if 0 ≤ d.power then
    String.ofList (digits ++ List.replicate d.power.toNat '0')
  else
    let places := (-d.power).toNat
    let padded := List.replicate (places + 1 - digits.length) '0' ++ digits
    let (whole, rest) := padded.splitAt (padded.length - places)
    let rest := (rest.reverse.dropWhile (· == '0')).reverse
    String.ofList (if rest.isEmpty then whole else whole ++ '.' :: rest)

/-- A number of the format with 53 binary digits. -/
def plain (x : Float) : String :=
  let bits := x.toBits.toNat
  let sign := if bits / Nat.pow 2 63 == 1 then "-" else ""
  let exponent : Nat := bits / Nat.pow 2 52 % 2048
  let fraction : Nat := bits % Nat.pow 2 52
  if exponent == 2047 then
    if fraction == 0 then sign ++ "inf" else "NaN"
  else if exponent == 0 then
    if fraction == 0 then sign ++ "0"
    else sign ++ (Rounded.ofBinary fraction (-1074) false).shortest.plain
  else
    let foot := fraction == 0 && 1 < exponent
    let m := Nat.pow 2 52 + fraction
    sign ++ (Rounded.ofBinary m ((exponent : Int) - 1075) foot).shortest.plain

end Violable.Decimal
