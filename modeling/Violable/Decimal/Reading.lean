/-!
# Numbers from digits

A row of digits with a power of ten is read as the nearest number of the floating-point format. A
number beyond the greatest of the format is read as infinity.
-/

namespace Violable.Decimal

/-- The value of a digit in bases up to 16. -/
def digitValue (c : Char) : Nat :=
  if c.isDigit then c.toNat - '0'.toNat
  else if 'a' ≤ c ∧ c ≤ 'f' then c.toNat - 'a'.toNat + 10
  else c.toNat - 'A'.toNat + 10

/-- The number that digits denote in a base. -/
def ofDigits (base : Nat) (digits : List Char) : Nat :=
  digits.foldl (fun n c => base * n + digitValue c) 0

/-- The number nearest to `coefficient * 10 ^ power`. Where the power alone shows that the number
is out of range, the power is not computed. -/
def nearest (coefficient : Nat) (power : Int) : Float :=
  if coefficient = 0 then 0
  else if 400 < power then 1 / 0
  else if power < -400 - (Nat.toDigits 10 coefficient).length then 0
  else if 0 ≤ power then Float.ofScientific coefficient false power.toNat
  else Float.ofScientific coefficient true (-power).toNat

/-- The number with the given digits before and after the point and with a power of ten. -/
def ofParts (whole fraction : List Char) (power : Int) : Float :=
  nearest (ofDigits 10 (whole ++ fraction)) (power - fraction.length)

end Violable.Decimal
