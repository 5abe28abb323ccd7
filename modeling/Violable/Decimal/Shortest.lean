/-!
# The shortest decimal of a binary number

A floating-point format rounds every real number to one that it can hold, so a number of the
format may be written by any decimal that is rounded to it. The shortest such decimal has the
fewest digits, and among those with as many digits it is the nearest to the number itself.

Numbers are of the form `m * 2 ^ q` with a significand `m` and a power `q`. All comparisons are
made on whole numbers: number and rounding interval are brought to a common power of ten.
-/

namespace Violable.Decimal

/-- A whole number of tens to some power: `coefficient * 10 ^ power`. -/
structure Numeral where
  coefficient : Nat
  power : Int
  deriving DecidableEq

/-- A number of a binary format, in units of `10 ^ power`, with the interval that is rounded to
it. The ends belong to the interval if `closed`. -/
structure Rounded where
  low : Nat
  value : Nat
  high : Nat
  closed : Bool
  power : Int

/-- The number `m * 2 ^ q`. Its neighbours are one step away, but a number at the foot of its
binade has its lower neighbour half a step away. -/
def Rounded.ofBinary (m : Nat) (q : Int) (foot : Bool) : Rounded :=
  let unit := if 2 ≤ q then Nat.pow 2 (q - 2).toNat else Nat.pow 5 (2 - q).toNat
  { low := (4 * m - if foot then 1 else 2) * unit
    value := 4 * m * unit
    high := (4 * m + 2) * unit
    closed := m % 2 == 0
    power := if 2 ≤ q then 0 else q - 2 }

/-- Whether `n` is rounded to the number. -/
def Rounded.contains (r : Rounded) (n : Nat) : Bool :=
  if r.closed then r.low ≤ n && n ≤ r.high else r.low < n && n < r.high

/-- Of the two neighbours of the number on the grid with step `10 ^ k` the one that is rounded to
it. Where both are, the nearer is taken, and the larger if they are equally near. -/
def Rounded.onGrid (r : Rounded) (k : Nat) : Option Numeral :=
  let step := Nat.pow 10 k
  let below := r.value / step * step
  let above := below + step
  let numeral (n : Nat) : Numeral := ⟨n / step, r.power + k⟩
  match r.contains below, r.contains above with
  | true, true => some (numeral (if r.value - below < above - r.value then below else above))
  | true, false => some (numeral below)
  | false, true => some (numeral above)
  | false, false => none

/-- The first hit on the grids with steps `10 ^ k`, `10 ^ (k - 1)` and so on. The finest grid
holds the number itself. -/
def Rounded.firstHit (r : Rounded) : Nat → Numeral
  | 0 => (r.onGrid 0).getD ⟨r.value, r.power⟩
  | k + 1 => (r.onGrid (k + 1)).getD (r.firstHit k)

/-- The shortest decimal of a number that is not zero. -/
def Rounded.shortest (r : Rounded) : Numeral :=
  r.firstHit (Nat.toDigits 10 r.value).length

end Violable.Decimal
