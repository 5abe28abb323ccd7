import Violable.Decimal.Plain

/-!
# Harmony

Harmony measures how well something satisfies the constraints: zero is perfect, and every penalty
takes it below zero. Harmonies are added up, so they are numbers. The programs compute with
floating-point numbers (`Float`), and statements about exact arithmetic are about the rationals
(`Rat`), so what is computed is written once for any `Scale` of numbers.
-/

namespace Violable

/-- The numbers on which harmony and weights are measured. -/
class Scale (H : Type) extends Zero H, One H, Add H, Mul H, Neg H, LT H, LE H where
  ofInt : Int → H
  isFinite : H → Bool
  decideLt (a b : H) : Decidable (a < b)
  decideLe (a b : H) : Decidable (a ≤ b)

instance Scale.decidableLT {H : Type} [Scale H] : DecidableLT H := Scale.decideLt

instance Scale.decidableLE {H : Type} [Scale H] : DecidableLE H := Scale.decideLe

instance : Scale Float where
  zero := 0.0
  one := 1.0
  ofInt := Float.ofInt
  isFinite := Float.isFinite
  decideLt := inferInstance
  decideLe := inferInstance

instance : Scale Rat where
  zero := Rat.ofInt 0
  one := Rat.ofInt 1
  ofInt n := n
  isFinite _ := true
  decideLt := inferInstance
  decideLe := inferInstance

namespace Harmony

variable {H : Type} [Scale H]

/-- What an ill-formed part costs where costs are not weighed. -/
def penalty : H := -1

/-- Whether nothing was penalized. What is not a number is not well-formed. -/
def isWellFormed (h : H) : Bool := 0 ≤ h

/-- Harmonies are added from the left. -/
def sum (l : List H) : H := l.foldl (· + ·) 0

/-- What holds of zero, and of two harmonies together if it holds of each, holds of their sums. -/
theorem sum_induction {P : H → Prop} {l : List H} (hzero : P 0)
    (hadd : ∀ h k, P h → P k → P (h + k)) (hl : ∀ h ∈ l, P h) : P (sum l) :=
  List.foldlRecOn l (· + ·) hzero fun s hs h hh => hadd s h hs (hl h hh)

/-- The sums of the first one, two, … of a list of harmonies after a first sum. -/
def runningFrom (s : H) : List H → List H
  | [] => []
  | h :: l => (s + h) :: runningFrom (s + h) l

/-- The sums of the first one, two, … of a list of harmonies. -/
def running (l : List H) : List H := runningFrom 0 l

/-- How two harmonies compare, if they do. -/
def compare? (h k : H) : Option Ordering :=
  if h < k then some .lt else if k < h then some .gt
  else if h ≤ k then some .eq else none

def text (h : Float) : String := Decimal.plain h

/-- All about a harmony, as a reader of logs sees it. -/
def inspect (h : Float) : String := "Harmony(" ++ text h ++ ")"

end Harmony

end Violable
