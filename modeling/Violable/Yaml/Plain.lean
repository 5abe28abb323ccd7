import Violable.Decimal.Reading

/-!
# Meanings of plain scalars

What is written without quotes may mean nothing, a truth value or a number. Everything else means
itself.
-/

namespace Violable.Yaml

def isNull (s : String) : Bool := ["null", "Null", "NULL", "~"].contains s

def boolean? (s : String) : Option Bool :=
  if ["true", "True", "TRUE"].contains s then some true
  else if ["false", "False", "FALSE"].contains s then some false
  else none

/-- The number that digits denote in a base, if there are any. -/
def digits? (base : Nat) (cs : List Char) : Option Nat :=
  let isDigit (c : Char) : Bool :=
    (c.isDigit || ('a' ≤ c && c ≤ 'f') || ('A' ≤ c && c ≤ 'F')) && Decimal.digitValue c < base
  if ! cs.isEmpty && cs.all isDigit then some (Decimal.ofDigits base cs) else none

/-- Whether there are only digits, more than one, of which the first is a zero. Where nothing else
asks for a number, this is none. -/
def isPadded : List Char → Bool
  | '0' :: cs => ! cs.isEmpty && cs.all Char.isDigit
  | _ => false

/-- The digits of a number without its sign. -/
def unsigned : List Char → List Char
  | '-' :: cs => cs
  | '+' :: cs => cs
  | cs => cs

/-- A whole number after its sign, in base 16, 8, 2 or 10. -/
def natural? : List Char → Option Nat
  | '0' :: 'x' :: cs => digits? 16 cs
  | '0' :: 'o' :: cs => digits? 8 cs
  | '0' :: 'b' :: cs => digits? 2 cs
  | cs => if isPadded cs then none else digits? 10 cs

def integer? (s : String) : Option Int :=
  match s.toList with
  | '-' :: cs => (natural? cs).map fun n => -n
  | '+' :: cs => (natural? cs).map Int.ofNat
  | cs => (natural? cs).map Int.ofNat

/-- A whole number of 64 bits that is written without a minus. -/
def count? (s : String) : Option Nat :=
  match s.toList with
  | '-' :: _ => none
  | _ => ((integer? s).map Int.toNat).filter (· < UInt64.size)

/-- The digits of an exponent with an optional sign. -/
def exponent? : List Char → Option Int
  | '-' :: cs => (digits? 10 cs).map fun n => -n
  | '+' :: cs => (digits? 10 cs).map Int.ofNat
  | cs => (digits? 10 cs).map Int.ofNat

/-- A number after its sign. It has digits before the point or after it. -/
def fractional? (cs : List Char) : Option Float :=
  let whole := cs.takeWhile Char.isDigit
  let (fraction, rest) :=
    match cs.dropWhile Char.isDigit with
    | '.' :: cs => (cs.takeWhile Char.isDigit, cs.dropWhile Char.isDigit)
    | cs => ([], cs)
  if whole.isEmpty && fraction.isEmpty then none
  else
    match rest with
    | [] => some (Decimal.ofParts whole fraction 0)
    | c :: cs =>
      if c == 'e' || c == 'E' then (exponent? cs).map (Decimal.ofParts whole fraction) else none

/-- A number of the floating-point format, which may be padded. Infinity and what is no number have
names, and a number that is too great for the format is none. -/
def float? (s : String) : Option Float :=
  let finite (x : Option Float) : Option Float := x.filter (·.isFinite)
  if [".inf", ".Inf", ".INF", "+.inf", "+.Inf", "+.INF"].contains s then some (1 / 0)
  else if ["-.inf", "-.Inf", "-.INF"].contains s then some (-(1 / 0))
  else if [".nan", ".NaN", ".NAN"].contains s then some (0 / 0)
  else
    match s.toList with
    | '-' :: cs => finite ((fractional? cs).map (- ·))
    | '+' :: cs => finite (fractional? cs)
    | cs => finite (fractional? cs)

end Violable.Yaml
