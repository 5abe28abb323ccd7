/-!
# Grouped digits

A large count is easier to read with a comma after every three digits, counted from the right.
-/

namespace Violable.Text

/-- Puts a comma after every three of the digits, which are written backwards. -/
def groupedBackwards : List Char → List Char
  | a :: b :: c :: d :: l => a :: b :: c :: ',' :: groupedBackwards (d :: l)
  | l => l

/-- A number in decimal digits, with a comma between thousands. -/
def grouped (n : Nat) : String :=
  String.ofList (groupedBackwards (Nat.toDigits 10 n).reverse).reverse

end Violable.Text
