import Violable.Sorted.Map

/-!
# Alphabets

An alphabet lists the symbols of which strings are made, with a begin and an end delimiter and
with named classes of symbols.
-/

namespace Violable

structure Alphabet where
  symbols : List String
  bos : String
  eos : String
  classes : SortedMap String (List String)
  deriving DecidableEq

namespace Alphabet

def defaultBos : String := ">"

def defaultEos : String := "<"

/-- The alphabet of the given symbols, with the usual delimiters and no classes. -/
def ofSymbols (symbols : List String) : Alphabet :=
  ⟨symbols, defaultBos, defaultEos, ∅⟩

def withDelimiters (a : Alphabet) (bos eos : String) : Alphabet :=
  { a with bos, eos }

/-- Declares a class, in place of any of the same name. -/
def withClass (a : Alphabet) (name : String) (members : List String) : Alphabet :=
  { a with classes := a.classes.insert name members }

def contains (a : Alphabet) (s : String) : Bool := a.symbols.contains s

def isDelimiter (a : Alphabet) (s : String) : Bool := s == a.bos || s == a.eos

/-- Whether `s` belongs to a class. One that is not declared has no members. -/
def inClass (a : Alphabet) (name s : String) : Bool :=
  match a.classes.get? name with
  | some members => members.contains s
  | none => false

end Alphabet

end Violable
