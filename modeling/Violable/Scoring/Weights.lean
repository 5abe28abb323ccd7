import Violable.Harmony
import Violable.Scoring.Error
import Violable.Sorted.Map

/-!
# Weights

A table of weights gives constraints a finite weight that is not negative. A constraint without a
weight is an error when it is looked up, never a weight of zero.
-/

namespace Violable

/-- A weight that is negative, infinite or not a number, with the constraint it was meant for. -/
structure InvalidWeight (H : Type) where
  constraint : String
  weight : H

def InvalidWeight.message (e : InvalidWeight Float) : String :=
  "Invalid weight " ++ Decimal.plain e.weight ++ " for constraint '" ++ e.constraint ++ "'"

structure Weights (H : Type) where
  table : SortedMap String H

namespace Weights

variable {H : Type}

def empty : Weights H := ⟨∅⟩

instance : Inhabited (Weights H) := ⟨empty⟩

def get? (w : Weights H) (name : String) : Option H := w.table.get? name

/-- The weight of a constraint that must have one. -/
def weight (w : Weights H) (name : String) : Except ScoringError H :=
  match w.get? name with
  | some x => .ok x
  | none => .error (.missingWeight name)

def contains (w : Weights H) (name : String) : Bool := w.table.contains name

/-- Fails with the first name that has no weight. -/
def ensureCovers (w : Weights H) (names : List String) : Except ScoringError Unit :=
  names.forM fun name => discard (w.weight name)

/-- The names in alphabetical order. -/
def names (w : Weights H) : List String := w.table.keys

def size (w : Weights H) : Nat := w.table.size

def isEmpty (w : Weights H) : Bool := w.table.isEmpty

/-- Removes a weight. The first part is the weight that was removed. -/
def erase (w : Weights H) (name : String) : Option H × Weights H :=
  (w.get? name, ⟨w.table.erase name⟩)

/-- All that a reader of logs sees of a table. -/
def inspect (w : Weights H) : String :=
  "ConstraintWeights \x7b count: " ++ toString w.size ++ " \x7d"

variable [Scale H]

/-- Whether a number can be a weight. -/
def isValid (x : H) : Bool := Scale.isFinite x && ! decide (x < 0)

/-- Sets a weight. The first part of the answer is the weight that was there before. -/
def insert (w : Weights H) (name : String) (x : H) :
    Except (InvalidWeight H) (Option H × Weights H) :=
  if isValid x then .ok (w.get? name, ⟨w.table.insert name x⟩) else .error ⟨name, x⟩

/-- The table of a list of names and weights. Of two weights for one name the last counts, and the
first invalid weight is an error. -/
def ofPairs (pairs : List (String × H)) : Except (InvalidWeight H) (Weights H) :=
  pairs.foldlM (fun w p => (w.insert p.1 p.2).map (·.2)) empty

end Weights

end Violable
