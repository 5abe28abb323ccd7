import Violable.Scoring.Error
import Violable.Sorted.Map
import Violable.Sorted.Set

/-!
# Ranks

A table of ranks says which constraint dominates which: the one of higher rank. Ranks are meant to
be all different. Where they are not, the constraints of one rank form a tie, which is reported
and never broken.
-/

namespace Violable

structure Ranks where
  table : SortedMap String Nat
  deriving DecidableEq

namespace Ranks

def empty : Ranks := ⟨∅⟩

instance : Inhabited Ranks := ⟨empty⟩

def get? (r : Ranks) (name : String) : Option Nat := r.table.get? name

/-- The rank of a constraint that must have one. -/
def rank (r : Ranks) (name : String) : Except ScoringError Nat :=
  match r.get? name with
  | some n => .ok n
  | none => .error (.missingRank name)

def contains (r : Ranks) (name : String) : Bool := r.table.contains name

/-- Fails with the first name that has no rank. -/
def ensureCovers (r : Ranks) (names : List String) : Except ScoringError Unit :=
  names.forM fun name => discard (r.rank name)

/-- Whether the first constraint has a higher rank than the second. -/
def dominates (r : Ranks) (a b : String) : Except ScoringError Bool := do
  let m ← r.rank a
  let n ← r.rank b
  return n < m

/-- Sets a rank. The first part of the answer is the rank that was there before. -/
def insert (r : Ranks) (name : String) (rank : Nat) : Option Nat × Ranks :=
  (r.get? name, ⟨r.table.insert name rank⟩)

/-- The table of a list of names and ranks. Of two ranks for one name the last counts. -/
def ofPairs (pairs : List (String × Nat)) : Ranks := ⟨SortedMap.ofList pairs⟩

/-- Gives each name the number of names from its place to the end. -/
def descending : List String → List (String × Nat)
  | [] => []
  | name :: names => (name, names.length + 1) :: descending names

/-- The table of a list of names that begins with the most dominant. -/
def ofDominanceOrder (names : List String) : Ranks := ofPairs (descending names)

/-- The names from the most to the least dominant, and alphabetically within a tie. -/
def dominanceOrder (r : Ranks) : List String :=
  (r.table.entries.mergeSort fun e e' => e'.2 ≤ e.2).map (·.1)

/-- The names of one rank in alphabetical order. -/
def namesOfRank (r : Ranks) (rank : Nat) : List String :=
  (r.table.entries.filter (·.2 = rank)).map (·.1)

/-- The ranks that are shared with the names that share them, lowest rank first. -/
def ties (r : Ranks) : List (Nat × List String) :=
  ((SortedSet.ofList r.table.values).toList.map fun n => (n, r.namesOfRank n)).filter
    (1 < ·.2.length)

def size (r : Ranks) : Nat := r.table.size

def isEmpty (r : Ranks) : Bool := r.table.isEmpty

/-- All that a reader of logs sees of a table. -/
def inspect (r : Ranks) : String :=
  "ConstraintRanks \x7b order: " ++ Text.quotedList r.dominanceOrder ++ " \x7d"

end Ranks

end Violable
