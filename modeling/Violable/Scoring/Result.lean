import Violable.Scoring.Markup
import Violable.Scoring.Semantics

/-!
# Results

The harmony of an element is the sum of the harmonies of its subnodes. The result of a markup
lists the ill-formed elements and adds up their harmonies.
-/

namespace Violable

namespace Semantics

variable {H : Type} [Scale H]

/-- The harmony of an element from its marks. -/
def elementHarmony (s : Semantics H) (marks : SortedMap Subnode (SortedSet Mark)) :
    Except ScoringError H :=
  marks.values.foldlM (fun total ms => (s.subnodeHarmony ms).map (total + ·)) 0

end Semantics

/-- What came of judging the elements of a candidate. -/
structure Result (ε H : Type) where
  total : H
  illFormed : List ε
  evaluated : Nat

namespace Result

variable {ε H : Type} [Scale H]

def empty : Result ε H := ⟨0, [], 0⟩

/-- Counts one more element. -/
def record (r : Result ε H) (e : ε) (h : H) : Result ε H :=
  if Harmony.isWellFormed h then { r with evaluated := r.evaluated + 1 }
  else ⟨r.total + h, r.illFormed ++ [e], r.evaluated + 1⟩

/-- The result of a markup. It fails at the first subnode that has no harmony. -/
def ofMarkup (s : Semantics H) (m : Markup ε) : Except ScoringError (Result ε H) :=
  m.entries.foldlM (fun r d => (s.elementHarmony d.marks).map (r.record d.element)) empty

omit [Scale H]

def isWellFormed (r : Result ε H) : Bool := r.illFormed.isEmpty

def illFormedCount (r : Result ε H) : Nat := r.illFormed.length

def wellFormedCount (r : Result ε H) : Nat := r.evaluated - r.illFormed.length

/-- The ill-formed elements, each once. -/
def distinctIllFormed [DecidableEq ε] (r : Result ε H) : List ε := r.illFormed.eraseDups

def isIllFormed [DecidableEq ε] (r : Result ε H) (e : ε) : Bool := e ∈ r.illFormed

/-- The total and how many elements are ill-formed. -/
def text (r : Result ε Float) : String :=
  "harmony " ++ Harmony.text r.total ++ " (" ++ toString r.illFormedCount ++ " of "
    ++ toString r.evaluated ++ " elements ill-formed)"

end Result

end Violable
