import Violable.Scoring.Markup
import Violable.Scoring.Semantics

/-!
# Explanations

An explanation shows where the harmony of a candidate comes from: element by element and subnode
by subnode, with the constraint that decided, and with a tally of the marks of each constraint.
-/

namespace Violable

/-- One subnode with its marks and what came of them. -/
structure SubnodeAnalysis (H : Type) where
  subnode : Subnode
  marks : List Mark
  harmony : H
  decisive : Option String

/-- One element with its subnodes. -/
structure ElementAnalysis (ε H : Type) where
  element : ε
  harmony : H
  subnodes : List (SubnodeAnalysis H)

/-- How often a constraint was violated, was satisfied, and made a subnode ill-formed. -/
structure Tally where
  violations : Nat
  satisfactions : Nat
  decisive : Nat
  deriving DecidableEq

namespace Tally

def zero : Tally := ⟨0, 0, 0⟩

/-- Counts one more mark. -/
def mark (t : Tally) (m : Mark) : Tally :=
  if m.isViolation then { t with violations := t.violations + 1 }
  else { t with satisfactions := t.satisfactions + 1 }

/-- Counts one more ill-formed subnode. -/
def decide (t : Tally) : Tally := { t with decisive := t.decisive + 1 }

end Tally

abbrev Tallies := SortedMap String Tally

namespace Tallies

def mark (t : Tallies) (m : Mark) : Tallies :=
  t.alter m.constraint fun c => (c.getD .zero).mark m

def decide (t : Tallies) (name : String) : Tallies :=
  t.alter name fun c => (c.getD .zero).decide

/-- The constraints that were violated, the most violated first. -/
def mostViolated (t : Tallies) : List (String × Nat) :=
  ((t.entries.filter (0 < ·.2.violations)).map fun e => (e.1, e.2.violations)).mergeSort
    fun a b => b.2 ≤ a.2

end Tallies

/-- Where the harmony of a candidate comes from. -/
structure Explanation (ε H : Type) where
  semantics : String
  total : H
  elements : List (ElementAnalysis ε H)
  tallies : Tallies

section

variable {ε H : Type} [Scale H]

namespace SubnodeAnalysis

def isIllFormed (a : SubnodeAnalysis H) : Bool := ! Harmony.isWellFormed a.harmony

/-- The analysis of the marks on one subnode. -/
def ofMarks (s : Semantics H) (subnode : Subnode) (marks : SortedSet Mark) :
    Except ScoringError (SubnodeAnalysis H) := do
  let harmony ← s.subnodeHarmony marks
  let decisive ← s.decisive? marks
  return ⟨subnode, marks.toList, harmony, decisive⟩

/-- Counts the marks of the subnode, and its decisive constraint if the subnode is ill-formed. -/
def count (a : SubnodeAnalysis H) (t : Tallies) : Tallies :=
  let t := a.marks.foldl Tallies.mark t
  match a.decisive with
  | some name => if a.isIllFormed then t.decide name else t
  | none => t

end SubnodeAnalysis

namespace ElementAnalysis

def isIllFormed (a : ElementAnalysis ε H) : Bool := ! Harmony.isWellFormed a.harmony

omit [Scale H] in
def markCount (a : ElementAnalysis ε H) : Nat :=
  (a.subnodes.map (·.marks.length)).foldr (· + ·) 0

def illFormedSubnodes (a : ElementAnalysis ε H) : List (SubnodeAnalysis H) :=
  a.subnodes.filter (·.isIllFormed)

/-- The analysis of one entry of a markup. -/
def ofMarked (s : Semantics H) (d : Marked ε) : Except ScoringError (ElementAnalysis ε H) := do
  let subnodes ← d.marks.entries.mapM fun e => SubnodeAnalysis.ofMarks s e.1 e.2
  return ⟨d.element, Harmony.sum (subnodes.map (·.harmony)), subnodes⟩

end ElementAnalysis

namespace Explanation

/-- The explanation that consists of the given analyses. -/
def ofElements (semantics : String) (elements : List (ElementAnalysis ε H)) : Explanation ε H where
  semantics
  total := Harmony.sum ((elements.filter (·.isIllFormed)).map (·.harmony))
  elements
  tallies := (elements.flatMap (·.subnodes)).foldl (fun t a => a.count t) ∅

/-- The explanation of a markup. It fails at the first subnode that has no harmony. -/
def ofMarkup (s : Semantics H) (m : Markup ε) : Except ScoringError (Explanation ε H) :=
  (m.entries.mapM (ElementAnalysis.ofMarked s)).map (ofElements s.name)

def illFormed (x : Explanation ε H) : List (ElementAnalysis ε H) :=
  x.elements.filter (·.isIllFormed)

def illFormedCount (x : Explanation ε H) : Nat := x.illFormed.length

end Explanation

end

namespace SubnodeAnalysis

/-- A line with the marks of a subnode and their harmony. -/
def line (a : SubnodeAnalysis Float) : String :=
  "    [" ++ a.subnode.text ++ "] " ++ " ".intercalate (a.marks.map (·.judgement)) ++ " -> "
    ++ Harmony.text a.harmony

end SubnodeAnalysis

namespace Explanation

variable {ε : Type}

/-- A line with the total, and lines for each ill-formed element and its ill-formed subnodes. -/
def lines (write : ε → String) (x : Explanation ε Float) : List String :=
  (x.semantics ++ " harmony " ++ Harmony.text x.total ++ " (" ++ toString x.illFormedCount
    ++ " of " ++ toString x.elements.length ++ " elements ill-formed)") ::
  x.illFormed.flatMap fun a =>
    ("  " ++ write a.element ++ " : " ++ Harmony.text a.harmony) ::
      a.illFormedSubnodes.map (·.line)

/-- The lines of an explanation, each with its end. -/
def text (write : ε → String) (x : Explanation ε Float) : String :=
  String.join ((x.lines write).map (· ++ "\n"))

end Explanation

end Violable
