import Violable.Constraint
import Violable.Tree.Node
import Violable.Tree.Notation

/-!
# Headed trees

A daughter is a head if its label ends with a star. A phrase, which is a node with a daughter that
is not a leaf, should have exactly one head.
-/

namespace Violable.Heads

def isHead (label : String) : Bool := label.toList.getLast? = some '*'

def isPhrase (n : Node) : Bool := n.branch.daughters.any (! ·.isLeaf)

def headCount (n : Node) : Nat := (n.branch.daughters.filter fun d => isHead d.label).length

/-- Against phrases without a head and with several heads. -/
def exactlyOneHead : Constraint Node :=
  ⟨"ExactlyOneHead", .root, fun n => if isPhrase n ∧ headCount n ≠ 1 then -1 else 0⟩

/-- Five trees, of which the first two are well-formed. -/
def trees : List String := [
  "(S (X* (A a) (B* b)) (C c))",
  "(S (A a) (Y* (B* b) (C c)))",
  "(S (X (A a) (B* b)) (C c))",
  "(S (A a) (Y* (B* b) (C* c)))",
  "(S (A a) (B b) (C c))"]

def legalCount : Nat := 2

end Violable.Heads
