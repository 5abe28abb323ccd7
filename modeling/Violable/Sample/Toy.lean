import Violable.Acceptor.Window
import Violable.Constraint
import Violable.Scoring.Semantics

/-!
# Strings of two letters

The smallest grammars are about strings over `a` and `b`. One constraint is against `b`, one is
for it, and one is against `b` after `b`.
-/

namespace Violable.Toy

def alphabet : Alphabet := .ofSymbols ["a", "b"]

/-- An acceptor of all strings over the alphabet. -/
def twoStates : Acceptor :=
  let arc (src : Nat) (label : String) : Arc := ⟨.ofNumber src, label, .ofNumber 1⟩
  .ofArcs (.ofNumber 0) [.ofNumber 0, .ofNumber 1] [arc 0 "a", arc 0 "b", arc 1 "a", arc 1 "b"]

/-- The acceptor that remembers the last letter. -/
def contextAcceptor : Acceptor := .ofWindows alphabet 1

/-- Against every `b`. -/
def noB : Constraint Arc := ⟨"NoB", .root, fun t => if t.label = "b" then -1 else 0⟩

/-- For every `b`. -/
def preferB : Constraint Arc := ⟨"PreferB", .root, fun t => if t.label = "b" then 1 else 0⟩

/-- Against `b` after `b`. -/
def noBB : Constraint Arc :=
  ⟨"NoBB", .root, fun t => if t.label = "b" ∧ t.src.last? = some "b" then -1 else 0⟩

/-- Weights by which being against `b` outweighs being for it. -/
def semantics : Semantics Rat := .weighted ⟨SortedMap.ofList [("NoB", 3), ("PreferB", 1)]⟩

/-- The strings of up to `n` letters `a`. -/
def aStar (n : Nat) : List String :=
  (List.range (n + 1)).map fun i => " ".intercalate (List.replicate i "a")

end Violable.Toy
