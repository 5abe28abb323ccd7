import Violable.Constraint
import Violable.Tree.Node
import Violable.Tree.Notation

/-!
# A rule grammar as soft constraints

A small context-free grammar is recast as six constraints on the nodes of a tree. Every
non-terminal is penalized for needing a mother and daughters, and rewarded for each of them that a
rule licenses. With weights of one a node that a rule licenses comes out at exactly zero.
-/

namespace Violable.RuleGrammar

/-- A mother with one or two daughters. -/
structure Rule where
  mother : String
  first : String
  second : Option String
  deriving DecidableEq

def root : String := "S"

def nonTerminals : List String := ["A0", "A1", "F0", "B", "C", "D", "E"]

def rules : List Rule := [
  ⟨"S", "A0", none⟩,
  ⟨"S", "A1", none⟩,
  ⟨"S", "F0", none⟩,
  ⟨"A0", "B", some "C"⟩,
  ⟨"A1", "D", some "E"⟩,
  ⟨"F0", "B", some "E"⟩,
  ⟨"B", "b", none⟩,
  ⟨"C", "c", none⟩,
  ⟨"D", "d", none⟩,
  ⟨"E", "e", none⟩]

/-- Five trees, of which the first three are derived by the rules. -/
def trees : List String := [
  "(S (A0 (B b) (C c)))",
  "(S (A1 (D d) (E e)))",
  "(S (F0 (B b) (E e)))",
  "(S (A0 (B b) (E e)))",
  "(S (A1 (D d) (C c)))"]

def legalCount : Nat := 3

def isNonTerminal (label : String) : Bool := label ∈ nonTerminals

/-- A non-terminal with two daughters has a digit in its name. -/
def isBinary (label : String) : Bool := label.toList.any Char.isDigit

/-- Whether some rule gives the mother this daughter. -/
def licensesParent (mother child : String) : Bool :=
  rules.any fun r => r.mother = mother ∧ (r.first = child ∨ r.second = some child)

/-- Whether some rule gives the mother this first daughter. -/
def licensesFirst (mother child : String) : Bool :=
  rules.any fun r => r.mother = mother ∧ r.first = child

/-- Whether some rule gives the mother this second daughter. -/
def licensesSecond (mother child : String) : Bool :=
  rules.any fun r => r.mother = mother ∧ r.second = some child

/-- A penalty of one for the non-terminals that a test picks out. -/
def need (name : String) (test : String → Bool) : Constraint Node :=
  ⟨name, .root, fun n => if isNonTerminal n.label ∧ test n.label then -1 else 0⟩

/-- A reward of one for the non-terminals with a relative that is licensed. -/
def good (name : String) (relative? : Node → Option Node) (licensed : String → String → Bool) :
    Constraint Node :=
  ⟨name, .root, fun n =>
    match relative? n with
    | some r => if isNonTerminal n.label ∧ licensed n.label r.label then 1 else 0
    | none => 0⟩

def battery : Battery Node := [
  need "need_parent" fun _ => true,
  need "need_daught0" fun _ => true,
  need "need_daught1" isBinary,
  good "good_parent" Node.parent? fun child mother => licensesParent mother child,
  good "good_daught0" (·.child? 0) licensesFirst,
  good "good_daught1" (·.child? 1) licensesSecond]

/-- A weight of one for each constraint. -/
def unitWeights : List (String × Float) := battery.names.map fun name => (name, 1)

end Violable.RuleGrammar
