import Violable.Demo.Basic
import Violable.Sample.RuleGrammar
import Violable.Tree.Removal

/-!
# A demonstration of rules

Trees are explained under the constraints of a rule grammar, and those that the rules derive are
selected.
-/

namespace Violable.Demo

open RuleGrammar (Rule)

def ruleLine (r : Rule) : String :=
  "  " ++ r.mother ++ " -> " ++ r.first ++ (r.second.map (" " ++ ·)).getD ""

def mostViolatedLine (x : Explanation Node Float) : List String :=
  match x.tallies.mostViolated with
  | (name, n) :: _ => ["  most violated: " ++ name ++ " (" ++ toString n ++ " violations)"]
  | [] => []

/-- A tree with its harmony, which is explained if some node is ill-formed. -/
def sayTree (g : Grammar Node Float) (t : Tree) : Demo Unit := do
  let x ← check ScoringError.message (g.explain t)
  say (t.text ++ "  harmony = " ++ Harmony.text x.total)
  if 0 < x.illFormedCount then
    sayAll (x.lines fun n => n.branch.text)
    sayAll (mostViolatedLine x)
  say ""

def rules (stamp : String) : Demo Unit := do
  title "Smolensky (1993) Grammar G0"
  say "Rules:"
  sayAll (RuleGrammar.rules.map ruleLine)
  say ""
  let weights ← check InvalidWeight.message (Weights.ofPairs RuleGrammar.unitWeights)
  let g := Grammar.ofBattery RuleGrammar.battery (.weighted weights)
  let trees ← check ReadError.message (RuleGrammar.trees.mapM Tree.read)
  say "Evaluation of trees:"
  trees.forM (sayTree g)
  let legal ← check ScoringError.message (g.select trees)
  report stamp (g.selectEvents trees)
  say ("Legal trees (" ++ toString legal.length ++ " of " ++ toString trees.length ++ "):")
  sayAll (legal.map fun t => "  " ++ t.text ++ "  yield: " ++ String.join t.leaves)

end Violable.Demo
