import Violable.Config.Basic
import Violable.Element
import Violable.Scoring.Evaluator
import Violable.Scoring.Explanation
import Violable.Scoring.Result

/-!
# Grammars

A grammar is a battery of constraints with a semantics. It judges a candidate by its elements,
prunes those that are ill-formed, and selects from several candidates those that are well-formed.
Before any of this it makes sure that every constraint of the battery has a weight or a rank.
-/

namespace Violable

structure Grammar (ε H : Type) where
  battery : Battery ε
  semantics : Semantics H
  ignored : IgnoredLabels
  parallel : Bool
  name : Option String
  maxLength : Option Nat

/-- A pruned candidate with the result that it was pruned by. -/
structure Pruned (σ ε H : Type) where
  result : Result ε H
  candidate : σ

/-- Why no grammar is made of a configuration. -/
inductive SetupError (H : Type) where
  | fault (fault : Config.Fault H)
  | weight (error : InvalidWeight H)

def SetupError.message : SetupError Float → String
  | fault f => "Configuration error: " ++ f.message
  | weight e => e.message

/-- The delimiters of an alphabet, as labels to be ignored. -/
def IgnoredLabels.boundaries (a : Alphabet) : IgnoredLabels := .ofList [a.bos, a.eos]

namespace Grammar

variable {σ ε H : Type}

/-- A grammar that ignores nothing and has no name. -/
def ofBattery (battery : Battery ε) (semantics : Semantics H) : Grammar ε H where
  battery
  semantics
  ignored := .empty
  parallel := false
  name := none
  maxLength := none

def ignoring (g : Grammar ε H) (ignored : IgnoredLabels) : Grammar ε H := { g with ignored }

/-- All about a grammar, as a reader of logs sees it. -/
def inspect (g : Grammar ε H) : String :=
  let name := match g.name with
    | some s => "Some(" ++ Text.quoted s ++ ")"
    | none => "None"
  "Grammar \x7b name: " ++ name ++ ", stat: " ++ g.semantics.inspect ++ ", ignore: "
    ++ g.ignored.inspect ++ ", parallel: " ++ toString g.parallel ++ " \x7d"

variable [Scale H]

/-- The semantics that a table of a configuration stands for. -/
def semanticsOf : HarmonyTable H → Except (InvalidWeight H) (Semantics H)
  | .weights table => (Weights.ofPairs table.entries).map .weighted
  | .ranking names => .ok (.ranked (.ofDominanceOrder names))

/-- The labels that a configuration wants to be ignored. Without an alphabet these are the usual
delimiters. -/
def ignoredBy (c : Config H) : IgnoredLabels :=
  if c.evaluation.ignoreBoundaries then .boundaries (c.alphabet.getD (.ofSymbols [])) else .empty

/-- The grammar that a configuration describes, if the configuration has no fault. -/
def ofConfig (battery : Battery ε) (c : Config H) : Except (SetupError H) (Grammar ε H) :=
  match c.validate with
  | .error f => .error (.fault f)
  | .ok () =>
    match semanticsOf c.harmony with
    | .error e => .error (.weight e)
    | .ok semantics =>
      .ok {
        battery
        semantics
        ignored := ignoredBy c
        parallel := c.evaluation.parallel
        name := c.name
        maxLength := c.evaluation.maxLength }

/-- Fails with the first constraint of the battery that has no weight or rank. -/
def checkCoverage (g : Grammar ε H) : Except ScoringError Unit :=
  g.semantics.ensureCovers g.battery.names

variable [Element ε] [DecidableEq ε] [Candidate σ ε]

def evaluator (g : Grammar ε H) : Evaluator ε := ⟨g.battery, g.ignored.ignores⟩

def markup (g : Grammar ε H) (s : σ) : Markup ε :=
  if g.parallel then g.evaluator.parEval (Candidate.elements s)
  else g.evaluator.eval (Candidate.elements s)

def evaluate (g : Grammar ε H) (s : σ) : Except ScoringError (Result ε H) := do
  g.checkCoverage
  Result.ofMarkup g.semantics (g.markup s)

def explain (g : Grammar ε H) (s : σ) : Except ScoringError (Explanation ε H) := do
  g.checkCoverage
  Explanation.ofMarkup g.semantics (g.markup s)

/-- The candidate without its ill-formed elements. -/
def prune (g : Grammar ε H) (s : σ) : Except ScoringError (Pruned σ ε H) := do
  let result ← g.evaluate s
  return ⟨result, Candidate.prune s result.illFormed⟩

/-- The candidates without ill-formed elements, in order. -/
def select (g : Grammar ε H) : List σ → Except ScoringError (List σ)
  | [] => .ok []
  | s :: rest => do
    let result ← g.evaluate s
    let kept ← g.select rest
    return if result.isWellFormed then s :: kept else kept

end Grammar

/-- Whether nothing was found ill-formed. -/
def Pruned.isUnchanged {σ ε H : Type} (p : Pruned σ ε H) : Bool := p.result.isWellFormed

end Violable
