import Violable.Grammar.Basic

/-!
# Events

Each step of judging a candidate is an event: the elements were marked, the marks were added up,
a candidate was pruned, or some of several candidates were selected. An operation that fails has
only the events of the steps before its failure.
-/

namespace Violable

inductive Event (H : Type) where
  | evaluated (parallel : Bool) (elements marked ignored marks : Nat)
  | aggregated (semantics : String) (elements illFormed : Nat) (total : H)
  | pruned (semantics : String) (evaluated removed : Nat) (total : H) (empty : Bool)
  | selected (semantics : String) (candidates wellFormed : Nat)

namespace Event

/-- Whether an event is shown where only outcomes are wanted. -/
def isOutcome {H : Type} : Event H → Bool
  | evaluated .. => false
  | aggregated .. => false
  | pruned .. => true
  | selected .. => true

end Event

namespace Grammar

variable {σ ε H : Type} [Scale H] [Element ε] [DecidableEq ε] [Candidate σ ε]

/-- The event of marking the elements of a candidate. -/
def markupEvent (g : Grammar ε H) (s : σ) : Event H :=
  let m := g.markup s
  .evaluated g.parallel m.size m.markedCount m.ignored m.markCount

/-- The events of `evaluate`. -/
def evaluateEvents (g : Grammar ε H) (s : σ) : List (Event H) :=
  match g.checkCoverage with
  | .error _ => []
  | .ok () =>
    match g.evaluate s with
    | .error _ => [g.markupEvent s]
    | .ok r =>
      [g.markupEvent s,
        .aggregated g.semantics.name (g.markup s).size r.illFormedCount r.total]

/-- The events of `explain`. -/
def explainEvents (g : Grammar ε H) (s : σ) : List (Event H) :=
  match g.checkCoverage with
  | .error _ => []
  | .ok () => [g.markupEvent s]

/-- The events of `prune`. -/
def pruneEvents (g : Grammar ε H) (s : σ) : List (Event H) :=
  g.evaluateEvents s ++
    match g.prune s with
    | .error _ => []
    | .ok p =>
      [.pruned g.semantics.name p.result.evaluated p.result.illFormedCount p.result.total
        (Candidate.isEmpty p.candidate)]

/-- The events of judging candidates one after another, up to the first failure. -/
def evaluateAllEvents (g : Grammar ε H) : List σ → List (Event H)
  | [] => []
  | s :: rest =>
    g.evaluateEvents s ++
      match g.evaluate s with
      | .error _ => []
      | .ok _ => g.evaluateAllEvents rest

/-- The events of `select`. -/
def selectEvents (g : Grammar ε H) (candidates : List σ) : List (Event H) :=
  g.evaluateAllEvents candidates ++
    match g.select candidates with
    | .error _ => []
    | .ok kept => [.selected g.semantics.name candidates.length kept.length]

end Grammar

end Violable
