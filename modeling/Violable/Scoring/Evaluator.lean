import Violable.Constraint
import Violable.Element
import Violable.Scoring.Markup

/-!
# Evaluation

An evaluator applies a battery to elements, except to those that it ignores. It can do so one
element after another, or with all elements judged at the same time; the markup is the same.
-/

namespace Violable

structure Evaluator (ε : Type) where
  battery : Battery ε
  ignores : ε → Bool

namespace Evaluator

variable {ε : Type}

def mark (v : Evaluator ε) (e : ε) : Marked ε := .ofMarks e (v.battery.marks e)

/-- The judgement of an element that is not ignored. -/
def mark? (v : Evaluator ε) (e : ε) : Option (Marked ε) :=
  if v.ignores e then none else some (v.mark e)

variable [DecidableEq ε]

/-- Judges one more element, or counts it as ignored. -/
def step (v : Evaluator ε) (m : Markup ε) (e : ε) : Markup ε :=
  if v.ignores e then { m with ignored := m.ignored + 1 } else m.insert (v.mark e)

/-- Judges one element after another. -/
def eval (v : Evaluator ε) (elements : List ε) : Markup ε := elements.foldl v.step .empty

/-- Judges all elements at the same time and then collects the judgements in order. -/
def parEval (v : Evaluator ε) (elements : List ε) : Markup ε :=
  let judgements := (elements.map fun e => Task.spawn fun _ => v.mark? e).map Task.get
  { Markup.ofList (judgements.filterMap id) with
    ignored := (judgements.filter (·.isNone)).length }

end Evaluator

/-- A set of labels whose elements are ignored. -/
structure IgnoredLabels where
  labels : SortedSet String
  deriving DecidableEq

namespace IgnoredLabels

def empty : IgnoredLabels := ⟨∅⟩

instance : Inhabited IgnoredLabels := ⟨empty⟩

def ofList (labels : List String) : IgnoredLabels := ⟨SortedSet.ofList labels⟩

def ignores {ε : Type} [Element ε] (i : IgnoredLabels) (e : ε) : Bool :=
  Element.label e ∈ i.labels

/-- All about the labels, as a reader of logs sees it. -/
def inspect (i : IgnoredLabels) : String :=
  let labels := ", ".intercalate (i.labels.toList.map Text.quoted)
  "IgnoreLabels \x7b labels: \x7b" ++ labels ++ "\x7d \x7d"

end IgnoredLabels

end Violable
