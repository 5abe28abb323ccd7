import Violable.Proofs.Index
import Violable.Proofs.Reordering

/-!
# Judging at the same time

Elements that are judged at the same time are filed as if they were judged one after another, as
long as the judgements come in the order of the elements (`parEvalIndexed_eq`): the same entries are
inserted in the same order, whether those that are ignored are left out before or on the way. So it
makes no difference to a grammar whether it works in parallel.
-/

namespace Violable

/-- What is done for each item of a list is given in the order of the list. -/
def InOrder {α β : Type} (mapAll : (α → β) → List α → List β) : Prop :=
  ∀ f l, mapAll f l = l.map f

/-- Does something for each item of a list in a task of its own. -/
def inTasks {α β : Type} (f : α → β) (l : List α) : List β :=
  (l.map fun a => Task.spawn fun _ => f a).map Task.get

theorem inOrder_inTasks {α β : Type} : InOrder (@inTasks α β) := map_get_spawn

variable {ε : Type} [DecidableEq ε]

namespace Evaluator

variable [Hashable ε] {judgeAll : (ε → Option (Marked ε)) → List ε → List (Option (Marked ε))}

theorem parEvalIndexed_eq (v : Evaluator ε) (h : InOrder judgeAll) (l : List ε) :
    v.parEvalIndexed judgeAll l = v.evalIndexed l := by
  rw [parEvalIndexed, h, filterMap_id_judgements, length_filter_isNone, evalIndexed_eq]

end Evaluator

namespace Grammar

variable {σ H : Type} [Scale H] [Element ε] [Candidate σ ε]

def inParallel (g : Grammar ε H) (parallel : Bool) : Grammar ε H := { g with parallel }

omit [Scale H] in
theorem markup_inParallel (g : Grammar ε H) (s : σ) :
    (g.inParallel true).markup s = (g.inParallel false).markup s := by
  rw [markup_eq_eval, markup_eq_eval]
  rfl

omit [Scale H] in
/-- However the judgements are made, if they come in order, they give the markup of a candidate. -/
theorem toMarkup_parEvalIndexed [Hashable ε]
    {judgeAll : (ε → Option (Marked ε)) → List ε → List (Option (Marked ε))} (h : InOrder judgeAll)
    (g : Grammar ε H) (s : σ) :
    (g.evaluator.parEvalIndexed judgeAll (Candidate.elements s)).toMarkup =
      (g.inParallel false).markup s := by
  rw [Evaluator.parEvalIndexed_eq _ h, Evaluator.toMarkup_evalIndexed, markup_eq_eval]
  rfl

end Grammar

/-- Judging all elements at the same time gives the entries, the index and the number of ignored
elements that judging one after another gives. So a grammar makes the same markup of a candidate
however its elements are judged, as long as the judgements come in order, and it evaluates, explains
and prunes every candidate in the same way, or fails in the same way, in parallel or not. -/
theorem parEval_agrees [Hashable ε]
    {judgeAll : (ε → Option (Marked ε)) → List ε → List (Option (Marked ε))} (h : InOrder judgeAll)
    (v : Evaluator ε) (l : List ε) :
    v.parEvalIndexed judgeAll l = v.evalIndexed l ∧
      (v.parEvalIndexed judgeAll l).toMarkup = v.parEval l ∧
      (v.evalIndexed l).toMarkup = v.eval l ∧
      ∀ (σ H : Type) [Scale H] [Element ε] [Candidate σ ε] (g : Grammar ε H) (s : σ),
        (g.evaluator.parEvalIndexed judgeAll (Candidate.elements s)).toMarkup =
          (g.inParallel false).markup s ∧
        (g.inParallel true).markup s = (g.inParallel false).markup s ∧
        (g.inParallel true).evaluate s = (g.inParallel false).evaluate s ∧
        (g.inParallel true).explain s = (g.inParallel false).explain s ∧
        (g.inParallel true).prune s = (g.inParallel false).prune s := by
  have hindexed := v.parEvalIndexed_eq h l
  refine ⟨hindexed, ?_, v.toMarkup_evalIndexed l, fun σ H _ _ _ g s => ?_⟩
  · rw [hindexed, v.toMarkup_evalIndexed, v.parEval_eq_eval]
  have hmarkup := g.markup_inParallel s
  have hevaluate : (g.inParallel true).evaluate s = (g.inParallel false).evaluate s := by
    unfold Grammar.evaluate
    rw [hmarkup]
    rfl
  refine ⟨g.toMarkup_parEvalIndexed h s, hmarkup, hevaluate, ?_, ?_⟩
  · unfold Grammar.explain
    rw [hmarkup]
    rfl
  · unfold Grammar.prune
    rw [hevaluate]

theorem parEval_agrees_onB :
    let v : Evaluator String := ⟨[Toy.onB "NoB" (-1), Toy.onB "PreferB" 1], (· = "c")⟩
    let l := ["b", "c", "a", "b", "c"]
    InOrder (@inTasks String (Option (Marked String))) ∧
      v.parEvalIndexed inTasks l = v.evalIndexed l ∧
      (v.parEvalIndexed inTasks l).entries.map (·.element) = ["b", "a"] ∧
      (v.parEvalIndexed inTasks l).ignored = 2 := by
  intro v l
  obtain ⟨hsame, -, heval, -⟩ := parEval_agrees inOrder_inTasks v l
  have helements : (v.eval l).entries.map (·.element) = ["b", "a"] := by cbv
  have hignored : (v.eval l).ignored = 2 := by cbv
  rw [← heval] at helements hignored
  exact ⟨inOrder_inTasks, hsame, hsame ▸ helements, hsame ▸ hignored⟩

end Violable
