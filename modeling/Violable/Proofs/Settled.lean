import Violable.Proofs.Filing
import Violable.Proofs.PrunedLanguage

/-!
# Nothing left to prune

A candidate is settled if each of its elements passes on its own (`Settled`). Then no harmony is
missing and nothing is found ill-formed (`evaluate_of_settled`). An acceptor that was pruned is
settled (`settled_of_prune`): what is left of it is judged as it was before, and what did not pass
is gone. So it is left as it is when it is pruned again (`prune_idempotent`).
-/

namespace Violable

variable {σ ε H : Type}

theorem Evaluator.mem_entries_eval [DecidableEq ε] {v : Evaluator ε} {l : List ε} {d : Marked ε} :
    d ∈ (v.eval l).entries ↔ ∃ e ∈ l, v.ignores e = false ∧ v.mark e = d := by
  simp [entries_eval_eraseDups, and_assoc]

variable [Scale H]

/-- If no entry is penalized there is a result, and it finds nothing. -/
theorem Result.ofMarkup_of_clears {s : Semantics H} {m : Markup ε}
    (h : ∀ d ∈ m.entries, s.clears d.marks) : ofMarkup s m = .ok ⟨0, [], m.size⟩ := by
  have hclears := fun d hd => Semantics.clears_iff.1 (h d hd)
  obtain ⟨r, hr⟩ := exists_ofMarkup.2 fun d hd => (hclears d hd).imp fun _ => And.left
  obtain ⟨scores, hscores, rfl⟩ := ofMarkup_eq_ok.1 hr
  have hbad : scores.filter (! Harmony.isWellFormed ·.2) = [] := by
    rw [List.filter_eq_nil_iff]
    intro p hp
    obtain ⟨d, hd, hdp⟩ := (forall_exists_of_mapM (mapM_eq_ok.2 hscores)).2 p hp
    obtain ⟨h, hh, hwell⟩ := hclears d hd
    obtain rfl := Except.ok.inj (hh.symm.trans (Semantics.score_eq_ok.1 hdp).2)
    simp [hwell]
  rw [hr, ofScores, hbad, ← hscores.length_eq]
  rfl

namespace Grammar

section Candidates

variable [Element ε] [Candidate σ ε]

/-- Every element passes on its own. -/
def Settled (g : Grammar ε H) (s : σ) : Prop := ∀ e ∈ Candidate.elements s, g.Passes e

variable [DecidableEq ε] {g : Grammar ε H} {s : σ}

theorem clears_of_settled (h : g.Settled s) :
    ∀ d ∈ (g.markup s).entries, g.semantics.clears d.marks := by
  intro d hd
  rw [markup_eq_eval, Evaluator.mem_entries_eval] at hd
  obtain ⟨e, he, hkept, rfl⟩ := hd
  refine Semantics.clears_iff.2 ((h e he).resolve_left fun hignored => ?_)
  exact Bool.false_ne_true (hkept.symm.trans hignored)

theorem evaluate_of_settled (hg : g.checkCoverage = .ok ()) (h : g.Settled s) :
    g.evaluate s = .ok ⟨0, [], (g.markup s).size⟩ :=
  evaluate_eq_ok.2 ⟨hg, Result.ofMarkup_of_clears (clears_of_settled h)⟩

end Candidates

variable {g : Grammar Arc H} {m : Acceptor} {p : Pruned Acceptor Arc H}

theorem settled_of_prune (h : g.prune m = .ok p) : g.Settled p.candidate := by
  obtain ⟨r, hr, rfl⟩ := candidate_of_prune h
  intro t ht
  obtain ⟨htm, hkept⟩ := Acceptor.mem_arcs_of_mem_arcs_prune ht
  rw [mem_illFormed m.arcs.nodup hr] at hkept
  exact not_not.1 fun hfail => hkept ⟨htm, hfail⟩

/-- What was pruned can be pruned again, which finds nothing and changes nothing. -/
theorem prune_idempotent (h : g.prune m = .ok p) :
    ∃ p', g.prune p.candidate = .ok p' ∧ p'.result.illFormed = [] ∧ p'.result.total = 0 ∧
      p'.isUnchanged = true ∧ p'.candidate = p.candidate := by
  obtain ⟨r, hr, -⟩ := candidate_of_prune h
  have hagain := evaluate_of_settled (evaluate_eq_ok.1 hr).1 (settled_of_prune h)
  exact ⟨_, prune_of_evaluate hagain, rfl, rfl, rfl, rfl⟩

theorem prune_idempotent_oneB :
    ∃ p, Toy.oneB.prune Toy.contextAcceptor = .ok p ∧ p.isUnchanged = false ∧
      ∃ p', Toy.oneB.prune p.candidate = .ok p' ∧ p'.result.illFormed = [] ∧
        p'.result.total = 0 ∧ p'.isUnchanged = true ∧ p'.candidate = p.candidate := by
  have h : Toy.oneB.evaluate Toy.contextAcceptor = .ok ⟨-1, [⟨⟨"b"⟩, "b", ⟨"b"⟩⟩], 6⟩ := by cbv
  have hp := prune_of_evaluate h
  exact ⟨_, hp, rfl, prune_idempotent hp⟩

end Grammar

end Violable
