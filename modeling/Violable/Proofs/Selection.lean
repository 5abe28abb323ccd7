import Mathlib
import Violable.Proofs.Removal
import Violable.Proofs.Settled
import Violable.Sample.Heads

/-!
# Selecting by pruning

Candidates are selected by what is found ill-formed in them, without being pruned. Pruning would
select the same ones: it removes what is ill-formed, and both acceptors and trees show whether
anything was removed (`ShowsPruning`). So a candidate comes out of pruning as it went in exactly if
nothing in it is ill-formed (`candidate_eq_self_iff`), and those are the candidates that are
selected (`select_eq_unchanged`).
-/

namespace Violable

theorem Acceptor.prune_eq_self_iff {m : Acceptor} {dead : List Arc} (h : ∀ t ∈ dead, t ∈ m.arcs) :
    m.prune dead = m ↔ dead = [] := by
  refine ⟨fun hself => List.eq_nil_iff_forall_not_mem.2 fun t ht => ?_,
    fun hnil => hnil ▸ prune_nil⟩
  have hkept : t ∈ (m.prune dead).arcs := hself.symm ▸ h t ht
  exact (mem_arcs_of_mem_arcs_prune hkept).2 ht

/-- Candidates of this kind are left as they are only if none of their elements are pruned. -/
def Candidate.ShowsPruning (σ : Type) {ε : Type} [Candidate σ ε] : Prop :=
  ∀ (s : σ) (illFormed : List ε), (∀ e ∈ illFormed, e ∈ Candidate.elements s) →
    (Candidate.prune s illFormed = s ↔ illFormed = [])

theorem Acceptor.showsPruning : Candidate.ShowsPruning Acceptor :=
  fun _ _ h => prune_eq_self_iff h

theorem Tree.showsPruning : Candidate.ShowsPruning Tree :=
  fun _ _ h => pruneIn_eq_self_iff fun n hn => (List.mem_filter.1 (h n hn)).1

namespace Grammar

variable {σ ε H : Type} [Scale H] [Element ε] [DecidableEq ε] [Candidate σ ε] {g : Grammar ε H}

theorem mem_elements_of_mem_illFormed {s : σ} {r : Result ε H} (h : g.evaluate s = .ok r) {e : ε}
    (he : e ∈ r.illFormed) : e ∈ Candidate.elements s := by
  rw [Result.illFormed_ofMarkup (evaluate_eq_ok.1 h).2, markup_eq_eval] at he
  obtain ⟨d, hd, rfl⟩ := List.mem_map.1 he
  obtain ⟨e, he, -, rfl⟩ := Evaluator.mem_entries_eval.1 (List.mem_filter.1 hd).1
  rwa [Evaluator.mark, Marked.element_ofMarks]

/-- A candidate comes out of pruning as it went in exactly if nothing was found ill-formed. -/
theorem candidate_eq_self_iff (hσ : Candidate.ShowsPruning σ) {s : σ} {r : Result ε H}
    (h : g.evaluate s = .ok r) : Candidate.prune s r.illFormed = s ↔ r.isWellFormed := by
  rw [hσ s r.illFormed fun _ he => mem_elements_of_mem_illFormed h he, Result.isWellFormed,
    List.isEmpty_iff]

/-- The candidate can be judged, and nothing in it is ill-formed. -/
def clean (g : Grammar ε H) (s : σ) : Bool :=
  match g.evaluate s with
  | .ok r => r.isWellFormed
  | .error _ => false

/-- All candidates are judged, and the clean ones are kept. -/
theorem select_eq_filter (g : Grammar ε H) (l : List σ) :
    g.select l = (l.mapM g.evaluate).map fun _ => l.filter g.clean := by
  induction l with
  | nil => rfl
  | cons s l ih =>
    rw [select, ih, List.mapM_cons]
    rcases hr : g.evaluate s with e | r
    · rfl
    · have hclean : g.clean s = r.isWellFormed := by rw [clean, hr]
      rw [List.filter_cons, hclean]
      cases l.mapM g.evaluate <;> rfl

theorem select_eq_ok {l kept : List σ} : g.select l = .ok kept ↔
    (∀ s ∈ l, ∃ r, g.evaluate s = .ok r) ∧ l.filter g.clean = kept := by
  rw [select_eq_filter, map_eq_ok, exists_and_right, exists_mapM]

theorem select_eq_error {l : List σ} {e : ScoringError} : g.select l = .error e ↔
    ∃ before s after, l = before ++ s :: after ∧ (∀ t ∈ before, ∃ r, g.evaluate t = .ok r) ∧
      g.evaluate s = .error e := by
  rw [select_eq_filter, map_eq_error, mapM_eq_error]

variable [DecidableEq σ]

/-- Selecting keeps those of the candidates that pruning leaves as they are, which are those of
which pruning says that they are unchanged. It fails as the first candidate does that cannot be
judged. -/
def SelectsUnchanged (g : Grammar ε H) (l : List σ) : Prop :=
  (∀ kept, g.select l = .ok kept →
    (∀ s ∈ l, ∃ p, g.prune s = .ok p) ∧
      kept = l.filter (fun s => (g.prune s).map (·.candidate) = .ok s) ∧
      kept = l.filter (fun s => (g.prune s).map (·.isUnchanged) = .ok true)) ∧
  ∀ e, g.select l = .error e ↔
    ∃ before s after, l = before ++ s :: after ∧ (∀ t ∈ before, ∃ r, g.evaluate t = .ok r) ∧
      g.evaluate s = .error e

theorem selectsUnchanged (hσ : Candidate.ShowsPruning σ) (g : Grammar ε H) (l : List σ) :
    g.SelectsUnchanged l := by
  refine ⟨fun kept hkept => ?_, fun e => select_eq_error⟩
  obtain ⟨hall, rfl⟩ := select_eq_ok.1 hkept
  have hprune : ∀ s ∈ l, ∃ r, g.evaluate s = .ok r ∧
      g.prune s = .ok ⟨r, Candidate.prune s r.illFormed⟩ := by
    intro s hs
    obtain ⟨r, hr⟩ := hall s hs
    exact ⟨r, hr, prune_of_evaluate hr⟩
  refine ⟨fun s hs => ?_, List.filter_congr fun s hs => ?_, List.filter_congr fun s hs => ?_⟩
  · obtain ⟨r, -, hp⟩ := hprune s hs
    exact ⟨_, hp⟩
  · obtain ⟨r, hr, hp⟩ := hprune s hs
    have hcandidate : (g.prune s).map (·.candidate) = .ok (Candidate.prune s r.illFormed) := by
      rw [hp]
      rfl
    rw [clean, hr, hcandidate, Bool.eq_iff_iff, decide_eq_true_iff, Except.ok.injEq,
      candidate_eq_self_iff hσ hr]
  · obtain ⟨r, hr, hp⟩ := hprune s hs
    have hunchanged : (g.prune s).map (·.isUnchanged) = .ok r.isWellFormed := by
      rw [hp]
      rfl
    rw [clean, hr, hunchanged, Bool.eq_iff_iff, decide_eq_true_iff, Except.ok.injEq]

end Grammar

/-- Of several acceptors, and of several trees, those are selected that pruning leaves as they
are. -/
theorem Grammar.select_eq_unchanged {H : Type} [Scale H] (g : Grammar Arc H) (ms : List Acceptor)
    (g' : Grammar Node H) (ts : List Tree) : g.SelectsUnchanged ms ∧ g'.SelectsUnchanged ts :=
  ⟨selectsUnchanged Acceptor.showsPruning g ms, selectsUnchanged Tree.showsPruning g' ts⟩

/-- The grammar of trees whose phrases have one head each. -/
def Heads.grammar : Grammar Node Rat :=
  .ofBattery [Heads.exactlyOneHead] (.weighted ⟨SortedMap.insert ∅ "ExactlyOneHead" 1⟩)

/-- A phrase of two words, of which the first is its head or not. -/
def Heads.phrase (headed : Bool) : Tree :=
  .node "S" [.node (if headed then "A*" else "A") [.leaf "a"], .node "B" [.leaf "b"]]

theorem Grammar.select_eq_unchanged_heads :
    let good := Toy.twoStates
    let bad := Toy.contextAcceptor
    let headed := Heads.phrase true
    let headless := Heads.phrase false
    (∃ kept, Toy.oneB.select [good, bad, good] = .ok kept ∧ kept = [good, good] ∧
      kept = [good, bad, good].filter fun m =>
        (Toy.oneB.prune m).map (·.candidate) = .ok m) ∧
    ∃ kept, Heads.grammar.select [headed, headless, headed] = .ok kept ∧ kept = [headed, headed] ∧
      kept = [headed, headless, headed].filter fun t =>
        (Heads.grammar.prune t).map (·.candidate) = .ok t := by
  intro good bad headed headless
  have harcs : Toy.oneB.select [good, bad, good] = .ok [good, good] := by cbv
  have htrees : Heads.grammar.select [headed, headless, headed] = .ok [headed, headed] := by cbv
  obtain ⟨⟨hms, -⟩, ⟨hts, -⟩⟩ := select_eq_unchanged Toy.oneB [good, bad, good] Heads.grammar
    [headed, headless, headed]
  exact ⟨⟨_, harcs, rfl, (hms _ harcs).2.1⟩, _, htrees, rfl, (hts _ htrees).2.1⟩

end Violable
