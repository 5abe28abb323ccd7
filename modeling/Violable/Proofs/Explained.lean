import Mathlib
import Violable.Proofs.Exact
import Violable.Sample.Toy
import Violable.Scoring.Explanation

/-!
# What an explanation explains

An explanation asks more of each subnode than a result does, namely which constraint decided. That
never fails where there is a harmony (`exists_decisive?`), so the analysis of a subnode, and then
of an element, fails just where its harmony does and with the same error. Without its details an
explanation is the result (`toResult_ofMarkup`).
-/

namespace Violable

variable {ε H : Type} [Scale H]

section Decisive

variable {w : Weights H} {marks : SortedSet Mark}

theorem Weights.exists_heaviest {l : List Mark}
    (h : ∀ m ∈ l, w.contains m.constraint) (best : Option (Mark × H)) :
    ∃ best', w.heaviest best l = .ok best' := by
  induction l generalizing best with
  | nil => exact ⟨best, rfl⟩
  | cons m l ih =>
    obtain ⟨hm, hl⟩ := List.forall_mem_cons.1 h
    obtain ⟨x, hx⟩ := exists_weight.2 hm
    rw [heaviest, hx]
    simp only []
    split
    · exact ih hl _
    · exact ih hl _

/-- Where a harmony is found, it is also found what decided. -/
theorem Semantics.exists_decisive? {s : Semantics H} {h : H}
    (hs : s.subnodeHarmony marks = .ok h) : ∃ c, s.decisive? marks = .ok c := by
  cases s with
  | weighted w =>
    obtain ⟨t, ht, -⟩ := map_eq_ok.1 hs
    rw [decisive?, Weights.decisive?, ht]
    simp only []
    split
    · exact ⟨none, rfl⟩
    · obtain ⟨best, hbest⟩ := Weights.exists_heaviest
        (fun m hm => Weights.exists_score.1 ⟨t, ht⟩ m (List.mem_of_mem_filter hm)) none
      exact ⟨_, map_eq_ok.2 ⟨best, hbest, rfl⟩⟩
  | ranked r =>
    obtain ⟨v, hv, -⟩ := map_eq_ok.1 hs
    exact ⟨_, map_eq_ok.2 ⟨v, hv, rfl⟩⟩

end Decisive

variable {s : Semantics H}

theorem SubnodeAnalysis.map_harmony_ofMarks (p : Subnode) (marks : SortedSet Mark) :
    (ofMarks s p marks).map (·.harmony) = s.subnodeHarmony marks := by
  rw [ofMarks]
  cases hs : s.subnodeHarmony marks with
  | error e => rfl
  | ok h =>
    obtain ⟨c, hc⟩ := Semantics.exists_decisive? hs
    rw [hc]
    rfl

namespace ElementAnalysis

theorem ofMarked_eq (d : Marked ε) : ofMarked s d =
    (d.marks.entries.mapM fun e => SubnodeAnalysis.ofMarks s e.1 e.2).map fun subnodes =>
      ⟨d.element, Harmony.sum (subnodes.map (·.harmony)), subnodes⟩ := by
  rw [ofMarked]
  cases d.marks.entries.mapM fun e => SubnodeAnalysis.ofMarks s e.1 e.2 <;> rfl

/-- An analysis finds the harmony that is found without it, or fails in the same way. -/
theorem map_harmony_ofMarked (d : Marked ε) :
    (ofMarked s d).map (fun a => (a.element, a.harmony)) = s.score d := by
  have hsubnodes : (d.marks.entries.mapM fun e => SubnodeAnalysis.ofMarks s e.1 e.2).map
      (List.map (·.harmony)) = d.marks.values.mapM s.subnodeHarmony := by
    simp only [map_mapM, SubnodeAnalysis.map_harmony_ofMarks, SortedMap.values, List.mapM_map]
    rfl
  rw [ofMarked_eq, Semantics.score, Semantics.elementHarmony_eq, ← hsubnodes]
  cases d.marks.entries.mapM fun e => SubnodeAnalysis.ofMarks s e.1 e.2 <;> rfl

theorem ofMarked_eq_ok {d : Marked ε} {a : ElementAnalysis ε H} : ofMarked s d = .ok a ↔
    ∃ l, (d.marks.entries.mapM fun e => SubnodeAnalysis.ofMarks s e.1 e.2) = .ok l ∧
      ⟨d.element, Harmony.sum (l.map (·.harmony)), l⟩ = a := by
  rw [ofMarked_eq, map_eq_ok]

theorem isIllFormed_iff (hH : Harmony.Cumulative H) {d : Marked ε} {a : ElementAnalysis ε H}
    (h : ofMarked s d = .ok a) : a.isIllFormed ↔ ∃ b ∈ a.subnodes, b.isIllFormed := by
  obtain ⟨l, hl, rfl⟩ := ofMarked_eq_ok.1 h
  have hle : ∀ x ∈ l.map (·.harmony), x ≤ 0 := by
    intro x hx
    obtain ⟨b, hb, rfl⟩ := List.mem_map.1 hx
    obtain ⟨e, -, he⟩ := (forall_exists_of_mapM hl).2 b hb
    have hb : s.subnodeHarmony e.2 = .ok b.harmony := by
      rw [← SubnodeAnalysis.map_harmony_ofMarks e.1, he]
      rfl
    exact hH.subnodeHarmony_le_zero hb
  have hsum := hH.isWellFormed_sum hle
  simp only [isIllFormed, SubnodeAnalysis.isIllFormed, Bool.not_eq_true', ← Bool.not_eq_true,
    hsum, List.forall_mem_map, not_forall, exists_prop]

end ElementAnalysis

namespace Explanation

/-- What a result says of the elements that are explained. -/
def toResult (x : Explanation ε H) : Result ε H :=
  ⟨x.total, x.illFormed.map (·.element), x.elements.length⟩

theorem toResult_ofElements (name : String) (l : List (ElementAnalysis ε H)) :
    (ofElements name l).toResult = Result.ofScores (l.map fun a => (a.element, a.harmony)) := by
  simp only [toResult, ofElements, illFormed, Result.ofScores, List.filter_map, List.map_map,
    List.length_map]
  rfl

theorem toResult_ofMarkup (s : Semantics H) (m : Markup ε) :
    (ofMarkup s m).map toResult = Result.ofMarkup s m := by
  have hscores : (m.entries.mapM (ElementAnalysis.ofMarked s)).map
      (List.map fun a => (a.element, a.harmony)) = m.entries.mapM s.score := by
    simp only [map_mapM, ElementAnalysis.map_harmony_ofMarked]
  rw [Result.ofMarkup_eq, ← hscores, ofMarkup]
  cases m.entries.mapM (ElementAnalysis.ofMarked s) with
  | error e => rfl
  | ok l => exact congrArg Except.ok (toResult_ofElements s.name l)

theorem mapM_elements {s : Semantics H} {m : Markup ε} {x : Explanation ε H}
    (h : ofMarkup s m = .ok x) : m.entries.mapM (ElementAnalysis.ofMarked s) = .ok x.elements := by
  obtain ⟨l, hl, rfl⟩ := map_eq_ok.1 h
  exact hl

theorem map_element_elements {s : Semantics H} {m : Markup ε} {x : Explanation ε H}
    (h : ofMarkup s m = .ok x) : x.elements.map (·.element) = m.entries.map (·.element) := by
  refine map_eq_map_of_mapM (mapM_elements h) fun d a ha => ?_
  obtain ⟨l, -, rfl⟩ := ElementAnalysis.ofMarked_eq_ok.1 ha
  rfl

end Explanation

/-- An explanation is found where a result is, and both fail in the same way. It adds up to the
same total, explains the elements of the markup in order, and finds the same of them ill-formed.
As far as penalties accumulate, those are the elements that have an ill-formed subnode. -/
theorem explanation_agrees_with_result (s : Semantics H) (m : Markup ε) :
    (∀ e, Explanation.ofMarkup s m = .error e ↔ Result.ofMarkup s m = .error e) ∧
      ((∃ x, Explanation.ofMarkup s m = .ok x) ↔ ∃ r, Result.ofMarkup s m = .ok r) ∧
      ∀ x r, Explanation.ofMarkup s m = .ok x → Result.ofMarkup s m = .ok r →
        x.total = r.total ∧ x.illFormed.map (·.element) = r.illFormed ∧
          x.elements.map (·.element) = m.entries.map (·.element) ∧
          x.elements.length = r.evaluated ∧
          (Harmony.Cumulative H → ∀ a ∈ x.elements, a.isIllFormed ↔
            ∃ b ∈ a.subnodes, b.isIllFormed) := by
  have hresult := Explanation.toResult_ofMarkup s m
  refine ⟨fun e => ?_, ?_, fun x r hx hr => ?_⟩
  · rw [← hresult]
    cases Explanation.ofMarkup s m <;> simp [Except.map]
  · rw [← hresult]
    cases Explanation.ofMarkup s m <;> simp [Except.map]
  · have hxr : x.toResult = r := by
      rw [hx, hr] at hresult
      exact Except.ok.inj hresult
    refine ⟨congrArg Result.total hxr, congrArg Result.illFormed hxr,
      Explanation.map_element_elements hx, congrArg Result.evaluated hxr, fun hH a ha => ?_⟩
    obtain ⟨d, -, hd⟩ := (forall_exists_of_mapM (Explanation.mapM_elements hx)).2 a ha
    exact ElementAnalysis.isIllFormed_iff hH hd

/-- What there is for one subnode does not make up for what there is against the other. -/
def Toy.codaMarkup : Markup String :=
  ⟨[.ofMarks "ab" [⟨"NoB", -1, .named "coda"⟩, ⟨"PreferB", 4, .root⟩],
    .ofMarks "a" [⟨"PreferB", 1, .root⟩]], 0⟩

theorem explanation_agrees_with_result_codaMarkup :
    Result.ofMarkup Toy.semantics Toy.codaMarkup = .ok ⟨-3, ["ab"], 2⟩ ∧
    ∃ x, Explanation.ofMarkup Toy.semantics Toy.codaMarkup = .ok x ∧ x.total = -3 ∧
      x.illFormed.map (·.element) = ["ab"] ∧
      x.elements.map (·.element) = Toy.codaMarkup.entries.map (·.element) ∧
      x.elements.length = 2 ∧
      ∀ a ∈ x.elements, a.isIllFormed ↔ ∃ b ∈ a.subnodes, b.isIllFormed := by
  have hr : Result.ofMarkup Toy.semantics Toy.codaMarkup = .ok ⟨-3, ["ab"], 2⟩ := by cbv
  obtain ⟨-, hok, hsame⟩ := explanation_agrees_with_result Toy.semantics Toy.codaMarkup
  obtain ⟨x, hx⟩ := hok.2 ⟨_, hr⟩
  obtain ⟨htotal, hbad, helements, hsize, hparts⟩ := hsame x _ hx hr
  exact ⟨hr, x, hx, htotal, hbad, helements, hsize, hparts Harmony.cumulative_rat⟩

end Violable
