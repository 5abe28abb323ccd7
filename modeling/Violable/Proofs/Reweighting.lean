import Mathlib
import Violable.Proofs.Construction
import Violable.Proofs.Coverage

/-!
# Raising a weight

A constraint that only gives violations counts for less if its weight is raised, and so does all
that is added up from what it counts: the harmony of a subnode, of an element, and the total
(`ofMarkup_weighted`). What was ill-formed stays ill-formed. An acceptor then loses more arcs, and
there is no more left of it, whether or not the lighter weight left it untrimmed
(`less_left_of_raised`).
-/

namespace Violable

/-- The second table differs from the first one only in a weight, which it does not lower. -/
structure Weights.RaisedAt (c : String) (w w' : Weights Rat) : Prop where
  same : ∀ a, a ≠ c → w'.get? a = w.get? a
  le : ∀ x x', w.get? c = some x → w'.get? c = some x' → x ≤ x'

namespace Markup

variable {ε : Type} {H : Type}

/-- Every constraint that gave a mark has a weight. -/
def CoveredBy (m : Markup ε) (w : Weights H) : Prop :=
  ∀ d ∈ m.entries, ∀ x ∈ d.allMarks, w.contains x.constraint

/-- A constraint gave no mark that is not a violation. -/
def OnlyViolates (m : Markup ε) (c : String) : Prop :=
  ∀ d ∈ m.entries, ∀ x ∈ d.allMarks, x.constraint = c → x.isViolation

instance (m : Markup ε) (w : Weights H) : Decidable (m.CoveredBy w) :=
  inferInstanceAs (Decidable (∀ d ∈ m.entries, ∀ x ∈ d.allMarks, w.contains x.constraint))

instance (m : Markup ε) (c : String) : Decidable (m.OnlyViolates c) :=
  inferInstanceAs (Decidable (∀ d ∈ m.entries, ∀ x ∈ d.allMarks, x.constraint = c → x.isViolation))

end Markup

namespace Weights

variable {ε : Type} {c : String} {w w' : Weights Rat}

section Worth

/-- What the marks on a subnode cost together. -/
def subnodeWorth (w : Weights Rat) (marks : SortedSet Mark) : Rat :=
  min 0 (marks.toList.map w.worth).sum

/-- What the marks of an entry cost together. -/
def markedWorth (w : Weights Rat) (d : Marked ε) : Rat := (d.marks.values.map w.subnodeWorth).sum

theorem markedWorth_le_zero (d : Marked ε) : w.markedWorth d ≤ 0 := by
  calc (d.marks.values.map w.subnodeWorth).sum
      ≤ (d.marks.values.map fun _ => 0).sum := List.sum_le_sum fun _ _ => min_le_left _ _
    _ = 0 := by simp

theorem elementHarmony_eq {d : Marked ε} (h : ∀ x ∈ d.allMarks, w.contains x.constraint) :
    (Semantics.weighted w).elementHarmony d.marks = .ok (w.markedWorth d) := by
  have hsubnodes : d.marks.values.mapM (Semantics.weighted w).subnodeHarmony =
      .ok (d.marks.values.map w.subnodeWorth) :=
    mapM_eq_ok_map fun ms hms =>
      harmony_eq fun x hx => h x (Marked.mem_allMarks.2 ⟨ms, hms, hx⟩)
  rw [Semantics.elementHarmony_eq, hsubnodes, markedWorth, List.sum_eq_foldl]
  rfl

/-- What all entries cost together, and the elements of those that cost something. -/
def resultOf (w : Weights Rat) (m : Markup ε) : Result ε Rat :=
  ⟨(m.entries.map w.markedWorth).sum,
    (m.entries.filter (w.markedWorth · < 0)).map (·.element), m.size⟩

theorem ofScores_markedWorth (m : Markup ε) :
    Result.ofScores (m.entries.map fun d => (d.element, w.markedWorth d)) = w.resultOf m := by
  have htotal : (Result.ofScores (m.entries.map fun d => (d.element, w.markedWorth d))).total =
      (m.entries.map w.markedWorth).sum := by
    rw [Result.total_ofScores (List.forall_mem_map.2 fun d _ => w.markedWorth_le_zero d),
      List.map_map]
    rfl
  have hbad : (Result.ofScores (m.entries.map fun d => (d.element, w.markedWorth d))).illFormed =
      (m.entries.filter (w.markedWorth · < 0)).map (·.element) := by
    simp only [Result.ofScores, List.filter_map, List.map_map]
    refine congrArg (List.map Marked.element) (List.filter_congr fun d _ => ?_)
    simp [Harmony.isWellFormed, ← not_le]
  rw [resultOf, ← htotal, ← hbad]
  simp [Result.ofScores, Markup.size]

theorem ofMarkup_weighted {m : Markup ε} (h : m.CoveredBy w) :
    Result.ofMarkup (.weighted w) m = .ok (w.resultOf m) := by
  have hscores : m.entries.mapM (Semantics.weighted w).score =
      .ok (m.entries.map fun d => (d.element, w.markedWorth d)) :=
    mapM_eq_ok_map fun d hd => Semantics.score_eq_ok.2 ⟨rfl, elementHarmony_eq (h d hd)⟩
  rw [Result.ofMarkup_eq, hscores, ← ofScores_markedWorth]
  rfl

end Worth

section Raised

theorem RaisedAt.worth_le (hw : w.RaisedAt c w') {x : Mark} (h : w.contains x.constraint)
    (h' : w'.contains x.constraint) (hc : x.constraint = c → x.isViolation) :
    w'.worth x ≤ w.worth x := by
  obtain ⟨y, hy⟩ : ∃ y, w.get? x.constraint = some y := Option.isSome_iff_exists.1 h
  obtain ⟨y', hy'⟩ : ∃ y', w'.get? x.constraint = some y' := Option.isSome_iff_exists.1 h'
  rw [worth, worth, weightOf, weightOf, hy, hy', Option.getD_some, Option.getD_some]
  by_cases hx : x.constraint = c
  · have hneg : (x.value : Rat) ≤ 0 := by
      have hlt : x.value < 0 := by simpa [Mark.isViolation] using hc hx
      exact_mod_cast hlt.le
    exact mul_le_mul_of_nonpos_right (hw.le y y' (hx ▸ hy) (hx ▸ hy')) hneg
  · rw [hw.same _ hx, hy] at hy'
    rw [Option.some.inj hy']

theorem RaisedAt.markedWorth_le (hw : w.RaisedAt c w') {m : Markup ε} (h : m.CoveredBy w)
    (h' : m.CoveredBy w') (hc : m.OnlyViolates c) {d : Marked ε} (hd : d ∈ m.entries) :
    w'.markedWorth d ≤ w.markedWorth d := by
  refine List.sum_le_sum fun ms hms => min_le_min_left 0 (List.sum_le_sum fun x hx => ?_)
  have hx : x ∈ d.allMarks := Marked.mem_allMarks.2 ⟨ms, hms, hx⟩
  exact hw.worth_le (h d hd x hx) (h' d hd x hx) (hc d hd x hx)

theorem RaisedAt.illFormed_subset (hw : w.RaisedAt c w') {m : Markup ε} (h : m.CoveredBy w)
    (h' : m.CoveredBy w') (hc : m.OnlyViolates c) :
    (w.resultOf m).illFormed ⊆ (w'.resultOf m).illFormed := by
  refine List.map_subset _ fun d hd => ?_
  obtain ⟨hd, hneg⟩ := List.mem_filter.1 hd
  refine List.mem_filter.2 ⟨hd, decide_eq_true ?_⟩
  exact (hw.markedWorth_le h h' hc hd).trans_lt (of_decide_eq_true hneg)

end Raised

end Weights

/-- A grammar with other weights. -/
def Grammar.weighedBy {ε : Type} (g : Grammar ε Rat) (w : Weights Rat) : Grammar ε Rat :=
  { g with semantics := .weighted w }

theorem Grammar.evaluate_weighedBy {ε σ : Type} [Element ε] [DecidableEq ε] [Candidate σ ε]
    {g : Grammar ε Rat} {w : Weights Rat} {s : σ} (hg : ∀ a ∈ g.battery.names, w.contains a)
    (h : (g.markup s).CoveredBy w) :
    (g.weighedBy w).evaluate s = .ok (w.resultOf (g.markup s)) :=
  evaluate_eq_ok.2 ⟨Semantics.ensureCovers_eq_ok.2 hg, Weights.ofMarkup_weighted h⟩

/-- If the weight of a constraint is raised that only gives violations, no harmony rises and
nothing becomes well-formed. No more is then left of an acceptor that is pruned, and no more
strings are accepted. -/
theorem less_left_of_raised {c : String} {w w' : Weights Rat} (hw : w.RaisedAt c w') :
    (∀ {ε : Type} (m : Markup ε), m.CoveredBy w → m.CoveredBy w' → m.OnlyViolates c →
      (∀ d ∈ m.entries, ∃ x x', (Semantics.weighted w).elementHarmony d.marks = .ok x ∧
        (Semantics.weighted w').elementHarmony d.marks = .ok x' ∧ x' ≤ x) ∧
      ∃ r r', Result.ofMarkup (.weighted w) m = .ok r ∧
        Result.ofMarkup (.weighted w') m = .ok r' ∧ r'.total ≤ r.total ∧
        r.illFormed ⊆ r'.illFormed) ∧
    ∀ (g : Grammar Arc Rat) (m : Acceptor), m.Built →
      (∀ a ∈ g.battery.names, w.contains a ∧ w'.contains a) →
      (g.markup m).CoveredBy w → (g.markup m).CoveredBy w' → (g.markup m).OnlyViolates c →
      ∃ p p', (g.weighedBy w).prune m = .ok p ∧ (g.weighedBy w').prune m = .ok p' ∧
        p'.candidate.Within p.candidate ∧
        ∀ n s, s ∈ p'.candidate.accepted n → s ∈ p.candidate.accepted n := by
  constructor
  · intro ε m h h' hc
    refine ⟨fun d hd => ?_, _, _, Weights.ofMarkup_weighted h, Weights.ofMarkup_weighted h',
      List.sum_le_sum fun d hd => hw.markedWorth_le h h' hc hd, hw.illFormed_subset h h' hc⟩
    exact ⟨_, _, Weights.elementHarmony_eq (h d hd), Weights.elementHarmony_eq (h' d hd),
      hw.markedWorth_le h h' hc hd⟩
  · intro g m hm hg h h' hc
    have hp := Grammar.prune_of_evaluate
      (Grammar.evaluate_weighedBy (fun a ha => (hg a ha).1) h)
    have hp' := Grammar.prune_of_evaluate
      (Grammar.evaluate_weighedBy (fun a ha => (hg a ha).2) h')
    have hwithin := hm.closed.prune_within_prune (hw.illFormed_subset h h' hc)
    exact ⟨_, _, hp, hp', hwithin, fun n s hs => hwithin.accepted n hs⟩

/-- The weight of the constraint against `b`, beside a weight for the one that is for it. -/
def Toy.noBWeighs (x : Rat) : Weights Rat :=
  ⟨(SortedMap.insert ∅ "PreferB" 2).insert "NoB" x⟩

def Toy.oneLetter : Acceptor :=
  let arc (src : Nat) (label : String) (dest : Nat) : Arc := ⟨.ofNumber src, label, .ofNumber dest⟩
  (((((Acceptor.ofStart (.ofNumber 0)).addFinal (.ofNumber 1)).addArc (arc 0 "a" 1)).2.addArc
    (arc 0 "b" 1)).2.addArc (arc 1 "a" 2)).2

/-- With the lighter weight the acceptor keeps an arc that leads nowhere. -/
theorem less_left_of_raised_oneLetter :
    let g := Grammar.ofBattery [Toy.noB, Toy.preferB] (.weighted .empty)
    let m := Toy.oneLetter
    (∃ r r', Result.ofMarkup (.weighted (Toy.noBWeighs 1)) (g.markup m) = .ok r ∧
      Result.ofMarkup (.weighted (Toy.noBWeighs 3)) (g.markup m) = .ok r' ∧
      r'.total ≤ r.total ∧ r.illFormed ⊆ r'.illFormed) ∧
    ∃ p p', (g.weighedBy (Toy.noBWeighs 1)).prune m = .ok p ∧
      (g.weighedBy (Toy.noBWeighs 3)).prune m = .ok p' ∧
      p.isUnchanged = true ∧ p'.isUnchanged = false ∧ p'.candidate.Within p.candidate ∧
      ∀ n s, s ∈ p'.candidate.accepted n → s ∈ p.candidate.accepted n := by
  intro g m
  have hw : (Toy.noBWeighs 1).RaisedAt "NoB" (Toy.noBWeighs 3) := by
    refine ⟨fun a ha => ?_, fun x x' hx hx' => ?_⟩
    · simp [Toy.noBWeighs, Weights.get?, ha]
    · have hx : 1 = x := by simpa [Toy.noBWeighs, Weights.get?] using hx
      have hx' : 3 = x' := by simpa [Toy.noBWeighs, Weights.get?] using hx'
      rw [← hx, ← hx']
      norm_num
  have hm : m.Built := .addArc _ (.addArc _ (.addArc _ (.addFinal _ (.ofStart _))))
  have hg : ∀ a ∈ g.battery.names, (Toy.noBWeighs 1).contains a ∧ (Toy.noBWeighs 3).contains a := by
    decide
  have h : (g.markup m).CoveredBy (Toy.noBWeighs 1) := by
    decide +kernel
  have h' : (g.markup m).CoveredBy (Toy.noBWeighs 3) := by
    decide +kernel
  have hc : (g.markup m).OnlyViolates "NoB" := by
    decide +kernel
  obtain ⟨hmarkup, hprune⟩ := less_left_of_raised hw
  obtain ⟨p, p', hp, hp', hwithin, hstrings⟩ := hprune g m hm hg h h' hc
  have hlight : ((g.weighedBy (Toy.noBWeighs 1)).prune m).map (·.isUnchanged) = .ok true := by
    cbv
  have hheavy : ((g.weighedBy (Toy.noBWeighs 3)).prune m).map (·.isUnchanged) = .ok false := by
    cbv
  rw [hp] at hlight
  rw [hp'] at hheavy
  exact ⟨(hmarkup (g.markup m) h h' hc).2, p, p', hp, hp', Except.ok.inj hlight,
    Except.ok.inj hheavy, hwithin, hstrings⟩

end Violable
