import Mathlib
import Violable.Proofs.Explained
import Violable.Proofs.Reordering
import Violable.Proofs.Reweighting
import Violable.Proofs.Verdict

/-!
# What a result counts

However a markup is built, each element has one entry, in the place where it was first judged
(`entries_of_built`). If harmonies below zero are those that are not well-formed (`Graded`), an
element is listed as ill-formed exactly if one of its subnodes has such a harmony
(`not_clears_eq_penalizes`), and the total tells whether anything is listed
(`total_le_zero`). In exact arithmetic the total adds up what all subnodes of all
elements are worth (`total_eq_sum`), since the well-formed ones add nothing.
-/

namespace Violable

variable {ε H : Type}

namespace Markup

variable [DecidableEq ε] {m : Markup ε} {judged : List ε}

/-- The markup is built by judging elements or by filing marks, in the order of the list. -/
inductive Built : List ε → Markup ε → Prop
  | empty : Built [] .empty
  | insert {judged : List ε} {m : Markup ε} (e : ε) (marks : List Mark) (h : Built judged m) :
    Built (judged ++ [e]) (m.insert (.ofMarks e marks))
  | eval (v : Evaluator ε) (l : List ε) : Built (l.filter (! v.ignores ·)) (v.eval l)
  | parEval (v : Evaluator ε) (l : List ε) : Built (l.filter (! v.ignores ·)) (v.parEval l)

theorem map_element_eval (v : Evaluator ε) (l : List ε) :
    (v.eval l).entries.map (·.element) = (l.filter (! v.ignores ·)).eraseDups := by
  rw [Evaluator.entries_eval_eraseDups, Evaluator.map_element_mark]

/-- Each element has one entry, in the place where it is first judged. -/
theorem entries_of_built (h : Built judged m) : m.entries.map (·.element) = judged.eraseDups := by
  induction h with
  | empty => rfl
  | insert e marks _ ih => exact map_element_insert ih e marks
  | eval v l => exact map_element_eval v l
  | parEval v l => rw [Evaluator.parEval_eq_eval, map_element_eval]

end Markup

variable [Scale H]

/-- Harmonies that are not above zero are below it if they are not zero or more. -/
structure Harmony.Graded (H : Type) [Scale H] : Prop extends Cumulative H where
  lt_zero_iff : ∀ h : H, h ≤ 0 → (h < 0 ↔ ¬ 0 ≤ h)

theorem Harmony.graded_rat : Graded Rat where
  toCumulative := cumulative_rat
  lt_zero_iff _ _ := not_le.symm

namespace Semantics

variable {s : Semantics H}

/-- Some subnode of the entry has a harmony below zero. -/
def penalizes (s : Semantics H) (d : Marked ε) : Bool :=
  d.marks.values.any fun ms =>
    match s.subnodeHarmony ms with
    | .ok h => h < 0
    | .error _ => false

theorem penalizes_iff {d : Marked ε} :
    s.penalizes d ↔ ∃ ms ∈ d.marks.values, ∃ h, s.subnodeHarmony ms = .ok h ∧ h < 0 := by
  rw [penalizes, List.any_eq_true]
  refine exists_congr fun ms => and_congr_right fun _ => ?_
  cases s.subnodeHarmony ms <;> simp

theorem not_clears_eq_penalizes (hH : Harmony.Graded H) {d : Marked ε}
    (h : ∃ x, s.elementHarmony d.marks = .ok x) : (! s.clears d.marks) = s.penalizes d := by
  have hsubnodes := exists_elementHarmony.1 h
  rw [Bool.eq_iff_iff, Bool.not_eq_true', ← Bool.not_eq_true, penalizes_iff,
    hH.toCumulative.clears_iff hsubnodes]
  push Not
  refine exists_congr fun ms => and_congr_right fun hms => exists_congr fun x =>
    and_congr_right fun hx => ?_
  rw [hH.lt_zero_iff x (hH.toCumulative.subnodeHarmony_le_zero hx)]

end Semantics

namespace Result

variable {s : Semantics H} {m : Markup ε} {r : Result ε H}

/-- The total is not above zero, and it is zero only if nothing is ill-formed. -/
theorem total_le_zero (hH : Harmony.Cumulative H) (h : ofMarkup s m = .ok r) :
    r.total ≤ 0 ∧ (0 ≤ r.total ↔ r.illFormed = []) := by
  obtain ⟨scores, hscores, rfl⟩ := ofMarkup_eq_ok.1 h
  let bad := scores.filter (! Harmony.isWellFormed ·.2)
  have hle : ∀ x ∈ bad.map (·.2), x ≤ 0 := by
    intro x hx
    obtain ⟨p, hp, rfl⟩ := List.mem_map.1 hx
    obtain ⟨d, -, hd⟩ := (forall_exists_of_mapM (mapM_eq_ok.2 hscores)).2 p
      (List.mem_filter.1 hp).1
    exact hH.elementHarmony_le_zero (Semantics.score_eq_ok.1 hd).2
  refine ⟨hH.sum_le_zero hle, ?_⟩
  have hzero : 0 ≤ (ofScores scores).total ↔ ∀ x ∈ bad.map (·.2), 0 ≤ x :=
    (hH.zero_le_foldl_add hle hH.zero_le_zero).trans (and_iff_right hH.zero_le_zero)
  have hill : (ofScores scores).illFormed = [] ↔ bad = [] := List.map_eq_nil_iff
  rw [hzero, hill]
  constructor
  · intro hall
    refine List.eq_nil_iff_forall_not_mem.2 fun p hp => ?_
    have hwell := Harmony.isWellFormed_iff.2 (hall p.2 (List.mem_map_of_mem hp))
    simpa [hwell] using (List.mem_filter.1 hp).2
  · intro hnil
    simp [hnil]

theorem total_of_illFormed (h : ofMarkup s m = .ok r) (hnil : r.illFormed = []) : r.total = 0 := by
  obtain ⟨scores, -, rfl⟩ := ofMarkup_eq_ok.1 h
  have hbad : scores.filter (! Harmony.isWellFormed ·.2) = [] := List.map_eq_nil_iff.1 hnil
  rw [ofScores, hbad]
  rfl

theorem evaluated_ofMarkup (h : ofMarkup s m = .ok r) : r.evaluated = m.size := by
  obtain ⟨scores, hscores, rfl⟩ := ofMarkup_eq_ok.1 h
  exact hscores.length_eq.symm

theorem illFormedCount_le (h : ofMarkup s m = .ok r) : r.illFormedCount ≤ r.evaluated := by
  rw [illFormedCount, evaluated_ofMarkup h, illFormed_ofMarkup h, List.length_map]
  exact List.length_filter_le _ _

/-- The ill-formed elements in the order in which they were first judged. -/
theorem illFormed_of_built [DecidableEq ε] (hH : Harmony.Graded H) {judged : List ε}
    (hm : Markup.Built judged m) (h : ofMarkup s m = .ok r) :
    r.illFormed = judged.eraseDups.filter fun e => (m.get? e).any s.penalizes := by
  have hentries := Markup.entries_of_built hm
  have hnodup : (m.entries.map (·.element)).Nodup := hentries ▸ nodup_eraseDups judged
  rw [illFormed_ofMarkup h, ← hentries, List.filter_map]
  refine congrArg (List.map Marked.element) (List.filter_congr fun d hd => ?_)
  rw [Semantics.not_clears_eq_penalizes hH (exists_ofMarkup.1 ⟨r, h⟩ d hd), Function.comp_apply,
    Markup.get?_of_mem hnodup hd, Option.any_some]

theorem exists_subnodeHarmony (h : ofMarkup s m = .ok r) :
    ∀ d ∈ m.entries, ∀ ms ∈ d.marks.values, ∃ x, s.subnodeHarmony ms = .ok x :=
  fun d hd => Semantics.exists_elementHarmony.1 (exists_ofMarkup.1 ⟨r, h⟩ d hd)

end Result

section Exact

variable {m : Markup ε} {r : Result ε Rat}

/-- The total adds up what each subnode of each element is worth. -/
theorem Result.total_eq_sum {s : Semantics Rat} {worth : SortedSet Mark → Rat}
    (hs : ∀ ms x, s.subnodeHarmony ms = .ok x → x = worth ms) (h : ofMarkup s m = .ok r) :
    r.total = (m.entries.map fun d => (d.marks.values.map worth).sum).sum := by
  obtain ⟨scores, hscores, rfl⟩ := ofMarkup_eq_ok.1 h
  have hscores := mapM_eq_ok.2 hscores
  have hle : ∀ p ∈ scores, p.2 ≤ 0 := by
    intro p hp
    obtain ⟨d, -, hd⟩ := (forall_exists_of_mapM hscores).2 p hp
    exact Harmony.cumulative_rat.elementHarmony_le_zero (Semantics.score_eq_ok.1 hd).2
  rw [total_ofScores hle]
  refine congrArg List.sum (map_eq_map_of_mapM hscores fun d p hd => ?_)
  have hp := (Semantics.score_eq_ok.1 hd).2
  rw [Semantics.elementHarmony_eq] at hp
  obtain ⟨l, hl, hsum⟩ := map_eq_ok.1 hp
  rw [← hsum, ← map_eq_map_of_mapM (g := id) hl fun ms x hx => hs ms x hx, List.map_id,
    List.sum_eq_foldl]
  rfl

theorem Weights.subnodeWorth_of_harmony {w : Weights Rat} {ms : SortedSet Mark} {x : Rat}
    (h : w.harmony ms = .ok x) : x = w.subnodeWorth ms :=
  Except.ok.inj (h.symm.trans (harmony_eq (exists_harmony.1 ⟨x, h⟩)))

theorem Markup.coveredBy_of_ofMarkup {w : Weights Rat}
    (h : Result.ofMarkup (.weighted w) m = .ok r) : m.CoveredBy w := by
  intro d hd y hy
  obtain ⟨ms, hms, hy⟩ := Marked.mem_allMarks.1 hy
  exact Weights.exists_harmony.1 (Result.exists_subnodeHarmony h d hd ms hms) y hy

theorem Ranks.sum_outcome {α : Type} (p : α → Bool) (l : List α) :
    (l.map fun a => (outcome (p a) : Rat)).sum = -(l.countP p : Rat) := by
  induction l with
  | nil => simp
  | cons a l ih =>
    rw [List.map_cons, List.sum_cons, ih, List.countP_cons]
    have hpenalty : (Harmony.penalty : Rat) = -1 := rfl
    cases p a
    · simp [outcome]
    · simp [outcome, hpenalty]

/-- How many subnodes of elements are led by a violation. -/
def Ranks.violatedCount (ranks : Ranks) (m : Markup ε) : Nat :=
  (m.entries.map fun d => d.marks.values.countP ranks.violated).sum

theorem Ranks.total_eq {ranks : Ranks} (h : Result.ofMarkup (.ranked ranks) m = .ok r) :
    r.total = -(ranks.violatedCount m : Rat) := by
  have hneg : ∀ l : List (Marked ε),
      (l.map fun d => -(d.marks.values.countP ranks.violated : Rat)).sum =
        -((l.map fun d => d.marks.values.countP ranks.violated).sum : Nat) := by
    intro l
    induction l with
    | nil => simp
    | cons d l ih =>
      rw [List.map_cons, List.sum_cons, ih, List.map_cons, List.sum_cons, Nat.cast_add, neg_add]
  have hworth : ∀ ms (x : Rat), (Semantics.ranked ranks).subnodeHarmony ms = .ok x →
      x = outcome (ranks.violated ms) := fun ms x hx => harmony_eq_ok hx
  rw [Result.total_eq_sum hworth h, violatedCount, ← hneg]
  simp only [sum_outcome]

end Exact

/-- However a markup is built, its result lists once each, in the order of judging, the elements
with a subnode whose harmony is below zero. It counts all elements, and its total is zero or below
zero as none or some are listed. In exact arithmetic the total adds up the harmonies of all
subnodes under weights, and takes off one for each subnode that a violation decides under ranks. -/
theorem Result.ofMarkup_of_built [DecidableEq ε] {judged : List ε} {m : Markup ε}
    (hm : Markup.Built judged m) :
    (∀ (H : Type) [Scale H], Harmony.Graded H → ∀ (s : Semantics H) (r : Result ε H),
      ofMarkup s m = .ok r →
        r.illFormed = judged.eraseDups.filter (fun e => (m.get? e).any s.penalizes) ∧
        r.illFormed.Nodup ∧ r.evaluated = m.size ∧ r.illFormedCount ≤ r.evaluated ∧
        r.total ≤ 0 ∧ (0 ≤ r.total ↔ r.illFormed = []) ∧ (r.total = 0 ↔ r.illFormed = [])) ∧
    (∀ (w : Weights Rat) (r : Result ε Rat), ofMarkup (.weighted w) m = .ok r →
      m.CoveredBy w ∧ r.total = (m.entries.map fun d => (d.marks.values.map fun ms =>
        min 0 (ms.toList.map fun x => w.weightOf x.constraint * x.value).sum).sum).sum) ∧
    ∀ (ranks : Ranks) (r : Result ε Rat), ofMarkup (.ranked ranks) m = .ok r →
      (∀ d ∈ m.entries, ∀ ms ∈ d.marks.values, ∃ v, ranks.decide? ms = .ok v ∧
        v.any (·.mark.isViolation) = ranks.violated ms) ∧
      r.total = -(ranks.violatedCount m : Rat) := by
  refine ⟨fun H _ hH s r hr => ?_, fun w r hr => ?_, fun ranks r hr => ⟨?_, Ranks.total_eq hr⟩⟩
  · have hill := illFormed_of_built hH hm hr
    obtain ⟨hle, hzero⟩ := total_le_zero hH.toCumulative hr
    refine ⟨hill, hill ▸ (nodup_eraseDups judged).filter _, evaluated_ofMarkup hr,
      illFormedCount_le hr, hle, hzero, fun htotal => ?_, total_of_illFormed hr⟩
    exact hzero.1 (htotal ▸ hH.zero_le_zero)
  · exact ⟨Markup.coveredBy_of_ofMarkup hr,
      total_eq_sum (s := .weighted w) (fun ms x hx => Weights.subnodeWorth_of_harmony hx) hr⟩
  · intro d hd ms hms
    obtain ⟨x, hx⟩ := exists_subnodeHarmony hr d hd ms hms
    obtain ⟨v, hv, -⟩ := map_eq_ok.1 hx
    exact ⟨v, hv, Ranks.decide?_eq_ok hv⟩

/-- A `b` that is filed twice, with marks on two subnodes, and an `a` between. -/
def Toy.filed : Markup String :=
  ((Markup.empty.insert (.ofMarks "b" [⟨"NoB", -1, .root⟩, ⟨"PreferB", 1, .root⟩])).insert
    (.ofMarks "a" [⟨"PreferB", 1, .root⟩])).insert (.ofMarks "b" [⟨"NoB", -2, .named "coda"⟩])

theorem Result.ofMarkup_of_built_filed :
    let ranks := Ranks.ofDominanceOrder ["PreferB", "NoB"]
    (∃ r, ofMarkup Toy.semantics Toy.filed = .ok r ∧ r.total = -8 ∧ r.illFormed = ["b"] ∧
      ["b"] = ["b", "a", "b"].eraseDups.filter
        (fun e => (Toy.filed.get? e).any Toy.semantics.penalizes) ∧ r.evaluated = Toy.filed.size) ∧
    ∃ r : Result String Rat, ofMarkup (.ranked ranks) Toy.filed = .ok r ∧ r.total = -1 ∧
      r.total = -(ranks.violatedCount Toy.filed : Rat) := by
  intro ranks
  have hm : Markup.Built ["b", "a", "b"] Toy.filed := .insert _ _ (.insert _ _ (.insert _ _ .empty))
  obtain ⟨hgraded, -, hranked⟩ := ofMarkup_of_built hm
  have hr : ofMarkup Toy.semantics Toy.filed = .ok ⟨-8, ["b"], 2⟩ := by cbv
  have hr' : ofMarkup (.ranked ranks) Toy.filed = .ok ⟨(-1 : Rat), ["b"], 2⟩ := by cbv
  obtain ⟨hill, -, hsize, -⟩ := hgraded Rat Harmony.graded_rat _ _ hr
  exact ⟨⟨_, hr, rfl, rfl, hill, hsize⟩, _, hr', rfl, (hranked _ _ hr').2⟩

end Violable
