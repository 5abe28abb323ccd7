import Mathlib
import Violable.Proofs.Exact
import Violable.Proofs.Ties

/-!
# Weights that dominate

If each constraint weighs more than all that come after it together, then the first of a list that
gave a mark decides the sign of the score (`exists_lead`), since the others cannot outweigh it
(`UnitMarks.abs_sum_le`). Ranks in the order of the list let the same mark decide, so weights and
ranks find the same elements ill-formed (`illFormed_eq_of_dominating`).
-/

namespace Violable

/-- Marks by constraints with these names, at most one by each, that only say yes or no. -/
structure UnitMarks (names : List String) (marks : List Mark) : Prop where
  nodup : (marks.map (·.constraint)).Nodup
  named : ∀ m ∈ marks, m.constraint ∈ names
  unit : ∀ m ∈ marks, m.value = 1 ∨ m.value = -1

namespace UnitMarks

variable {names : List String} {a : String} {marks : List Mark}

instance : Decidable (UnitMarks names marks) :=
  decidable_of_iff ((marks.map (·.constraint)).Nodup ∧ (∀ m ∈ marks, m.constraint ∈ names) ∧
      ∀ m ∈ marks, m.value = 1 ∨ m.value = -1)
    ⟨fun h => ⟨h.1, h.2.1, h.2.2⟩, fun h => ⟨h.nodup, h.named, h.unit⟩⟩

theorem sameSign (h : UnitMarks names marks) : Ranks.SameSign marks := by
  intro m hm m' hm' heq
  rw [List.inj_on_of_nodup_map h.nodup hm hm' heq]

/-- The first constraint gave a mark, or else those after it gave all there are. -/
theorem first (h : UnitMarks (a :: names) marks) :
    (∃ m rest, marks.Perm (m :: rest) ∧ m.constraint = a ∧ UnitMarks names rest) ∨
      UnitMarks names marks := by
  by_cases ha : ∃ m ∈ marks, m.constraint = a
  · obtain ⟨m, hm, rfl⟩ := ha
    have hperm := List.perm_cons_erase hm
    have hnodup := (hperm.map (·.constraint)).nodup_iff.1 h.nodup
    rw [List.map_cons, List.nodup_cons] at hnodup
    refine .inl ⟨m, marks.erase m, hperm, rfl, hnodup.2, fun m' hm' => ?_,
      fun m' hm' => h.unit m' (List.mem_of_mem_erase hm')⟩
    refine (List.mem_cons.1 (h.named m' (List.mem_of_mem_erase hm'))).resolve_left fun heq => ?_
    exact hnodup.1 (heq ▸ List.mem_map_of_mem hm')
  · refine .inr ⟨h.nodup, fun m hm => ?_, h.unit⟩
    exact (List.mem_cons.1 (h.named m hm)).resolve_left fun heq => ha ⟨m, hm, heq⟩

end UnitMarks

namespace Weights

variable {w : Weights Rat} {names : List String} {a : String}

/-- Every name has a weight, and it is above the sum of the weights of the names that follow. -/
def Dominating (w : Weights Rat) : List String → Prop
  | [] => True
  | a :: l => (∃ x, w.get? a = some x ∧ (l.map w.weightOf).sum < x) ∧ w.Dominating l

theorem Dominating.sum_lt (h : w.Dominating (a :: names)) :
    (names.map w.weightOf).sum < w.weightOf a := by
  obtain ⟨⟨x, hx, hlt⟩, -⟩ := h
  rwa [weightOf, hx, Option.getD_some]

theorem Dominating.isSome (h : w.Dominating names) : ∀ a ∈ names, (w.get? a).isSome := by
  induction names with
  | nil => exact fun a ha => absurd ha List.not_mem_nil
  | cons b l ih =>
    obtain ⟨⟨x, hx, -⟩, hl⟩ := h
    refine List.forall_mem_cons.2 ⟨?_, ih hl⟩
    rw [hx]
    rfl

theorem Dominating.sum_nonneg (h : w.Dominating names) : 0 ≤ (names.map w.weightOf).sum := by
  induction names with
  | nil => exact le_rfl
  | cons a l ih =>
    have hl := ih h.2
    rw [List.map_cons, List.sum_cons]
    exact add_nonneg (hl.trans h.sum_lt.le) hl

theorem abs_worth {m : Mark} (hunit : m.value = 1 ∨ m.value = -1) :
    |w.worth m| = |w.weightOf m.constraint| := by
  rw [worth]
  rcases hunit with h | h
  · rw [h, Int.cast_one, mul_one]
  · rw [h, Int.cast_neg, Int.cast_one, mul_neg_one, abs_neg]

/-- What is added to the worth of a mark does not change its sign if it is less than the weight. -/
theorem worth_add_neg_iff {m : Mark} (hunit : m.value = 1 ∨ m.value = -1) {t : Rat}
    (ht : |t| < w.weightOf m.constraint) : w.worth m + t < 0 ↔ m.isViolation = true := by
  obtain ⟨hlow, hhigh⟩ := abs_lt.1 ht
  rw [worth, Mark.isViolation, decide_eq_true_iff]
  rcases hunit with h | h
  · rw [h, Int.cast_one, mul_one]
    exact iff_of_false (by linarith) (by decide)
  · rw [h, Int.cast_neg, Int.cast_one, mul_neg_one]
    exact iff_of_true (by linarith) (by decide)

end Weights

section Lead

variable {w : Weights Rat} {names : List String} {marks : List Mark}

theorem UnitMarks.abs_sum_le (hw : w.Dominating names) (h : UnitMarks names marks) :
    |(marks.map w.worth).sum| ≤ (names.map w.weightOf).sum := by
  induction names generalizing marks with
  | nil =>
    obtain rfl : marks = [] := List.eq_nil_iff_forall_not_mem.2 fun m hm =>
      List.not_mem_nil (h.named m hm)
    exact abs_zero.le
  | cons a l ih =>
    have ha : 0 ≤ w.weightOf a := (Weights.Dominating.sum_nonneg hw.2).trans hw.sum_lt.le
    rw [List.map_cons, List.sum_cons]
    rcases h.first with ⟨m, rest, hperm, rfl, hrest⟩ | hl
    · have hunit := h.unit m (hperm.mem_iff.2 List.mem_cons_self)
      rw [(hperm.map w.worth).sum_eq, List.map_cons, List.sum_cons]
      calc |w.worth m + (rest.map w.worth).sum|
          ≤ |w.worth m| + |(rest.map w.worth).sum| := abs_add_le _ _
        _ ≤ w.weightOf m.constraint + (l.map w.weightOf).sum := by
          rw [Weights.abs_worth hunit, abs_of_nonneg ha]
          exact add_le_add_right (ih hw.2 hrest) _
    · exact (ih hw.2 hl).trans (le_add_of_nonneg_left ha)

/-- The mark of the first constraint that gave one has the sign of the score. -/
theorem exists_lead (hw : w.Dominating names) (h : UnitMarks names marks) (hne : marks ≠ []) :
    ∃ lead ∈ marks, ((marks.map w.worth).sum < 0 ↔ lead.isViolation = true) ∧
      ∃ n, (lead.constraint, n) ∈ Ranks.descending names ∧
        ∀ m ∈ marks, m ≠ lead → ∃ k < n, (m.constraint, k) ∈ Ranks.descending names := by
  induction names generalizing marks with
  | nil =>
    obtain ⟨m, hm⟩ := List.exists_mem_of_ne_nil marks hne
    exact absurd (h.named m hm) List.not_mem_nil
  | cons a l ih =>
    rcases h.first with ⟨lead, rest, hperm, rfl, hrest⟩ | hl
    · have hlead : lead ∈ marks := hperm.mem_iff.2 List.mem_cons_self
      refine ⟨lead, hlead, ?_, l.length + 1, List.mem_cons_self, fun m hm hdiff => ?_⟩
      · -- the other marks are of later constraints, so all of them together weigh less
        rw [(hperm.map w.worth).sum_eq, List.map_cons, List.sum_cons]
        exact Weights.worth_add_neg_iff (h.unit lead hlead)
          (lt_of_le_of_lt (UnitMarks.abs_sum_le hw.2 hrest) hw.sum_lt)
      · have hm' := (List.mem_cons.1 (hperm.mem_iff.1 hm)).resolve_left hdiff
        obtain ⟨k, hk⟩ := Ranks.exists_mem_descending (hrest.named m hm')
        exact ⟨k, Nat.lt_succ_of_le (Ranks.rank_le_of_mem_descending hk).2,
          List.mem_cons_of_mem _ hk⟩
    · obtain ⟨lead, hlead, hsign, n, hn, hlow⟩ := ih hw.2 hl hne
      refine ⟨lead, hlead, hsign, n, List.mem_cons_of_mem _ hn, fun m hm hdiff => ?_⟩
      obtain ⟨k, hk, hmem⟩ := hlow m hm hdiff
      exact ⟨k, hk, List.mem_cons_of_mem _ hmem⟩

end Lead

section Agreement

variable {w : Weights Rat} {names : List String} (hnodup : names.Nodup) (hw : w.Dominating names)

include hnodup hw

/-- Weights and ranks both find a harmony for the marks, and it is zero for both or for none. -/
theorem harmonies_of_dominating {marks : SortedSet Mark} (h : UnitMarks names marks.toList) :
    ∃ x y : Rat, w.harmony marks = .ok x ∧ (Ranks.ofDominanceOrder names).harmony marks = .ok y ∧
      (x = 0 ↔ y = 0) := by
  have hweights := Weights.harmony_eq fun m hm => hw.isSome _ (h.named m hm)
  have hranks : (Ranks.ofDominanceOrder names).Covers marks.toList := by
    intro m hm
    obtain ⟨n, hn⟩ := Ranks.exists_mem_descending (h.named m hm)
    exact ⟨n, (Ranks.get?_ofDominanceOrder hnodup).2 hn⟩
  rcases Ranks.harmony_cases (H := Rat) hranks h.sameSign with ⟨hnil, hy⟩ | ⟨n, group, ht, -⟩
  · refine ⟨_, _, hweights, hy, iff_of_true ?_ rfl⟩
    rw [hnil]
    rfl
  have hne : marks.toList ≠ [] := by
    obtain ⟨m, hm⟩ := List.exists_mem_of_ne_nil group ht.2.1
    exact List.ne_nil_of_mem (ht.mem.1 hm).1
  obtain ⟨lead, hlead, hsign, n, hn, hlow⟩ := exists_lead hw h hne
  refine ⟨_, _, hweights, Ranks.harmony_of_top (b := lead.isViolation) hranks h.sameSign hne
    fun n' group' ht' m hm => ?_, ?_⟩
  · by_cases hdiff : m = lead
    · rw [hdiff]
    · obtain ⟨k, hk, hmem⟩ := hlow m (ht'.mem.1 hm).1 hdiff
      have hdom := Ranks.dominates_eq_true.2 ⟨n, k, (Ranks.get?_ofDominanceOrder hnodup).2 hn,
        (Ranks.get?_ofDominanceOrder hnodup).2 hmem, hk⟩
      exact absurd hdom (ht'.not_dominates hlead hm)
  · rw [min_eq_left_iff, ← not_lt, hsign]
    cases lead.isViolation
    · exact iff_of_true Bool.false_ne_true rfl
    · exact iff_of_false (not_not.2 rfl) (by decide)

/-- The element has a harmony for both, and it clears for both or for none. -/
theorem clears_eq_of_dominating {marks : SortedMap Subnode (SortedSet Mark)}
    (h : ∀ ms ∈ marks.values, UnitMarks names ms.toList) :
    (∃ x, (Semantics.weighted w).elementHarmony marks = .ok x) ∧
      (∃ y : Rat, (Semantics.ranked (.ofDominanceOrder names)).elementHarmony marks = .ok y) ∧
      (Semantics.weighted w).clears marks =
        (Semantics.ranked (H := Rat) (.ofDominanceOrder names)).clears marks := by
  have hboth := fun ms hms => harmonies_of_dominating hnodup hw (h ms hms)
  have hweights : ∀ ms ∈ marks.values, ∃ x, (Semantics.weighted w).subnodeHarmony ms = .ok x := by
    intro ms hms
    obtain ⟨x, -, hx, -⟩ := hboth ms hms
    exact ⟨x, hx⟩
  have hranks : ∀ ms ∈ marks.values,
      ∃ y : Rat, (Semantics.ranked (.ofDominanceOrder names)).subnodeHarmony ms = .ok y := by
    intro ms hms
    obtain ⟨-, y, -, hy, -⟩ := hboth ms hms
    exact ⟨y, hy⟩
  refine ⟨Semantics.exists_elementHarmony.2 hweights,
    Semantics.exists_elementHarmony.2 hranks, ?_⟩
  rw [Bool.eq_iff_iff, Semantics.clears_iff_forall hweights, Semantics.clears_iff_forall hranks]
  refine forall₂_congr fun ms hms => ?_
  obtain ⟨x, y, hx, hy, hzero⟩ := hboth ms hms
  simp only [Semantics.subnodeHarmony, hx, hy, Except.ok.injEq, hzero]

end Agreement

/-- If each constraint weighs more than all that come after it together, and gives no more than one
mark to a subnode, which only says yes or no, then weights and ranks in the order of the list find
the same elements ill-formed. -/
theorem illFormed_eq_of_dominating {ε : Type} {names : List String} {w : Weights Rat}
    {m : Markup ε} (hnodup : names.Nodup) (hsize : names.length < UInt32.size)
    (hw : w.Dominating names)
    (hm : ∀ d ∈ m.entries, ∀ ms ∈ d.marks.values, UnitMarks names ms.toList) :
    (∀ a n, (Ranks.ofDominanceOrder names).get? a = some n → n < UInt32.size) ∧
      ∃ r r' : Result ε Rat, Result.ofMarkup (.weighted w) m = .ok r ∧
        Result.ofMarkup (.ranked (.ofDominanceOrder names)) m = .ok r' ∧
        r.illFormed = r'.illFormed := by
  have hall := fun d hd => clears_eq_of_dominating hnodup hw (hm d hd)
  refine ⟨fun a n hn => ?_, ?_⟩
  · have hle := Ranks.rank_le_of_mem_descending ((Ranks.get?_ofDominanceOrder hnodup).1 hn)
    exact Nat.lt_of_le_of_lt hle.2 hsize
  obtain ⟨r, hr⟩ := Result.exists_ofMarkup.2 fun d hd => (hall d hd).1
  obtain ⟨r', hr'⟩ := Result.exists_ofMarkup.2 fun d hd => (hall d hd).2.1
  refine ⟨r, r', hr, hr', ?_⟩
  rw [Result.illFormed_ofMarkup hr, Result.illFormed_ofMarkup hr']
  congr 1
  refine List.filter_congr fun d hd => ?_
  rw [(hall d hd).2.2]

def toyOrder : List String := ["PreferB", "NoB", "NoBB"]

def toyWeights : Weights Rat := ⟨SortedMap.ofList [("PreferB", 4), ("NoB", 2), ("NoBB", 1)]⟩

/-- In the first entry the two lighter constraints are outweighed, in the second one they are
alone and do not agree. -/
def toyMarkup : Markup String :=
  ⟨[.ofMarks "b" [⟨"NoB", -1, .root⟩, ⟨"NoBB", -1, .root⟩, ⟨"PreferB", 1, .root⟩],
    .ofMarks "bb" [⟨"NoB", -1, .named "coda"⟩, ⟨"NoBB", 1, .named "coda"⟩,
      ⟨"PreferB", 1, .root⟩]], 0⟩

theorem illFormed_eq_of_dominating_toy :
    (Result.ofMarkup (.weighted toyWeights) toyMarkup).map (·.illFormed) = .ok ["bb"] ∧
    ∃ r r' : Result String Rat, Result.ofMarkup (.weighted toyWeights) toyMarkup = .ok r ∧
      Result.ofMarkup (.ranked (.ofDominanceOrder toyOrder)) toyMarkup = .ok r' ∧
      r.illFormed = r'.illFormed := by
  have hw : toyWeights.Dominating toyOrder := by
    refine ⟨⟨4, ?_, ?_⟩, ⟨2, ?_, ?_⟩, ⟨1, ?_, ?_⟩, trivial⟩ <;> decide +kernel
  have hm : ∀ d ∈ toyMarkup.entries, ∀ ms ∈ d.marks.values, UnitMarks toyOrder ms.toList := by
    decide +kernel
  refine ⟨by decide +kernel, ?_⟩
  exact (illFormed_eq_of_dominating (by decide) (by decide) hw hm).2

end Violable
