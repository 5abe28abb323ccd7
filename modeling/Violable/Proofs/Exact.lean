import Mathlib.Algebra.Order.Ring.Rat
import Mathlib.Tactic.Linarith
import Violable.Proofs.Penalties

/-!
# Exact arithmetic

Over the rational numbers what is computed is a sum: the score of the marks on a subnode adds up
what each of them counts (`score_eq`), and its harmony is the score or zero, whichever is less
(`harmony_eq`). Penalties add up to a penalty (`cumulative_rat`), so an element clears only if
each of its subnodes does (`clears_iff_forall`).
-/

namespace Violable

theorem Harmony.cumulative_rat : Cumulative Rat where
  zero_le_zero := le_rfl
  le_zero_of_lt _ := le_of_lt
  penalty_le_zero := neg_nonpos.2 zero_le_one
  add_le_zero _ _ := add_nonpos
  zero_le_add_iff h k hh hk := by
    constructor
    · exact fun h => ⟨by linarith, by linarith⟩
    · exact fun h => add_nonneg h.1 h.2

namespace Weights

variable {w : Weights Rat} {marks : SortedSet Mark}

/-- The weight of a constraint, or zero if it has none. -/
def weightOf (w : Weights Rat) (name : String) : Rat := (w.get? name).getD 0

/-- What a mark counts. -/
def worth (w : Weights Rat) (m : Mark) : Rat := w.weightOf m.constraint * m.value

theorem weight_eq_ok {name : String} (h : (w.get? name).isSome) :
    w.weight name = .ok (w.weightOf name) := by
  obtain ⟨x, hx⟩ := Option.isSome_iff_exists.1 h
  rw [weight, weightOf, hx, Option.getD_some]

theorem score_eq (h : ∀ m ∈ marks, (w.get? m.constraint).isSome) :
    w.score marks = .ok (marks.toList.map w.worth).sum := by
  have hworth : (marks.toList.mapM fun m => (w.weight m.constraint).map (· * Scale.ofInt m.value)) =
      .ok (marks.toList.map w.worth) := by
    refine mapM_eq_ok_map fun m hm => ?_
    rw [weight_eq_ok (h m hm)]
    rfl
  rw [score_mapM, hworth, List.sum_eq_foldl]
  rfl

theorem harmony_eq (h : ∀ m ∈ marks, (w.get? m.constraint).isSome) :
    w.harmony marks = .ok (min 0 (marks.toList.map w.worth).sum) := by
  rw [harmony, score_eq h]
  rcases lt_or_ge (marks.toList.map w.worth).sum 0 with hs | hs
  · rw [min_eq_right hs.le]
    exact congrArg Except.ok (if_pos hs)
  · rw [min_eq_left hs]
    exact congrArg Except.ok (if_neg (not_lt.2 hs))

end Weights

namespace Semantics

variable {s : Semantics Rat}

variable {marks : SortedMap Subnode (SortedSet Mark)}

theorem clears_iff_forall (h : ∀ ms ∈ marks.values, ∃ x, s.subnodeHarmony ms = .ok x) :
    s.clears marks ↔ ∀ ms ∈ marks.values, s.subnodeHarmony ms = .ok 0 := by
  rw [Harmony.cumulative_rat.clears_iff h]
  refine forall₂_congr fun ms hms => ?_
  obtain ⟨x, hx⟩ := h ms hms
  have hle := Harmony.cumulative_rat.subnodeHarmony_le_zero hx
  rw [hx]
  constructor
  · intro hwell
    rw [le_antisymm hle (hwell x rfl)]
  · rintro ⟨⟩ y ⟨⟩
    exact le_rfl

end Semantics

/-- What is well-formed has nothing to add to the total. -/
theorem Result.total_ofScores {ε : Type} {scores : List (ε × Rat)} (h : ∀ p ∈ scores, p.2 ≤ 0) :
    (ofScores scores).total = (scores.map (·.2)).sum := by
  have htotal : (ofScores scores).total =
      ((scores.filter (! Harmony.isWellFormed ·.2)).map (·.2)).sum := by
    rw [List.sum_eq_foldl]
    rfl
  rw [htotal]
  clear htotal
  induction scores with
  | nil => rfl
  | cons p scores ih =>
    obtain ⟨hp, hscores⟩ := List.forall_mem_cons.1 h
    rw [List.map_cons, List.sum_cons, ← ih hscores]
    by_cases hwell : Harmony.isWellFormed p.2
    · have hzero : p.2 = 0 := le_antisymm hp (Harmony.isWellFormed_iff.1 hwell)
      rw [List.filter_cons_of_neg (by simp [hwell]), hzero, zero_add]
    · rw [List.filter_cons_of_pos (by simp [hwell]), List.map_cons, List.sum_cons]

end Violable
