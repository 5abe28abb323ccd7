import Violable.Proofs.Judging

/-!
# Penalties accumulate

No subnode is ever rewarded (`subnodeHarmony_le_zero`), so nothing makes up for a penalty. All that
this takes of the numbers on which harmony is measured is that what is not above zero adds up to
what is not above zero, and to zero only where nothing is below it (`Cumulative`). Then a sum of
penalties is well-formed only if each of them is (`isWellFormed_sum`), and an element clears only if
each of its subnodes does (`clears_iff`).
-/

namespace Violable.Harmony

/-- What is assumed of numbers that may not be exact. A number that is not above zero is taken to
be zero if it is not below zero, as `isWellFormed` does. -/
structure Cumulative (H : Type) [Scale H] : Prop where
  zero_le_zero : (0 : H) ≤ 0
  le_zero_of_lt : ∀ h : H, h < 0 → h ≤ 0
  penalty_le_zero : (penalty : H) ≤ 0
  add_le_zero : ∀ h k : H, h ≤ 0 → k ≤ 0 → h + k ≤ 0
  zero_le_add_iff : ∀ h k : H, h ≤ 0 → k ≤ 0 → (0 ≤ h + k ↔ 0 ≤ h ∧ 0 ≤ k)

variable {H : Type} [Scale H]

theorem isWellFormed_iff {h : H} : isWellFormed h = true ↔ 0 ≤ h := by
  rw [isWellFormed, decide_eq_true_iff]

namespace Cumulative

variable (hH : Cumulative H)

include hH

theorem zero_le_foldl_add {l : List H} (hl : ∀ h ∈ l, h ≤ 0) {t : H} (ht : t ≤ 0) :
    0 ≤ l.foldl (· + ·) t ↔ 0 ≤ t ∧ ∀ h ∈ l, 0 ≤ h := by
  induction l generalizing t with
  | nil => simp
  | cons h l ih =>
    obtain ⟨hh, hl⟩ := List.forall_mem_cons.1 hl
    rw [List.foldl_cons, ih hl (hH.add_le_zero t h ht hh), hH.zero_le_add_iff t h ht hh,
      List.forall_mem_cons, and_assoc]

theorem sum_le_zero {l : List H} (hl : ∀ h ∈ l, h ≤ 0) : sum l ≤ 0 :=
  sum_induction (P := (· ≤ 0)) hH.zero_le_zero hH.add_le_zero hl

theorem isWellFormed_sum {l : List H} (hl : ∀ h ∈ l, h ≤ 0) :
    isWellFormed (sum l) ↔ ∀ h ∈ l, isWellFormed h := by
  simp only [isWellFormed_iff]
  exact (hH.zero_le_foldl_add hl hH.zero_le_zero).trans (and_iff_right hH.zero_le_zero)

/-- At best a subnode is not penalized. -/
theorem subnodeHarmony_le_zero {s : Semantics H} {marks : SortedSet Mark} {h : H}
    (hs : s.subnodeHarmony marks = .ok h) : h ≤ 0 := by
  cases s with
  | weighted w =>
    obtain ⟨t, -, rfl⟩ := map_eq_ok.1 hs
    split
    · exact hH.le_zero_of_lt t ‹_›
    · exact hH.zero_le_zero
  | ranked r =>
    obtain ⟨v, -, rfl⟩ := map_eq_ok.1 hs
    split
    · exact hH.penalty_le_zero
    · exact hH.zero_le_zero

section Element

variable {s : Semantics H} {marks : SortedMap Subnode (SortedSet Mark)}

theorem elementHarmony_le_zero {h : H} (hs : s.elementHarmony marks = .ok h) : h ≤ 0 := by
  rw [Semantics.elementHarmony_eq] at hs
  obtain ⟨l, hl, rfl⟩ := map_eq_ok.1 hs
  refine hH.sum_le_zero fun x hx => ?_
  obtain ⟨ms, -, hms⟩ := (forall_exists_of_mapM hl).2 x hx
  exact hH.subnodeHarmony_le_zero hms

theorem clears_iff (h : ∀ ms ∈ marks.values, ∃ x, s.subnodeHarmony ms = .ok x) :
    s.clears marks ↔ ∀ ms ∈ marks.values, ∀ x, s.subnodeHarmony ms = .ok x → 0 ≤ x := by
  obtain ⟨l, hl⟩ := exists_mapM.2 h
  obtain ⟨hfor, hback⟩ := forall_exists_of_mapM hl
  have hle : ∀ x ∈ l, x ≤ 0 := by
    intro x hx
    obtain ⟨ms, -, hms⟩ := hback x hx
    exact hH.subnodeHarmony_le_zero hms
  have hok : s.elementHarmony marks = .ok (sum l) := by rw [Semantics.elementHarmony_eq, hl]; rfl
  rw [Semantics.clears, hok]
  refine (hH.isWellFormed_sum hle).trans ?_
  simp only [isWellFormed_iff]
  constructor
  · intro hwell ms hms x hx
    obtain ⟨y, hy, hsy⟩ := hfor ms hms
    rw [Except.ok.inj (hx.symm.trans hsy)]
    exact hwell y hy
  · intro hwell x hx
    obtain ⟨ms, hms, hsx⟩ := hback x hx
    exact hwell ms hms x hsx

end Element

end Cumulative

end Violable.Harmony
