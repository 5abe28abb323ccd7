import Mathlib
import Violable.Proofs.Configured
import Violable.Proofs.Explained
import Violable.Proofs.Rounding

/-!
# The culprit

Without a violation a score is zero or more (`zero_le_of_score`), so where a score is not zero or
more there is a violation to blame. The search for the heaviest one finds one that no other
outweighs (`Leads.step`, `leads_of_heaviest`). A harmony is below zero only if its score is, but a
score may also be no number at all, if what was added up was infinite on both sides: then nothing is
penalized, and a culprit is named all the same (`culprit_of_accepted`).
-/

namespace Violable

variable {H : Type} [Scale H]

theorem Harmony.Rounded.zero_le_sum (hH : Rounded H) {l : List H} (hl : ∀ h ∈ l, 0 ≤ h) :
    0 ≤ sum l :=
  sum_induction (P := (0 ≤ ·)) hH.zero_le_zero hH.add_nonneg hl

theorem Harmony.Rounded.lt_zero_iff (hH : Rounded H) {s : H} (hs : s ≤ s) : s < 0 ↔ ¬ 0 ≤ s :=
  ⟨fun hneg hle => hH.not_lt_of_le _ _ hle hneg,
    (hH.le_or_lt _ _ hH.zero_le_zero hs).resolve_left⟩

namespace Weights

variable {w : Weights H} {marks : SortedSet Mark}

/-- The tables that insertions and removals lead to. -/
inductive Accepted : Weights H → Prop
  | empty : Accepted empty
  | insert {w w' : Weights H} {name : String} {x : H} {old : Option H} (hw : Accepted w)
    (h : w.insert name x = .ok (old, w')) : Accepted w'
  | erase {w : Weights H} (name : String) (hw : Accepted w) : Accepted (w.erase name).2

theorem Accepted.isValid (hw : w.Accepted) {a : String} {x : H} (h : w.get? a = some x) :
    isValid x := by
  induction hw with
  | empty => cases h
  | @insert w w' name y old _ hins ih =>
    unfold Weights.insert at hins
    split at hins <;> rename_i hy
    · obtain ⟨-, rfl⟩ := Prod.mk.inj (Except.ok.inj hins)
      rw [get?, SortedMap.get?_insert] at h
      split at h
      · rwa [← Option.some.inj h]
      · exact ih h
    · cases hins
  | @erase w name _ ih =>
    rw [get?, Weights.erase, SortedMap.get?_erase] at h
    split at h
    · cases h
    · exact ih h

theorem accepted_ofPairs {pairs : List (String × H)} (h : ofPairs pairs = .ok w) : w.Accepted := by
  have hfold : ∀ v : Weights H, v.Accepted →
      pairs.foldlM (fun w p => (w.insert p.1 p.2).map (·.2)) v = .ok w → w.Accepted := by
    clear h
    induction pairs with
    | nil => exact fun v hv h => Except.ok.inj h ▸ hv
    | cons p pairs ih =>
      intro v hv h
      rw [List.foldlM_cons] at h
      rcases hins : v.insert p.1 p.2 with e | ⟨old, v'⟩ <;> rw [hins] at h
      · cases h
      · exact ih v' (hv.insert hins) h
  exact hfold empty .empty h

theorem accepted_ofList {pairs : List (String × H)} (h : ∀ p ∈ pairs, Weights.isValid p.2 = true) :
    Accepted ⟨SortedMap.ofList pairs⟩ :=
  accepted_ofPairs (ofPairs_eq_ok h)

/-- What a mark counts on the side on which it counts. -/
def penalty (w : Weights H) (m : Mark) : H := (w.get? m.constraint).getD 0 * Scale.ofInt |m.value|

omit [Scale H] in
theorem get?_of_weight {a : String} {x : H} (h : w.weight a = .ok x) : w.get? a = some x := by
  unfold weight at h
  rcases hx : w.get? a with _ | y <;> rw [hx] at h
  · cases h
  · exact congrArg some (Except.ok.inj h)

theorem penalty_eq {m : Mark} {x : H} (h : w.weight m.constraint = .ok x) :
    w.penalty m = x * Scale.ofInt |m.value| := by
  rw [penalty, get?_of_weight h, Option.getD_some]

/-- No mark in the list outweighs the one that was found. -/
def Leads (w : Weights H) (l : List Mark) : Option (Mark × H) → Prop
  | none => l = []
  | some (m, cost) => m ∈ l ∧ cost = w.penalty m ∧ ∀ m' ∈ l, w.penalty m' ≤ cost

section Blame

variable (hH : Harmony.Rounded H)

include hH

theorem zero_le_of_score (hpos : ∀ m ∈ marks, 0 ≤ w.penalty m)
    (hnone : ∀ m ∈ marks, m.isViolation = false) {s : H} (hs : w.score marks = .ok s) : 0 ≤ s := by
  rw [score_mapM] at hs
  obtain ⟨l, hl, rfl⟩ := map_eq_ok.1 hs
  refine hH.zero_le_sum fun y hy => ?_
  obtain ⟨m, hm, hy⟩ := (forall_exists_of_mapM hl).2 y hy
  obtain ⟨x, hx, rfl⟩ := map_eq_ok.1 hy
  have hvalue : |m.value| = m.value := abs_of_nonneg (by simpa [Mark.isViolation] using hnone m hm)
  rw [← hvalue, ← penalty_eq hx]
  exact hpos m hm

theorem Leads.step {l : List Mark} {best : Option (Mark × H)} {m : Mark} (h : w.Leads l best)
    (hpos : ∀ m' ∈ l ++ [m], 0 ≤ w.penalty m') :
    w.Leads (l ++ [m]) (if best.all (·.2 < w.penalty m) then some (m, w.penalty m) else best) := by
  have hself : w.penalty m ≤ w.penalty m := (hH.le_self _ _ (hpos m (by simp))).2
  rcases best with _ | ⟨lead, cost⟩
  · obtain rfl : l = [] := h
    simp [Leads, hself]
  obtain ⟨hmem, rfl, hmax⟩ := h
  have hlead : w.penalty lead ≤ w.penalty lead := hmax lead hmem
  rw [Option.all_some]
  by_cases hlt : w.penalty lead < w.penalty m
  · rw [if_pos (decide_eq_true hlt)]
    refine ⟨by simp, rfl, fun m' hm' => ?_⟩
    rcases List.mem_append.1 hm' with hm' | hm'
    · exact hH.le_trans _ _ _ (hmax m' hm') (hH.le_of_lt _ _ hlt)
    · rwa [List.mem_singleton.1 hm']
  · rw [if_neg (by simpa using hlt)]
    refine ⟨by simp [hmem], rfl, fun m' hm' => ?_⟩
    rcases List.mem_append.1 hm' with hm' | hm'
    · exact hmax m' hm'
    · rw [List.mem_singleton.1 hm']
      exact (hH.le_or_lt _ _ hself hlead).resolve_right hlt

theorem leads_of_heaviest {seen l : List Mark} {best best' : Option (Mark × H)}
    (h : w.Leads seen best) (hpos : ∀ m ∈ seen ++ l, 0 ≤ w.penalty m)
    (hbad : ∀ m ∈ l, m.isViolation) (hbest : w.heaviest best l = .ok best') :
    w.Leads (seen ++ l) best' := by
  induction l generalizing seen best with
  | nil =>
    rw [heaviest] at hbest
    rwa [List.append_nil, ← Except.ok.inj hbest]
  | cons m l ih =>
    obtain ⟨hm, hl⟩ := List.forall_mem_cons.1 hbad
    rw [heaviest] at hbest
    rcases hx : w.weight m.constraint with e | x <;> rw [hx] at hbest
    · cases hbest
    have hneg : m.value < 0 := by simpa [Mark.isViolation] using hm
    -- the search multiplies two negated numbers, which cancels exactly
    have hcost : -x * Scale.ofInt m.value = w.penalty m := by
      rw [hH.neg_mul x _ hneg, penalty_eq hx, abs_of_neg hneg]
    simp only [hcost] at hbest
    rw [List.append_cons] at hpos ⊢
    refine ih (h.step hH fun m' hm' => hpos m' (List.mem_append_left l hm')) hpos hl ?_
    rw [← hbest]
    split <;> rfl

omit hH in
theorem harmony_of_score {s h : H} (hs : w.score marks = .ok s) (hh : w.harmony marks = .ok h) :
    h = if s < 0 then s else 0 := by
  rw [harmony, hs] at hh
  exact (Except.ok.inj hh).symm

/-- A harmony is below zero just where the score is. -/
theorem harmony_lt_zero_iff {s h : H} (hs : w.score marks = .ok s) (hh : w.harmony marks = .ok h) :
    h < 0 ↔ s < 0 := by
  rw [harmony_of_score hs hh]
  split <;> rename_i hneg
  · exact Iff.rfl
  · exact iff_of_false (hH.not_lt_of_le _ _ hH.zero_le_zero) hneg

/-- A culprit is named where the score is not zero or more, and it is the heaviest violation. -/
theorem culprit (hpos : ∀ m ∈ marks, 0 ≤ w.penalty m) {s : H} {c : Option String}
    (hs : w.score marks = .ok s) (hc : w.decisive? marks = .ok c) :
    (c.isSome ↔ ¬ 0 ≤ s) ∧ ∀ a ∈ c, ∃ m ∈ marks, m.constraint = a ∧ m.isViolation ∧
      ∀ m' ∈ marks, m'.isViolation → w.penalty m' ≤ w.penalty m := by
  unfold decisive? at hc
  rw [hs] at hc
  simp only [] at hc
  split at hc <;> rename_i hzero
  · rw [← Except.ok.inj hc]
    exact ⟨iff_of_false Bool.false_ne_true (not_not.2 hzero), by simp⟩
  obtain ⟨best, hbest, rfl⟩ := map_eq_ok.1 hc
  have hmem : ∀ m, m ∈ marks.toList.filter (·.isViolation) ↔ m ∈ marks ∧ m.isViolation :=
    fun m => List.mem_filter
  have hnil : w.Leads [] none := rfl
  have hleads : w.Leads ([] ++ marks.toList.filter (·.isViolation)) best :=
    leads_of_heaviest hH hnil (fun m hm => hpos m ((hmem m).1 hm).1)
      (fun m hm => ((hmem m).1 hm).2) hbest
  rcases best with _ | ⟨m, cost⟩
  -- if nothing was found then nothing is violated, and the score would be zero or more
  · refine absurd (zero_le_of_score hH hpos (fun m hm => ?_) hs) hzero
    have hnot : m ∉ marks.toList.filter (·.isViolation) := by
      rw [show marks.toList.filter (·.isViolation) = [] from hleads]
      exact List.not_mem_nil
    simpa [hmem, hm] using hnot
  · obtain ⟨hm, rfl, hmax⟩ := hleads
    obtain ⟨hm, hbad⟩ := (hmem m).1 hm
    refine ⟨iff_of_true rfl hzero, fun a ha => ⟨m, hm, by simpa using ha, hbad, ?_⟩⟩
    exact fun m' hm' hbad' => hmax m' ((hmem m').2 ⟨hm', hbad'⟩)

end Blame

/-- With floating-point numbers a culprit is named where the harmony is below zero, and also where
the score is no number and nothing is penalized. It is a violation that no other outweighs. The
marks have values of eight bits. -/
theorem culprit_of_accepted {w : Weights Float} (hw : w.Accepted) {marks : SortedSet Mark}
    (hvalues : ∀ m ∈ marks, -128 ≤ m.value ∧ m.value < 128)
    (hweighed : ∀ m ∈ marks, w.contains m.constraint) :
    ∃ s h c, w.score marks = .ok s ∧ w.harmony marks = .ok h ∧ w.decisive? marks = .ok c ∧
      (c.isSome ↔ h < 0 ∨ s.isNaN) ∧ (s.isNaN → h = 0) ∧
      ∀ a ∈ c, ∃ m ∈ marks, m.constraint = a ∧ m.isViolation ∧
        ∀ m' ∈ marks, m'.isViolation → w.penalty m' ≤ w.penalty m := by
  have hH := Harmony.rounded_float
  have hpos : ∀ m ∈ marks, 0 ≤ w.penalty m := by
    intro m hm
    obtain ⟨x, hx⟩ := exists_weight.2 (hweighed m hm)
    obtain ⟨hlow, hhigh⟩ := hvalues m hm
    rw [penalty_eq hx]
    exact Rounding.zero_le_mul (hw.isValid (get?_of_weight hx)) (abs_nonneg _)
      (abs_le.2 ⟨hlow, hhigh.le⟩)
  obtain ⟨s, hs⟩ := exists_score.2 hweighed
  obtain ⟨h, hh⟩ := exists_harmony.2 hweighed
  obtain ⟨c, hc⟩ := Semantics.exists_decisive? (s := .weighted w) hh
  obtain ⟨hsome, hmax⟩ := culprit hH hpos hs hc
  have hneg : h < 0 ↔ s < 0 := harmony_lt_zero_iff hH hs hh
  have hsome : c.isSome ↔ ¬ 0 ≤ s := hsome
  refine ⟨s, h, c, hs, hh, hc, ?_, fun hnan => ?_, hmax⟩
  · rw [hsome, hneg]
    rcases hnan : s.isNaN
    · have hzero : s < 0 ↔ ¬ 0 ≤ s := hH.lt_zero_iff (Rounding.float_le_self_iff.2 hnan)
      rw [hzero]
      simp
    · refine iff_of_true (fun hzero => ?_) (.inr rfl)
      cases (Rounding.float_le_self_iff.1 (hH.le_self _ _ hzero).2).symm.trans hnan
  · refine (harmony_of_score hs hh).trans (if_neg fun hlt => ?_)
    cases (Rounding.float_le_self_iff.1 (hH.le_self _ _ (hH.le_of_lt _ _ hlt)).1).symm.trans hnan

def Toy.unlike : Weights Float :=
  ⟨SortedMap.ofList [("NoB", 1.5), ("NoBB", 4), ("PreferB", 2)]⟩

/-- Three light violations, a heavy one and a satisfaction. -/
def Toy.manyB : SortedSet Mark :=
  ((SortedSet.insert ∅ ⟨"NoB", -3, .root⟩).insert ⟨"NoBB", -1, .root⟩).insert ⟨"PreferB", 1, .root⟩

theorem culprit_of_accepted_manyB :
    Toy.unlike.harmony Toy.manyB = .ok (-6.5) ∧
      Toy.unlike.decisive? Toy.manyB = .ok (some "NoB") ∧
      ∃ m ∈ Toy.manyB, m.constraint = "NoB" ∧ m.isViolation ∧
        ∀ m' ∈ Toy.manyB, m'.isViolation → Toy.unlike.penalty m' ≤ Toy.unlike.penalty m := by
  have hw : Toy.unlike.Accepted := accepted_ofList (by decide +kernel)
  have hvalues : ∀ m ∈ Toy.manyB.toList, -128 ≤ m.value ∧ m.value < 128 := by decide +kernel
  have hweighed : ∀ m ∈ Toy.manyB.toList, Toy.unlike.contains m.constraint := by decide +kernel
  have hname : Toy.unlike.decisive? Toy.manyB = .ok (some "NoB") := by decide +kernel
  obtain ⟨s, h, c, -, -, hc, -, -, hmax⟩ := culprit_of_accepted hw hvalues hweighed
  obtain rfl := Except.ok.inj (hc.symm.trans hname)
  exact ⟨by decide +kernel, hname, hmax "NoB" rfl⟩

/-- The same weight for both constraints, a hundred times of which is too much to be a number. -/
def Toy.vast : Weights Float :=
  ⟨SortedMap.ofList [("NoB", .ofBits 0x7FE1CCF385EBC8A0), ("PreferB", .ofBits 0x7FE1CCF385EBC8A0)]⟩

def Toy.torn : SortedSet Mark :=
  (SortedSet.insert ∅ ⟨"NoB", -100, .root⟩).insert ⟨"PreferB", 100, .root⟩

/-- Both sides are infinite. Nothing is penalized, and there is a culprit. -/
theorem culprit_of_overflow :
    Toy.vast.Accepted ∧
      (∀ m ∈ Toy.torn, m.isZero = false ∧ -128 ≤ m.value ∧ m.value < 128 ∧
        Toy.vast.contains m.constraint) ∧
      Toy.vast.harmony Toy.torn = .ok 0 ∧ ¬ (0 : Float) < 0 ∧
      Toy.vast.decisive? Toy.torn = .ok (some "NoB") := by
  have hmarks : ∀ m ∈ Toy.torn.toList, m.isZero = false ∧ -128 ≤ m.value ∧ m.value < 128 ∧
      Toy.vast.contains m.constraint := by
    decide +kernel
  exact ⟨accepted_ofList (by decide +kernel), hmarks, by decide +kernel, by decide +kernel,
    by decide +kernel⟩

end Weights

end Violable
