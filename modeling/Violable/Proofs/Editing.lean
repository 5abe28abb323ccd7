import Mathlib
import Violable.Proofs.Culprit
import Violable.Scoring.Edit

/-!
# Edited tables

An edit does to a table in place what the function of that name gives (`apply_insert`,
`apply_build`), and if it is refused then the table is as it was: an insertion tests the weight
before it writes, and a table of which only a part was built is not put in place. So whatever is
asked for, edits lead to no other tables than insertions and removals that succeed do
(`accepted_applyAll`), and no table has a weight that is not valid. Floating-point numbers are valid
if they are finite and not below zero (`isValid_iff`).
-/

namespace Violable

namespace SortedMap

variable {κ ν : Type} [DecidableEq κ] {k : κ} {v : ν}

theorem seek_eq_find? (k : κ) (l : List (κ × ν)) : seek k l = (l.find? (·.1 = k)).map (·.2) := by
  induction l with
  | nil => rfl
  | cons e l ih =>
    rw [seek, List.find?_cons]
    by_cases h : e.1 = k
    · simp [h]
    · simp [h, Ne.symm h, ih]

/-- What a key has in the table of a list is said by its last entry there. -/
theorem get?_ofList_eq_some [Ord κ] [Std.TransOrd κ] [Std.LawfulEqOrd κ] {l : List (κ × ν)} :
    (ofList l).get? k = some v ↔
      ∃ before after, l = before ++ (k, v) :: after ∧ ∀ e ∈ after, e.1 ≠ k := by
  rw [get?_ofList, seek_eq_find?, Option.map_eq_some_iff]
  constructor
  · rintro ⟨⟨j, w⟩, hfind, rfl⟩
    obtain ⟨hj, after, before, hl, hafter⟩ := List.find?_eq_some_iff_append.1 hfind
    obtain rfl : j = k := of_decide_eq_true hj
    refine ⟨before.reverse, after.reverse, ?_, fun e he => ?_⟩
    · rw [List.reverse_eq_iff.1 hl]
      simp
    · simpa using hafter e (List.mem_reverse.1 he)
  · rintro ⟨before, after, rfl, hafter⟩
    refine ⟨(k, v), List.find?_eq_some_iff_append.2 ⟨decide_eq_true rfl, after.reverse,
      before.reverse, by simp, fun e he => ?_⟩, rfl⟩
    simpa using hafter e (List.mem_reverse.1 he)

end SortedMap

namespace Weights

theorem isValid_iff {x : Float} : isValid x ↔ x.isFinite ∧ 0 ≤ x := by
  constructor
  · intro h
    exact ⟨(Bool.and_eq_true_iff.1 h).1, Rounding.zero_le_iff.2 (Rounding.isNonneg_of_isValid h).1⟩
  · rintro ⟨hfinite, hpos⟩
    have hneg : ¬ x < 0 := Harmony.rounded_float.not_lt_of_le 0 x hpos
    exact Bool.and_eq_true_iff.2 ⟨hfinite, congrArg (!·) (decide_eq_false hneg)⟩

variable {H : Type} {w : Weights H}

theorem increasing_names (w : Weights H) : StrictlyIncreasing w.names :=
  List.pairwise_map.2 w.table.increasing

variable [Scale H] {before after : List (String × H)} {name : String} {x : H}

theorem insert_eq_ok (h : isValid x = true) :
    w.insert name x = .ok (w.get? name, ⟨w.table.insert name x⟩) :=
  if_pos h

theorem insert_eq_error (h : ¬ isValid x = true) : w.insert name x = .error ⟨name, x⟩ :=
  if_neg h

theorem ofPairs_eq_error (h : ∀ p ∈ before, isValid p.2 = true) (hx : ¬ isValid x = true) :
    ofPairs (before ++ (name, x) :: after) = .error ⟨name, x⟩ := by
  have hbefore := ofPairs_eq_ok h
  rw [ofPairs] at hbefore ⊢
  rw [List.foldlM_append, hbefore]
  have hcons : ((name, x) :: after).foldlM (fun w p => (w.insert p.1 p.2).map (·.2))
      (⟨SortedMap.ofList before⟩ : Weights H) = .error ⟨name, x⟩ := by
    rw [List.foldlM_cons, insert_eq_error hx]
    rfl
  exact hcons

end Weights

namespace Edit

open Weights (Accepted)

variable {H : Type} [Scale H] {w : Weights H} {pairs : List (String × H)}

/-- A change of a table that is made in place, or not at all. -/
def inPlace {α : Type} (w : Weights H) :
    Except (InvalidWeight H) (α × Weights H) → Except (InvalidWeight H) α × Weights H
  | .ok (a, w') => (.ok a, w')
  | .error e => (.error e, w)

theorem set_on (name : String) (x : H) (w : Weights H) :
    (set name x).on w = inPlace w (w.insert name x) := by
  by_cases hx : Weights.isValid x = true
  · rw [Weights.insert_eq_ok hx, set, if_pos hx]
    rfl
  · rw [Weights.insert_eq_error hx, set, if_neg hx]
    rfl

omit [Scale H] in
theorem on_bind {α β : Type} (s : Steps H α) (f : α → Steps H β) (w : Weights H) :
    (s >>= f).on w = match s.on w with
      | (.ok a, w') => (f a).on w'
      | (.error e, w') => (.error e, w') := by
  simp only [Steps.on, ExceptT.run_bind, StateT.run_bind]
  rcases s.run.run w with ⟨_ | _, w'⟩ <;> rfl

/-- Setting the weights of a list in place gives the table that is made by insertions, and fails
where they do, but then some of the list is already in the table. -/
theorem setAll_on (pairs : List (String × H)) (w : Weights H) :
    match pairs.foldlM (fun w p => (w.insert p.1 p.2).map (·.2)) w with
    | .ok w' => (setAll pairs).on w = (.ok (), w')
    | .error e => ((setAll pairs).on w).1 = .error e := by
  induction pairs generalizing w with
  | nil => rfl
  | cons p pairs ih =>
    rw [List.foldlM_cons, setAll, on_bind, set_on]
    rcases w.insert p.1 p.2 with e | ⟨old, w'⟩
    · rfl
    · exact ih w'

theorem apply_insert (name : String) (x : H) (w : Weights H) :
    (insert name x).apply w = inPlace w (w.insert name x) :=
  set_on name x w

theorem apply_remove (name : String) (w : Weights H) :
    (remove name).apply w = (.ok (w.get? name), (w.erase name).2) :=
  rfl

theorem apply_build (pairs : List (String × H)) (w : Weights H) :
    (build pairs).apply w = inPlace w ((Weights.ofPairs pairs).map (none, ·)) := by
  have hall := setAll_on pairs .empty
  rw [← Weights.ofPairs] at hall
  rw [apply, steps]
  rcases h : Weights.ofPairs pairs with e | w' <;> rw [h] at hall
  · rcases hset : (setAll pairs).on .empty with ⟨_ | _, w'⟩ <;> rw [hset] at hall
    · obtain rfl := Except.error.inj hall
      rfl
    · cases hall
  · rw [hall]
    rfl

/-- No edit makes a table that insertions and removals could not. -/
theorem accepted_apply (hw : w.Accepted) (e : Edit H) : (e.apply w).2.Accepted := by
  cases e with
  | build pairs =>
    rw [apply_build]
    rcases h : Weights.ofPairs pairs with e | w'
    · exact hw
    · exact Weights.accepted_ofPairs h
  | insert name x =>
    rw [apply_insert]
    rcases h : w.insert name x with e | ⟨old, w'⟩
    · exact hw
    · exact hw.insert h
  | remove name => exact hw.erase name

theorem accepted_applyAll (edits : List (Edit H)) (hw : w.Accepted) :
    (applyAll edits w).Accepted := by
  induction edits generalizing w with
  | nil => exact hw
  | cons e edits ih => exact ih (accepted_apply hw e)

/-- Whatever is asked of a table that is empty at first, all weights in it are finite and not below
zero. What is refused is answered with the name and the weight that were offered, the first ones of
a list, and changes nothing. What is not refused changes the weight of the name and no other, or
makes a table in which each name has the weight that it was given last. The names are listed in
order and once, and coverage fails with the first name that has no weight. -/
theorem sound_applyAll (edits : List (Edit Float)) :
    let w := applyAll edits .empty
    (∀ a x, w.get? a = some x → x.isFinite ∧ 0 ≤ x) ∧
      (∀ a x, ¬ (x.isFinite ∧ 0 ≤ x) → (insert a x).apply w = (.error ⟨a, x⟩, w)) ∧
      (∀ a x, x.isFinite → 0 ≤ x → ∃ w', (insert a x).apply w = (.ok (w.get? a), w') ∧
        ∀ b, w'.get? b = if b = a then some x else w.get? b) ∧
      (∀ a, ∃ w', (remove a).apply w = (.ok (w.get? a), w') ∧
        ∀ b, w'.get? b = if b = a then none else w.get? b) ∧
      (∀ before a x after, (∀ p ∈ before, p.2.isFinite ∧ 0 ≤ p.2) → ¬ (x.isFinite ∧ 0 ≤ x) →
        (build (before ++ (a, x) :: after)).apply w = (.error ⟨a, x⟩, w)) ∧
      (∀ pairs, (∀ p ∈ pairs, p.2.isFinite ∧ 0 ≤ p.2) →
        ∃ w', (build pairs).apply w = (.ok none, w') ∧ ∀ a x, w'.get? a = some x ↔
          ∃ before after, pairs = before ++ (a, x) :: after ∧ ∀ p ∈ after, p.1 ≠ a) ∧
      StrictlyIncreasing w.names ∧ (∀ a, a ∈ w.names ↔ w.contains a) ∧
      (∀ names, (∀ a ∈ names, w.contains a) → w.ensureCovers names = .ok ()) ∧
      ∀ before a after, (∀ b ∈ before, w.contains b) → w.contains a = false →
        w.ensureCovers (before ++ a :: after) = .error (.missingWeight a) := by
  intro w
  have hw : w.Accepted := accepted_applyAll edits .empty
  simp only [← Weights.isValid_iff]
  refine ⟨fun a x => hw.isValid, fun a x hx => ?_, fun a x hfinite hpos => ?_,
    fun a => ⟨_, apply_remove a w, fun b => SortedMap.get?_erase⟩,
    fun before a x after hbefore hx => ?_, fun pairs hpairs => ?_, w.increasing_names,
    fun a => SortedMap.mem_keys, fun names h => ?_, fun before a after hbefore ha => ?_⟩
  · rw [apply_insert, Weights.insert_eq_error hx]
    rfl
  · have hx : Weights.isValid x = true := Weights.isValid_iff.2 ⟨hfinite, hpos⟩
    refine ⟨⟨w.table.insert a x⟩, ?_, fun b => SortedMap.get?_insert⟩
    rw [apply_insert, Weights.insert_eq_ok hx]
    rfl
  · rw [apply_build, Weights.ofPairs_eq_error hbefore hx]
    rfl
  · refine ⟨⟨.ofList pairs⟩, ?_, fun a x => SortedMap.get?_ofList_eq_some⟩
    rw [apply_build, Weights.ofPairs_eq_ok hpairs]
    rfl
  · exact (Semantics.ensureCovers_eq_ok (s := .weighted w)).2 h
  · exact (Semantics.ensureCovers_eq_error (s := .weighted w)).2
      ⟨before, a, after, rfl, hbefore, ha, rfl⟩

/-- Some weights are set, one of them twice, a list is refused at its second pair, and a weight is
removed and set again. -/
def Toy.edits : List (Edit Float) :=
  [.insert "PreferB" 0.5, .insert "NoB" 1.5, .insert "PreferB" 2,
    .build [("NoBB", 4), ("NoB", -1), ("NoB", 3)], .remove "NoB", .insert "NoBB" (0 / 0),
    .insert "NoB" 0.25]

theorem sound_applyAll_toy :
    let w := applyAll Toy.edits .empty
    w.names = ["NoB", "PreferB"] ∧ w.get? "NoB" = some 0.25 ∧ w.get? "PreferB" = some 2 ∧
      (∀ x, w.get? "PreferB" = some x → x.isFinite ∧ 0 ≤ x) ∧
      (insert "NoB" (-1)).apply w = (.error ⟨"NoB", -1⟩, w) ∧
      (build [("NoBB", 4), ("NoB", 1 / 0), ("NoB", -1)]).apply w = (.error ⟨"NoB", 1 / 0⟩, w) ∧
      (∃ w', (build [("NoB", 1), ("NoBB", 0), ("NoB", 3)]).apply w = (.ok none, w') ∧
        w'.get? "NoB" = some 3) ∧
      w.ensureCovers ["PreferB", "NoBB", "PreferA"] = .error (.missingWeight "NoBB") := by
  intro w
  obtain ⟨hstored, hinsert, -, -, hrefused, hbuilt, -, -, -, hcovers⟩ := sound_applyAll Toy.edits
  have hbefore : ∀ p ∈ [("NoBB", (4 : Float))], p.2.isFinite ∧ 0 ≤ p.2 := by decide +kernel
  obtain ⟨w', hw', hlast⟩ :=
    hbuilt [("NoB", 1), ("NoBB", 0), ("NoB", 3)] (by decide +kernel)
  exact ⟨by decide +kernel, by decide +kernel, by decide +kernel, hstored "PreferB",
    hinsert "NoB" (-1) (by decide +kernel),
    hrefused [("NoBB", 4)] "NoB" (1 / 0) [("NoB", -1)] hbefore (by decide +kernel),
    ⟨w', hw', (hlast "NoB" 3).2 ⟨[("NoB", 1), ("NoBB", 0)], [], rfl, nofun⟩⟩,
    hcovers ["PreferB"] "NoBB" ["PreferA"] (by decide +kernel) (by decide +kernel)⟩

end Edit

end Violable
