import Mathlib.Logic.Function.Iterate
import Mathlib.Logic.Relation
import Violable.Acceptor.Reachable

/-!
# What a worklist reaches

`visit` keeps two promises. What it notes was noted before or comes after something on the list
(`mem_visit_sound`). And if all that was noted has its successors noted or on the list, then in
the end all that is noted has its successors noted (`visit_closed`). With nothing noted at first,
the two together say that `reachable` finds exactly what the edges lead to from the roots. A search
that is told step by step has nothing left to do after as many steps as there was to do at first
(`iterate_of_step`).
-/

namespace Violable

variable {α : Type}

/-- What each step keeps is kept by a run. If each step also takes one off from what is left, there
is as much less left after a run as it has steps, until nothing is left. -/
theorem iterate_of_step {P : α → Prop} {left : α → Nat} {step : α → α}
    (hstep : ∀ s, P s → P (step s) ∧ left (step s) = left s - 1) {s : α} (hs : P s) (n : Nat) :
    P (step^[n] s) ∧ left (step^[n] s) = left s - n := by
  induction n with
  | zero => exact ⟨hs, rfl⟩
  | succ n ih =>
    obtain ⟨hn, hleft⟩ := ih
    rw [Function.iterate_succ_apply']
    refine ⟨(hstep _ hn).1, ?_⟩
    rw [(hstep _ hn).2, hleft, Nat.sub_sub]

/-- Some edges, or none, lead from one thing to another. -/
abbrev Leads (edges : List (α × α)) : α → α → Prop :=
  Relation.ReflTransGen fun a b => (a, b) ∈ edges

variable [DecidableEq α] {edges : List (α × α)}

theorem mem_successors {a b : α} : b ∈ successors edges a ↔ (a, b) ∈ edges := by
  simp [successors]

/-- Nothing that is noted or on the list is lost. -/
theorem mem_visit_of_mem {seen todo : List α} {b : α} (hb : b ∈ seen ∨ b ∈ todo) :
    b ∈ visit edges seen todo := by
  fun_induction visit edges seen todo with
  | case1 => exact hb.resolve_right List.not_mem_nil
  | case2 seen a rest ha ih =>
    refine ih (hb.elim .inl fun hb => ?_)
    rcases List.mem_cons.1 hb with rfl | hb
    · exact .inl ha
    · exact .inr hb
  | case3 seen a rest ha ih =>
    refine ih (hb.elim (fun hb => .inl (List.mem_cons_of_mem _ hb)) fun hb => ?_)
    rcases List.mem_cons.1 hb with rfl | hb
    · exact .inl List.mem_cons_self
    · exact .inr (List.mem_append_right _ hb)

/-- What is noted in the end was noted before, or something on the list leads to it. -/
theorem mem_visit_sound {seen todo : List α} {b : α} (hb : b ∈ visit edges seen todo) :
    b ∈ seen ∨ ∃ a ∈ todo, Leads edges a b := by
  fun_induction visit edges seen todo with
  | case1 => exact .inl hb
  | case2 seen a rest ha ih =>
    exact (ih hb).imp_right fun ⟨c, hc, hcb⟩ => ⟨c, List.mem_cons_of_mem _ hc, hcb⟩
  | case3 seen a rest ha ih =>
    rcases ih hb with h | ⟨c, hc, hcb⟩
    · rcases List.mem_cons.1 h with rfl | h
      · exact .inr ⟨b, List.mem_cons_self, .refl⟩
      · exact .inl h
    · rcases List.mem_append.1 hc with hc | hc
      · exact .inr ⟨a, List.mem_cons_self, hcb.head (mem_successors.1 hc)⟩
      · exact .inr ⟨c, List.mem_cons_of_mem _ hc, hcb⟩

/-- A search that leaves no successor behind ends with nothing left to visit. -/
theorem visit_closed {seen todo : List α}
    (h : ∀ a ∈ seen, ∀ b ∈ successors edges a, b ∈ seen ∨ b ∈ todo) :
    ∀ a ∈ visit edges seen todo, ∀ b ∈ successors edges a, b ∈ visit edges seen todo := by
  fun_induction visit edges seen todo with
  | case1 seen => exact fun a ha b hb => (h a ha b hb).resolve_right List.not_mem_nil
  | case2 seen c rest hc ih =>
    refine ih fun a ha b hb => (h a ha b hb).elim .inl fun hb => ?_
    rcases List.mem_cons.1 hb with rfl | hb
    · exact .inl hc
    · exact .inr hb
  | case3 seen c rest hc ih =>
    refine ih fun a ha b hb => ?_
    rcases List.mem_cons.1 ha with rfl | ha
    · exact .inr (List.mem_append_left _ hb)
    · rcases h a ha b hb with hb | hb
      · exact .inl (List.mem_cons_of_mem _ hb)
      · rcases List.mem_cons.1 hb with rfl | hb
        · exact .inl List.mem_cons_self
        · exact .inr (List.mem_append_right _ hb)

/-- Exactly what some root leads to is reached. -/
theorem mem_reachable {roots : List α} {b : α} :
    b ∈ reachable edges roots ↔ ∃ a ∈ roots, Leads edges a b := by
  constructor
  · intro h
    exact (mem_visit_sound h).resolve_left List.not_mem_nil
  · rintro ⟨a, ha, hab⟩
    induction hab with
    | refl => exact mem_visit_of_mem (.inr ha)
    | tail _ hbc ih =>
      exact visit_closed (by simp) _ ih _ (mem_successors.2 hbc)

end Violable
