import Mathlib.Data.List.Basic
import Violable.Proofs.Parts
import Violable.Tree.Removal

/-!
# Removing nothing

What is left of a branch is the branch itself exactly if none of its nodes are removed
(`remove?_eq_self_iff`). For sisters this takes that there are never more of them than before, so
that one that is gone cannot be made up for. A tree is then left as it is by a removal exactly if
the removed numbers are beyond its nodes (`remove_eq_self_iff`), and by a pruning exactly if none of
its nodes are pruned (`pruneIn_eq_self_iff`).
-/

namespace Violable

namespace Branch

variable (removed : Nat → Bool)

theorem length_removeOf_le : ∀ (i : Nat) (bs : List Branch),
    (removeOf removed i bs).length ≤ bs.length
  | _, [] => Nat.le_refl 0
  | i, b :: bs => by
    have ih := length_removeOf_le (i + b.size) bs
    rw [removeOf]
    rcases b.remove? removed i with _ | k <;> simp <;> omega

/-- Sisters are all kept as they are only if each of them is. What is missing is not made up for, as
there are never more sisters than before. -/
theorem removeOf_cons_eq_self_iff {i : Nat} {b : Branch} {bs : List Branch} :
    removeOf removed i (b :: bs) = b :: bs ↔
      b.remove? removed i = some b ∧ removeOf removed (i + b.size) bs = bs := by
  have hlength := length_removeOf_le removed (i + b.size) bs
  rw [removeOf]
  rcases b.remove? removed i with _ | k
  · refine ⟨fun h => ?_, fun h => by simp at h⟩
    have h : removeOf removed (i + b.size) bs = b :: bs := h
    rw [h, List.length_cons] at hlength
    omega
  · simp

mutual

/-- A branch is left as it is exactly if none of its nodes are removed. -/
theorem remove?_eq_self_iff (i : Nat) (b : Branch) :
    b.remove? removed i = some b ↔ ∀ j, i ≤ j → j < i + b.size → removed j = false := by
  match b with
  | node l [] =>
    have hone : (∀ j, i ≤ j → j < i + (node l []).size → removed j = false) ↔
        removed i = false := by
      refine ⟨fun h => h i (Nat.le_refl i) (by simp [size]), fun h j hij hj => ?_⟩
      obtain rfl : j = i := by simp [size, sizes] at hj; omega
      exact h
    rw [hone, remove?]
    split <;> simp_all [leaf]
  | node l (d :: ds) =>
    have hsplit : (∀ j, i ≤ j → j < i + (node l (d :: ds)).size → removed j = false) ↔
        removed i = false ∧ removeOf removed (i + 1) (d :: ds) = d :: ds := by
      rw [removeOf_eq_self_iff, size_node]
      refine ⟨fun h => ⟨h i (Nat.le_refl i) (by omega), fun j hij hj => h j (by omega) (by omega)⟩,
        fun h j hij hj => ?_⟩
      rcases Nat.eq_or_lt_of_le hij with rfl | hij
      · exact h.1
      · exact h.2 j hij (by omega)
    rw [hsplit, remove?]
    rcases removed i with _ | _
    · rcases removeOf removed (i + 1) (d :: ds) with _ | ⟨k, kept⟩ <;> simp
    · simp

theorem removeOf_eq_self_iff (i : Nat) (bs : List Branch) :
    removeOf removed i bs = bs ↔ ∀ j, i ≤ j → j < i + sizes bs → removed j = false := by
  match bs with
  | [] => simp [removeOf, sizes]; omega
  | b :: bs =>
    rw [removeOf_cons_eq_self_iff, remove?_eq_self_iff i b, removeOf_eq_self_iff, sizes_cons]
    refine ⟨fun h j hij hj => ?_, fun h => ⟨fun j hij hj => h j hij (by omega),
      fun j hij hj => h j (by omega) (by omega)⟩⟩
    rcases Nat.lt_or_ge j (i + b.size) with hlt | hge
    · exact h.1 j hij hlt
    · exact h.2 j hge (by omega)

end

mutual

theorem candidate_of_mem_nodesIn {c : Nat} {frames : List Frame} {i : Nat} {n : Node} (b : Branch)
    (h : n ∈ b.nodesIn c frames i) : n.candidate = c := by
  match b with
  | node l ds =>
    rw [nodesIn] at h
    rcases List.mem_cons.1 h with rfl | h
    · rfl
    · exact candidate_of_mem_nodesOf ds h

theorem candidate_of_mem_nodesOf {c : Nat} {l : String} {frames : List Frame} {i : Nat}
    {left : List Branch} {n : Node} (bs : List Branch) (h : n ∈ nodesOf c l frames i left bs) :
    n.candidate = c := by
  match bs with
  | [] => cases h
  | b :: bs =>
    rw [nodesOf] at h
    rcases List.mem_append.1 h with h | h
    · exact candidate_of_mem_nodesIn b h
    · exact candidate_of_mem_nodesOf bs h

end

end Branch

namespace Tree

variable {t : Tree}

/-- A tree is left as it is exactly if all removed numbers are beyond its nodes. -/
theorem remove_eq_self_iff {indices : List Nat} :
    t.remove indices = t ↔ ∀ i ∈ indices, t.size ≤ i := by
  rcases t with ⟨_ | b⟩
  · simp [remove, size]
  · have hself : remove ⟨some b⟩ indices = ⟨some b⟩ ↔
        b.remove? indices.contains 0 = some b := by
      simp [remove]
    rw [hself, Branch.remove?_eq_self_iff]
    refine ⟨fun h i hi => ?_, fun h j _ hj => ?_⟩
    · by_contra hlt
      have := h i (Nat.zero_le i) (by simpa [size] using hlt)
      simp [hi] at this
    · by_contra hmem
      have := h j (by simpa using hmem)
      simp only [size, Option.map_some, Option.getD_some] at this
      omega

theorem index_lt_of_mem_nodes {c : Nat} {n : Node} (h : n ∈ t.nodes c) : n.index < t.size := by
  have hindex : n.index ∈ (t.nodes c).map (·.index) := List.mem_map_of_mem h
  rw [map_index_nodes] at hindex
  exact List.mem_range.1 hindex

theorem candidate_of_mem_nodes {c : Nat} {n : Node} (h : n ∈ t.nodes c) : n.candidate = c := by
  rcases t with ⟨_ | b⟩
  · cases h
  · exact Branch.candidate_of_mem_nodesIn b h

theorem pruneIn_eq_self_iff {c : Nat} {illFormed : List Node} (h : ∀ n ∈ illFormed, n ∈ t.nodes c) :
    t.pruneIn c illFormed = t ↔ illFormed = [] := by
  rw [pruneIn, remove_eq_self_iff, List.eq_nil_iff_forall_not_mem]
  refine ⟨fun hbeyond n hn => ?_, fun hnone i hi => ?_⟩
  · have hle := hbeyond n.index (List.mem_map_of_mem (List.mem_filter.2
      ⟨hn, beq_iff_eq.2 (candidate_of_mem_nodes (h n hn))⟩))
    have hlt := index_lt_of_mem_nodes (h n hn)
    omega
  · obtain ⟨n, hn, -⟩ := List.mem_map.1 hi
    exact absurd (List.mem_filter.1 hn).1 (hnone n)

end Tree

end Violable
