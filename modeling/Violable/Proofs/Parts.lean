import Mathlib.Data.List.Basic
import Violable.Tree.Node

/-!
# The parts of a tree

The parts of a branch are the branch itself and all branches below it, in the order in which nodes
are numbered: the nodes of a tree are its parts with numbers that count from 0
(`map_branch_nodesIn`, `map_index_nodes`). What is said of a branch is proved by induction over its
daughters.
-/

namespace Violable

namespace Branch

@[elab_as_elim, induction_eliminator]
theorem induction {P : Branch → Prop} (node : ∀ l ds, (∀ d ∈ ds, P d) → P (node l ds)) :
    (b : Branch) → P b
  | .node l ds => node l ds fun d _ => induction node d

mutual

/-- The branch and all below it, each before those that are below it. -/
def parts : Branch → List Branch
  | node l ds => node l ds :: partsOf ds

def partsOf : List Branch → List Branch
  | [] => []
  | b :: bs => parts b ++ partsOf bs

end

/-- The labels of all nodes. -/
def labels (b : Branch) : List String := b.parts.map label

theorem size_node (l : String) (ds : List Branch) : (node l ds).size = sizes ds + 1 := by
  rw [size]

theorem sizes_cons (d : Branch) (ds : List Branch) : sizes (d :: ds) = d.size + sizes ds := by
  rw [sizes]

theorem size_pos (b : Branch) : 0 < b.size := by
  cases b
  rw [size_node]
  exact Nat.succ_pos _

theorem partsOf_eq (bs : List Branch) : partsOf bs = bs.flatMap parts := by
  induction bs with
  | nil => rfl
  | cons b bs ih => rw [partsOf, ih, List.flatMap_cons]

theorem labels_node (l : String) (ds : List Branch) :
    (node l ds).labels = l :: ds.flatMap labels := by
  rw [labels, parts, List.map_cons, partsOf_eq, List.map_flatMap]
  rfl

/-- What holds of all labels holds of that of the node and of those below each daughter. -/
theorem forall_mem_labels_node {P : String → Prop} {l : String} {ds : List Branch} :
    (∀ a ∈ (node l ds).labels, P a) ↔ P l ∧ ∀ d ∈ ds, ∀ a ∈ d.labels, P a := by
  simp only [labels_node, List.forall_mem_cons, List.mem_flatMap]
  constructor
  · rintro ⟨hl, h⟩
    exact ⟨hl, fun d hd a ha => h a ⟨d, hd, ha⟩⟩
  · rintro ⟨hl, h⟩
    exact ⟨hl, fun a ⟨d, hd, ha⟩ => h d hd a ha⟩

theorem leavesOf_eq (bs : List Branch) : leavesOf bs = bs.flatMap leaves := by
  induction bs with
  | nil => rfl
  | cons b bs ih => rw [leavesOf, ih, List.flatMap_cons]

theorem leaves_eq (b : Branch) : b.leaves = (b.parts.filter isLeaf).map label := by
  induction b with
  | node l ds ih =>
    rcases ds with _ | ⟨d, ds⟩
    · rfl
    · have hleaves : (node l (d :: ds)).leaves = (d :: ds).flatMap leaves := by
        rw [leaves, leavesOf_eq, List.flatMap_cons]
      have hparts : (node l (d :: ds)).parts.filter isLeaf =
          (d :: ds).flatMap fun b => b.parts.filter isLeaf := by
        rw [parts, partsOf_eq, List.filter_cons_of_neg (by simp [isLeaf, daughters]),
          List.filter_flatMap]
      rw [hleaves, hparts, List.map_flatMap]
      exact List.flatMap_congr ih

mutual

theorem map_branch_nodesIn (c : Nat) (frames : List Frame) (i : Nat) (b : Branch) :
    (b.nodesIn c frames i).map (·.branch) = b.parts := by
  match b with
  | node l ds => rw [nodesIn, parts, List.map_cons, map_branch_nodesOf]

theorem map_branch_nodesOf (c : Nat) (l : String) (frames : List Frame) (i : Nat)
    (left bs : List Branch) : (nodesOf c l frames i left bs).map (·.branch) = partsOf bs := by
  match bs with
  | [] => rfl
  | b :: bs =>
    rw [nodesOf, partsOf, List.map_append, map_branch_nodesIn c _ i b, map_branch_nodesOf]

end

mutual

theorem map_index_nodesIn (c : Nat) (frames : List Frame) (i : Nat) (b : Branch) :
    (b.nodesIn c frames i).map (·.index) = List.range' i b.size := by
  match b with
  | node l ds =>
    rw [nodesIn, size_node, List.map_cons, map_index_nodesOf]
    rfl

theorem map_index_nodesOf (c : Nat) (l : String) (frames : List Frame) (i : Nat)
    (left bs : List Branch) :
    (nodesOf c l frames i left bs).map (·.index) = List.range' i (sizes bs) := by
  match bs with
  | [] => rfl
  | b :: bs =>
    rw [nodesOf, sizes_cons, List.map_append, map_index_nodesIn c _ i b, map_index_nodesOf,
      List.range'_append_1]

end

end Branch

namespace Tree

theorem map_index_nodes (t : Tree) (c : Nat) : (t.nodes c).map (·.index) = List.range t.size := by
  rcases t with ⟨_ | b⟩
  · rfl
  · rw [List.range_eq_range']
    exact Branch.map_index_nodesIn c [] 0 b

end Tree

end Violable
