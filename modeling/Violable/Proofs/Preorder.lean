import Violable.Proofs.Links

/-!
# The nodes of a tree and its table

What one sees from a node, its mother and its daughters, is what stands in the row with the number
of the node (`map_row_nodes`). So what holds of the links between the rows of a table holds of the
nodes of a tree, and tables that are put together by the operations on trees are tables of trees
(`nodes_preorder`).
-/

namespace Violable

namespace Node

theorem map_index_sisters (c : Nat) (l : String) (frames : List Frame) (i : Nat)
    (left bs : List Branch) :
    (sisters c l frames i left bs).map (·.index) = Branch.starts i bs := by
  induction bs generalizing i left with
  | nil => rfl
  | cons b bs ih => rw [sisters, Branch.starts, List.map_cons, ih]

theorem row_eq (n : Node) : n.row =
    ⟨n.label, n.frames.head?.map fun f => n.index - 1 - Branch.sizes f.left,
      Branch.starts (n.index + 1) n.branch.daughters⟩ := by
  rw [row, children, map_index_sisters, parent?]
  rcases n with ⟨c, i, b, _ | ⟨f, frames⟩⟩ <;> rfl

theorem isEmpty_daughters_row (n : Node) : n.row.daughters.isEmpty = n.isLeaf := by
  rw [row_eq, isLeaf, Branch.isLeaf]
  cases n.branch.daughters <;> rfl

end Node

namespace Branch

mutual

theorem map_row_nodesIn (c : Nat) (frames : List Frame) (i : Nat) (b : Branch) :
    (b.nodesIn c frames i).map Node.row =
      b.rows (frames.head?.map fun f => i - 1 - sizes f.left) i := by
  match b with
  | node l ds =>
    rw [nodesIn, rows, List.map_cons, Node.row_eq, map_row_nodesOf, sizes]
    rfl

theorem map_row_nodesOf (c : Nat) (l : String) (frames : List Frame) (i : Nat)
    (left bs : List Branch) : (nodesOf c l frames i left bs).map Node.row =
      rowsOf (i - 1 - sizes left) i bs := by
  match bs with
  | [] => rfl
  | b :: bs =>
    have hnext : i + b.size - 1 - sizes (b :: left) = i - 1 - sizes left := by
      rw [sizes_cons]
      omega
    rw [nodesOf, rowsOf, List.map_append, map_row_nodesIn c _ i b, map_row_nodesOf, hnext]
    rfl

end

end Branch

namespace Tree

open Branch

theorem map_row_nodes (t : Tree) (c : Nat) : (t.nodes c).map Node.row = t.table := by
  rcases t with ⟨_ | b⟩
  · rfl
  · exact map_row_nodesIn c [] 0 b

/-- The node at place `i` has number `i`. -/
theorem index_of_getElem? {t : Tree} {c i : Nat} {n : Node} (h : (t.nodes c)[i]? = some n) :
    n.index = i := by
  have hindex : ((t.nodes c).map (·.index))[i]? = some n.index := by
    rw [List.getElem?_map, h]
    rfl
  rw [map_index_nodes] at hindex
  obtain ⟨hlt, hindex⟩ := List.getElem?_eq_some_iff.1 hindex
  rw [← hindex, List.getElem_range]

theorem leaves_table (t : Tree) :
    t.leaves = (t.table.filter (·.daughters.isEmpty)).map (·.label) := by
  rcases t with ⟨_ | b⟩
  · rfl
  have hnodes : b.rows none 0 = (b.nodesIn 0 [] 0).map Node.row := (map_row_nodes ⟨some b⟩ 0).symm
  have hleaf : (fun r : Row => r.daughters.isEmpty) ∘ Node.row = isLeaf ∘ Node.branch :=
    funext Node.isEmpty_daughters_row
  show b.leaves = ((b.rows none 0).filter (·.daughters.isEmpty)).map (·.label)
  rw [leaves_eq, ← map_branch_nodesIn 0 [] 0 b, hnodes, List.filter_map, List.filter_map, hleaf,
    List.map_map, List.map_map]
  rfl

/-- The nodes that are not leaves are listed by their numbers. -/
theorem subtrees_increasing (t : Tree) (c : Nat) :
    ((t.subtrees c).map (·.index)).Pairwise (· < ·) := by
  refine List.Pairwise.sublist (List.filter_sublist.map _) ?_
  rw [map_index_nodes]
  exact List.pairwise_lt_range

theorem nodup_subtrees (t : Tree) (c : Nat) : (t.subtrees c).Nodup :=
  (List.pairwise_map.1 (subtrees_increasing t c)).imp fun h e =>
    Nat.ne_of_lt h (congrArg Node.index e)

theorem mem_subtrees_iff {t : Tree} {c i : Nat} : i ∈ (t.subtrees c).map (·.index) ↔
    ∃ r, t.table[i]? = some r ∧ r.daughters ≠ [] := by
  have hleaf : ∀ n : Node, n.isLeaf = false ↔ n.row.daughters ≠ [] := by
    intro n
    rw [← Node.isEmpty_daughters_row, List.isEmpty_eq_false_iff]
  rw [← map_row_nodes t c, List.getElem?_map, subtrees]
  simp only [List.mem_map, List.mem_filter, Bool.not_eq_true', hleaf, Option.map_eq_some_iff]
  constructor
  · rintro ⟨n, ⟨hn, hne⟩, rfl⟩
    obtain ⟨i, hi⟩ := List.getElem?_of_mem hn
    rw [index_of_getElem? hi]
    exact ⟨_, ⟨n, hi, rfl⟩, hne⟩
  · rintro ⟨_, ⟨n, hn, rfl⟩, hne⟩
    exact ⟨n, ⟨List.mem_of_getElem? hn, hne⟩, index_of_getElem? hn⟩

end Tree

namespace Table

open Branch

variable {t : Table}

mutual

/-- Each node's branch stands where its number says. -/
theorem Holds.of_mem_nodesIn {m? : Option Nat} {i : Nat} {b : Branch} (h : t.Holds m? i b) {c : Nat}
    {frames : List Frame} {n : Node} (hn : n ∈ b.nodesIn c frames i) :
    ∃ n?, t.Holds n? n.index n.branch := by
  match b with
  | .node l ds =>
    rw [nodesIn] at hn
    rcases List.mem_cons.1 hn with rfl | hn
    · exact ⟨m?, h⟩
    · exact h.daughters.of_mem_nodesOf hn

theorem HoldsAll.of_mem_nodesOf {m i : Nat} {bs : List Branch} (h : t.HoldsAll m i bs) {c : Nat}
    {l : String} {frames : List Frame} {left : List Branch} {n : Node}
    (hn : n ∈ nodesOf c l frames i left bs) : ∃ n?, t.Holds n? n.index n.branch := by
  match bs with
  | [] => cases hn
  | b :: bs =>
    rw [nodesOf] at hn
    rcases List.mem_append.1 hn with hn | hn
    · exact h.head.of_mem_nodesIn hn
    · exact h.tail.of_mem_nodesOf hn

end

end Table

namespace Tree

theorem below_iff {t : Tree} {c : Nat} {n : Node} (h : n ∈ t.nodes c) {j : Nat} :
    t.table.Below n.index j ↔ n.index ≤ j ∧ j < n.index + n.branch.size := by
  rcases t with ⟨_ | b⟩
  · cases h
  · obtain ⟨n?, hholds⟩ := (Table.holds_table b).of_mem_nodesIn h
    exact Table.below_rows_iff b hholds

/-- What is put together by the operations on trees is the table of a tree, which has the nodes of
the tree in order with their links, and is of no other tree. What is below a node follows it
without a gap. The leaves from left to right, and the nodes that are no leaves, are the rows
without and with daughters. -/
theorem nodes_preorder (t : Tree) (c : Nat) :
    (∀ a, Table.Built a t ↔ a = t.table) ∧ (t.nodes c).map Node.row = t.table ∧
      t.table.Linked ∧
      (∀ n ∈ t.nodes c, ∀ j,
        t.table.Below n.index j ↔ n.index ≤ j ∧ j < n.index + n.branch.size) ∧
      (∀ u : Tree, t.table = u.table ↔ t = u) ∧
      t.leaves = (t.table.filter (·.daughters.isEmpty)).map (·.label) ∧
      ((t.subtrees c).map (·.index)).Pairwise (· < ·) ∧
      ∀ i, i ∈ (t.subtrees c).map (·.index) ↔ ∃ r, t.table[i]? = some r ∧ r.daughters ≠ [] :=
  ⟨fun _ => Table.built_iff, map_row_nodes t c, Table.linked_table t, fun _ hn _ => below_iff hn,
    fun _ => ⟨table_inj, congrArg table⟩, leaves_table t, subtrees_increasing t c,
    fun _ => mem_subtrees_iff⟩

end Tree

end Violable
