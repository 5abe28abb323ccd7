import Mathlib.Tactic.SplitIfs
import Violable.Proofs.Parts
import Violable.Tree.Notation
import Violable.Tree.Removal
import Violable.Tree.Table

/-!
# Tables that are put together

Whatever is put together from tables by the operations on trees is the table of the tree that
comes of the same operations (`built_iff`). A step for this is that rows which are moved on as a
whole are the rows of the same branch at another number (`map_shift_rows`), so that a new node over
tables of branches has the rows of these branches one after another (`node_rows`).
-/

namespace Violable

namespace Branch

mutual

theorem length_rows (m? : Option Nat) (i : Nat) (b : Branch) : (b.rows m? i).length = b.size := by
  match b with
  | node l ds => rw [rows, List.length_cons, length_rowsOf, size_node]

theorem length_rowsOf (m i : Nat) (bs : List Branch) : (rowsOf m i bs).length = sizes bs := by
  match bs with
  | [] => rfl
  | b :: bs => rw [rowsOf, List.length_append, length_rows _ i b, length_rowsOf, sizes_cons]

end

theorem map_starts (k i : Nat) (bs : List Branch) :
    (starts i bs).map (· + k) = starts (i + k) bs := by
  induction bs generalizing i with
  | nil => rfl
  | cons b bs ih => rw [starts, starts, List.map_cons, ih, Nat.add_right_comm]

mutual

theorem map_shift_rows (k : Nat) (m? : Option Nat) (i : Nat) (b : Branch) :
    (b.rows m? i).map (Row.shift k) = b.rows (m?.map (· + k)) (i + k) := by
  match b with
  | node l ds =>
    rw [rows, rows, List.map_cons, map_shift_rowsOf, Row.shift, map_starts, Nat.add_right_comm]

theorem map_shift_rowsOf (k m i : Nat) (bs : List Branch) :
    (rowsOf m i bs).map (Row.shift k) = rowsOf (m + k) (i + k) bs := by
  match bs with
  | [] => rfl
  | b :: bs =>
    rw [rowsOf, rowsOf, List.map_append, map_shift_rows k _ i b, map_shift_rowsOf, Option.map_some,
      Nat.add_right_comm]

end

end Branch

namespace Table

open Branch

/-- Grafting the rows of a branch. -/
theorem graft_rows (l : String) (ds : List Nat) (rest : Table) (b : Branch) :
    graft (⟨l, none, ds⟩ :: rest) (b.rows none 0) =
      ⟨l, none, ds ++ [rest.length + 1]⟩ :: (rest ++ b.rows (some 0) (rest.length + 1)) := by
  obtain ⟨l', ds'⟩ := b
  have hk : 0 + 1 + (rest.length + 1) = rest.length + 1 + 1 := by omega
  rw [rows, rows, graft, map_shift_rowsOf, Row.shift, map_starts, hk,
    Nat.zero_add (rest.length + 1)]
  rfl

theorem foldl_graft (l : String) (ds : List Nat) (rest : Table) (bs : List Branch) :
    (bs.map (rows none 0)).foldl graft (⟨l, none, ds⟩ :: rest) =
      ⟨l, none, ds ++ starts (rest.length + 1) bs⟩ :: (rest ++ rowsOf 0 (rest.length + 1) bs) := by
  induction bs generalizing ds rest with
  | nil => simp [starts, rowsOf]
  | cons b bs ih =>
    rw [List.map_cons, List.foldl_cons, graft_rows, ih, starts, rowsOf]
    simp [length_rows, Nat.add_right_comm]

theorem node_rows (l : String) (bs : List Branch) :
    node l (bs.map (rows none 0)) = (Branch.node l bs).rows none 0 := by
  rw [node, leaf, foldl_graft, rows]
  rfl

mutual

theorem assemble_eq (b : Branch) : b.assemble = b.rows none 0 := by
  match b with
  | .node l ds => rw [assemble, assembleAll_eq, node_rows]

theorem assembleAll_eq (bs : List Branch) : assembleAll bs = bs.map (rows none 0) := by
  match bs with
  | [] => rfl
  | b :: bs => rw [assembleAll, assemble_eq b, assembleAll_eq, List.map_cons]

end

theorem table_node (l : String) (ts : List Tree) :
    (Tree.node l ts).table = node l (ts.map (·.table)) := by
  have hskip : ∀ t : Table, (ts.map (·.table)).foldl graft t =
      ((ts.filterMap (·.top?)).map (rows none 0)).foldl graft t := by
    induction ts with
    | nil => exact fun t => rfl
    | cons u ts ih =>
      intro t
      rcases u with ⟨_ | b⟩
      · have hnil : graft t (Tree.table ⟨none⟩) = t := by cases t <;> rfl
        rw [List.map_cons, List.foldl_cons, hnil]
        exact ih t
      · exact ih _
  rw [node, hskip]
  exact (node_rows l _).symm

/-- The rows of a branch stand in the table from row `i` on. -/
def Holds (t : Table) (m? : Option Nat) (i : Nat) (b : Branch) : Prop :=
  b.rows m? i <+: t.drop i

/-- The rows of the daughters of row `m` stand in the table from row `i` on. -/
def HoldsAll (t : Table) (m i : Nat) (bs : List Branch) : Prop :=
  rowsOf m i bs <+: t.drop i

section Holds

variable {t : Table} {m? : Option Nat} {m i : Nat}

theorem Holds.row {l : String} {ds : List Branch} (h : t.Holds m? i (.node l ds)) :
    t[i]? = some ⟨l, m?, starts (i + 1) ds⟩ := by
  obtain ⟨rest, h⟩ := h
  rw [rows, List.cons_append] at h
  rw [← Nat.add_zero i, ← List.getElem?_drop, ← h]
  rfl

theorem Holds.daughters {l : String} {ds : List Branch} (h : t.Holds m? i (.node l ds)) :
    t.HoldsAll i (i + 1) ds := by
  obtain ⟨rest, h⟩ := h
  rw [rows, List.cons_append] at h
  refine ⟨rest, ?_⟩
  rw [← List.drop_drop, ← h]
  rfl

theorem Holds.add_size_le {b : Branch} (h : t.Holds m? i b) : i + b.size ≤ t.length := by
  have hlength := List.IsPrefix.length_le h
  have hpos := b.size_pos
  rw [length_rows, List.length_drop] at hlength
  omega

theorem HoldsAll.head {b : Branch} {bs : List Branch} (h : t.HoldsAll m i (b :: bs)) :
    t.Holds (some m) i b := by
  rw [HoldsAll, rowsOf] at h
  exact (List.prefix_append _ _).trans h

theorem HoldsAll.tail {b : Branch} {bs : List Branch} (h : t.HoldsAll m i (b :: bs)) :
    t.HoldsAll m (i + b.size) bs := by
  obtain ⟨rest, h⟩ := h
  rw [rowsOf, List.append_assoc] at h
  refine ⟨rest, ?_⟩
  rw [← List.drop_drop, ← h, ← length_rows (some m) i b, List.drop_left]

end Holds

theorem holds_table (b : Branch) : Holds (b.rows none 0) none 0 b := List.prefix_rfl

section Rebuild

variable {t : Table} (removed : Nat → Bool)

mutual

/-- What is put together anew from a branch in a table is the table of what is left of it. -/
theorem rebuild_of_holds {m? : Option Nat} {i : Nat} {b : Branch} (h : t.Holds m? i b) :
    t.rebuild removed i = Tree.table ⟨b.remove? removed i⟩ := by
  match b with
  | .node l [] =>
    rw [rebuild, h.row, remove?]
    split_ifs <;> rfl
  | .node l (d :: ds) =>
    have hkept := rebuild_of_holdsAll h.daughters (Nat.lt_succ_self i)
    rw [rebuild, h.row, remove?]
    have hds : (starts (i + 1) (d :: ds)).isEmpty = false := rfl
    simp only [hkept, hds, Bool.false_eq_true, if_false]
    rcases removeOf removed (i + 1) (d :: ds) with _ | ⟨k, kept⟩
    · cases removed i <;> rfl
    · cases removed i
      · exact node_rows l (k :: kept)
      · rfl

theorem rebuild_of_holdsAll {m i : Nat} {bs : List Branch} (h : t.HoldsAll m i bs) (hm : m < i) :
    ((starts i bs).map fun d => if m < d ∧ d < t.length then t.rebuild removed d else []).filter
      (! ·.isEmpty) = (removeOf removed i bs).map (rows none 0) := by
  match bs with
  | [] => rfl
  | b :: bs =>
    have htail := rebuild_of_holdsAll h.tail (Nat.lt_add_right _ hm)
    have hlength := h.head.add_size_le
    have hpos := b.size_pos
    -- the link is followed, as daughters come after their mother
    have hlt : m < i ∧ i < t.length := ⟨hm, by omega⟩
    rw [starts, removeOf, List.map_cons, if_pos hlt, rebuild_of_holds h.head]
    rcases remove? removed i b with _ | ⟨l, ds⟩
    · exact htail
    · exact congrArg (_ :: ·) htail

end

theorem rebuild_table (t : Tree) :
    t.table.rebuild removed 0 = Tree.table ⟨t.top?.bind (·.remove? removed 0)⟩ := by
  rcases t with ⟨_ | b⟩
  · show rebuild [] removed 0 = []
    rw [rebuild]
    split_ifs <;> rfl
  · exact rebuild_of_holds removed (holds_table b)

end Rebuild

/-- The tables that are put together by operations on trees in any nesting, each with the tree
that comes of the same operations. -/
inductive Built : Table → Tree → Prop
  | empty : Built [] .empty
  | leaf (l : String) : Built (leaf l) (.leaf l)
  | node (l : String) (parts : List (Table × Tree)) : (∀ p ∈ parts, Built p.1 p.2) →
      Built (node l (parts.map (·.1))) (.node l (parts.map (·.2)))
  | read {s : String} {b : Branch} : Tree.read s = .ok ⟨some b⟩ → Built b.assemble ⟨some b⟩
  | remove {a : Table} {t : Tree} (indices : List Nat) : Built a t →
      Built (a.rebuild indices.contains 0) (t.remove indices)
  | prune {a : Table} {t : Tree} (c : Nat) (illFormed : List Node) : Built a t →
      Built (a.rebuild (fun i => illFormed.any fun n => n.candidate = c ∧ n.index = i) 0)
        (t.pruneIn c illFormed)

theorem Built.eq_table {a : Table} {t : Tree} (h : Built a t) : a = t.table := by
  induction h with
  | empty => rfl
  | leaf l => rfl
  | node l parts _ ih =>
    rw [table_node, List.map_map]
    exact congrArg _ (List.map_congr_left ih)
  | @read s b _ => exact assemble_eq b
  | @remove a t indices _ ih =>
    rw [ih, rebuild_table]
    rfl
  | @prune a t c illFormed _ ih =>
    have hremoved : (fun i => illFormed.any fun n => n.candidate = c ∧ n.index = i) =
        ((illFormed.filter (·.candidate == c)).map (·.index)).contains := by
      funext i
      rw [Bool.eq_iff_iff]
      simp [and_assoc]
    rw [ih, hremoved, rebuild_table]
    rfl

theorem built_rows (b : Branch) : Built (b.rows none 0) ⟨some b⟩ := by
  induction b with
  | node l ds ih =>
    have hbuilt := Built.node l (ds.map fun d => (d.rows none 0, ⟨some d⟩)) (by simpa using ih)
    have htree : Tree.node l (ds.map fun d => ⟨some d⟩) = ⟨some (.node l ds)⟩ := by
      rw [Tree.node, List.filterMap_map]
      exact congrArg (fun ds => Tree.mk (some (.node l ds))) List.filterMap_some
    rw [List.map_map, List.map_map] at hbuilt
    rw [← node_rows, ← htree]
    exact hbuilt

theorem built_iff {a : Table} {t : Tree} : Built a t ↔ a = t.table := by
  constructor
  · exact Built.eq_table
  · rintro rfl
    rcases t with ⟨_ | b⟩
    · exact .empty
    · exact built_rows b

end Table

end Violable
