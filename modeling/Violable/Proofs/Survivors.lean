import Mathlib.Data.List.Forall2
import Violable.Proofs.Navigation
import Violable.Proofs.Removal

/-!
# What survives a removal

A node of a tree survives if neither it nor any node above it is removed, and if the same is true
of some leaf below it (`isKept_iff`). What is left of the tree has a node for each of these, in
order: the top stands for the top, and the daughters that are left stand in turn for the daughters
that survive (`Stands`). So all that one sees from a node of what is left is what was to be seen
before, less what did not survive (`nodes_remove`).
-/

namespace Violable

namespace Node

open Branch

section Lineage

/-- The node itself, its mother, the mother of its mother, and so on up to the top. -/
def lineage (n : Node) : List Node :=
  match _h : n.parent? with
  | none => [n]
  | some p => n :: p.lineage
termination_by n.frames.length
decreasing_by
  unfold parent? at _h
  split at _h
  · simp at _h
  · rename_i hf
    obtain rfl := Option.some.inj _h
    simp [hf]

variable {n p a : Node}

theorem lineage_eq (n : Node) : n.lineage = n :: (n.parent?.map lineage).getD [] := by
  rw [lineage]
  split <;> simp_all

theorem lineage_of_parent (h : n.parent? = some p) : n.lineage = n :: p.lineage := by
  rw [lineage_eq, h]
  rfl

theorem mem_lineage_self (n : Node) : n ∈ n.lineage := by
  rw [lineage_eq]
  exact List.mem_cons_self

theorem mem_lineage : a ∈ n.lineage ↔ n.IsUnder a := by
  constructor
  · intro h
    fun_induction lineage n with
    | case1 n hnone => exact List.mem_singleton.1 h ▸ .refl
    | case2 n p hsome ih =>
      rcases List.mem_cons.1 h with rfl | h
      · exact .refl
      · exact .head hsome (ih h)
  · intro h
    induction h using Relation.ReflTransGen.head_induction_on with
    | refl => exact mem_lineage_self a
    | head hp _ ih => exact lineage_of_parent hp ▸ List.mem_cons_of_mem _ ih

end Lineage

section Kept

variable (removed : Nat → Bool)

/-- Neither the node nor any node above it is removed. -/
def isClear (n : Node) : Bool := n.lineage.all (! removed ·.index)

/-- What is left of the branch at a node, if the nodes above it are clear. -/
def rest? (n : Node) : Option Branch := n.branch.remove? removed n.index

/-- The node is clear, and something is left of its branch. -/
def isKept (n : Node) : Bool := n.isClear removed && (n.rest? removed).isSome

variable {removed} {n m d : Node} {b : Branch}

theorem isClear_of_mem_children (h : d ∈ n.children) :
    d.isClear removed = (! removed d.index && n.isClear removed) := by
  rw [isClear, lineage_of_parent (parent?_of_mem_children h), List.all_cons, isClear]

theorem removed_of_isClear (h : n.isClear removed = true) : removed n.index = false := by
  simpa using List.all_eq_true.1 h n (mem_lineage_self n)

theorem removeOf_eq (c : Nat) (l : String) (frames : List Frame) (i : Nat) (left bs : List Branch) :
    removeOf removed i bs = (sisters c l frames i left bs).filterMap (rest? removed) := by
  induction bs generalizing i left with
  | nil => rfl
  | cons b bs ih =>
    have hrest : rest? removed ⟨c, i, b, ⟨l, left, bs⟩ :: frames⟩ = b.remove? removed i := rfl
    rw [removeOf, sisters, ih (i + b.size) (b :: left), List.filterMap_cons, hrest]
    rcases b.remove? removed i with _ | b <;> rfl

/-- What is left of a node that is not removed has what is left of her daughters. Of an inner node
nothing is left without them. -/
theorem rest?_eq_some : n.rest? removed = some b ↔ removed n.index = false ∧
    (n.isLeaf = true ∨ n.children.filterMap (rest? removed) ≠ []) ∧
      b = .node n.label (n.children.filterMap (rest? removed)) := by
  have hchildren : n.children.filterMap (rest? removed) =
      removeOf removed (n.index + 1) n.branch.daughters := (removeOf_eq _ _ _ _ _ _).symm
  rw [hchildren]
  obtain ⟨c, i, ⟨l, ds⟩, frames⟩ := n
  rcases ds with _ | ⟨e, ds⟩
  · have hrest : rest? removed ⟨c, i, .node l [], frames⟩ =
        if removed i then none else some (.node l []) := by
      rw [rest?, remove?]
      rfl
    rw [hrest]
    rcases removed i with _ | _ <;>
      simp [isLeaf, Branch.isLeaf, daughters, removeOf, label, Branch.label, eq_comm]
  · simp only [rest?, remove?, isLeaf, Branch.isLeaf, daughters, label, Branch.label,
      List.isEmpty_cons, Bool.false_eq_true, false_or]
    rcases removed i with _ | _ <;> rcases removeOf removed (i + 1) (e :: ds) with _ | ⟨k, kept⟩ <;>
      simp [eq_comm]

theorem isKept_eq_true :
    n.isKept removed = true ↔ n.isClear removed = true ∧ (n.rest? removed).isSome = true := by
  rw [isKept, Bool.and_eq_true]

/-- Below a clear node, whatever has something left is clear. -/
theorem isKept_of_mem_children (hn : n.isClear removed = true) (hd : d ∈ n.children) :
    d.isKept removed = (d.rest? removed).isSome := by
  rcases hrest : d.rest? removed with _ | b
  · simp [isKept, hrest]
  · simp [isKept, hrest, isClear_of_mem_children hd, (rest?_eq_some.1 hrest).1, hn]

theorem filter_isKept (hn : n.isClear removed = true) :
    (n.children.filter (isKept removed)).map (rest? removed) =
      (n.children.filterMap (rest? removed)).map some := by
  rw [List.filter_congr fun d hd => isKept_of_mem_children hn hd]
  induction n.children with
  | nil => rfl
  | cons d ds ih =>
    rcases hrest : d.rest? removed with _ | b <;> simp [hrest, ih]

/-- A node survives with each of its daughters. -/
theorem isKept_of_daughter (hd : d ∈ n.children) (h : d.isKept removed = true) :
    n.isKept removed = true := by
  obtain ⟨hclear, hrest⟩ := isKept_eq_true.1 h
  have hn : n.isClear removed = true := by
    rw [isClear_of_mem_children hd, Bool.and_eq_true] at hclear
    exact hclear.2
  obtain ⟨b, hb⟩ := Option.isSome_iff_exists.1 hrest
  have hne : n.children.filterMap (rest? removed) ≠ [] :=
    List.ne_nil_of_mem (List.mem_filterMap.2 ⟨d, hd, hb⟩)
  exact isKept_eq_true.2 ⟨hn, Option.isSome_iff_exists.2
    ⟨_, rest?_eq_some.2 ⟨removed_of_isClear hn, .inr hne, rfl⟩⟩⟩

theorem isKept_of_mem_below (hm : m ∈ n.below) (h : m.isKept removed = true) :
    n.isKept removed = true := by
  rw [mem_below_iff] at hm
  induction hm with
  | refl => exact h
  | tail _ hd ih => exact isKept_of_daughter hd ih

/-- A clear node survives exactly if there is a clear leaf below it, or if it is one. -/
theorem isKept_iff : n.isKept removed = true ↔
    n.isClear removed = true ∧ ∃ m ∈ n.below, m.isLeaf = true ∧ m.isClear removed = true := by
  constructor
  · intro h
    induction n using induction with
    | step n ih =>
      obtain ⟨hclear, hrest⟩ := isKept_eq_true.1 h
      refine ⟨hclear, ?_⟩
      obtain ⟨b, hb⟩ := Option.isSome_iff_exists.1 hrest
      rcases (rest?_eq_some.1 hb).2.1 with hleaf | hne
      · exact ⟨n, mem_below_self n, hleaf, hclear⟩
      · obtain ⟨e, he⟩ := List.exists_mem_of_ne_nil _ hne
        obtain ⟨d, hd, hrest⟩ := List.mem_filterMap.1 he
        have hkept : d.isKept removed = true := by
          rw [isKept_of_mem_children hclear hd, hrest]
          rfl
        obtain ⟨-, m, hm, hleaf, hm'⟩ := ih d hd hkept
        exact ⟨m, mem_below.2 (.inr ⟨d, hd, hm⟩), hleaf, hm'⟩
  · rintro ⟨-, m, hm, hleaf, hclear⟩
    have hrest := rest?_eq_some.2 ⟨removed_of_isClear hclear, .inl hleaf, rfl⟩
    exact isKept_of_mem_below hm (isKept_eq_true.2 ⟨hclear, hrest ▸ rfl⟩)

/-- The node and the nodes below it, as far as they survive. -/
def survivors (removed : Nat → Bool) (n : Node) : List Node := n.below.filter (isKept removed)

theorem survivors_of_not_isKept (h : n.isKept removed = false) : n.survivors removed = [] := by
  refine List.filter_eq_nil_iff.2 fun m hm hkept => ?_
  rw [isKept_of_mem_below hm hkept] at h
  cases h

theorem survivors_of_isKept (h : n.isKept removed = true) : n.survivors removed =
    n :: (n.children.filter (isKept removed)).flatMap (survivors removed) := by
  rw [survivors, below_eq, List.filter_cons_of_pos h, List.filter_flatMap]
  congr 1
  induction n.children with
  | nil => rfl
  | cons d ds ih =>
    rw [List.flatMap_cons, ih, ← survivors]
    rcases hd : d.isKept removed with _ | _
    · rw [List.filter_cons_of_neg (by simp [hd]), survivors_of_not_isKept hd, List.nil_append]
    · rw [List.filter_cons_of_pos hd, List.flatMap_cons]

end Kept

section Stands

/-- The branch of the first node is what is left at the second one. -/
structure IsRest (removed : Nat → Bool) (m n : Node) : Prop where
  clear : n.isClear removed = true
  rest : n.rest? removed = some m.branch

/-- Node `r` stands for node `s`, and if a node stands for another one then its daughters stand, in
order, for the daughters that survive. -/
inductive Stands (removed : Nat → Bool) (r s : Node) : Node → Node → Prop
  | top : Stands removed r s r s
  | daughter {m n d e : Node} {k : Nat} : Stands removed r s m n → m.child? k = some d →
      (n.children.filter (isKept removed))[k]? = some e → Stands removed r s d e

variable {removed : Nat → Bool} {r s m n n' d e : Node} {k : Nat}

theorem IsRest.kept (h : IsRest removed m n) : n.isKept removed = true :=
  isKept_eq_true.2 ⟨h.clear, h.rest ▸ rfl⟩

theorem IsRest.map_children (h : IsRest removed m n) :
    (n.children.filter (isKept removed)).map (rest? removed) =
      m.children.map fun d => some d.branch := by
  have hdaughters : m.children.map (·.branch) = n.children.filterMap (rest? removed) := by
    rw [map_branch_children, (rest?_eq_some.1 h.rest).2.2]
    rfl
  rw [filter_isKept h.clear, ← hdaughters, List.map_map]
  rfl

theorem IsRest.daughter (h : IsRest removed m n) (hd : m.child? k = some d)
    (he : (n.children.filter (isKept removed))[k]? = some e) : IsRest removed d e := by
  have hk := congrArg (·[k]?) h.map_children
  have hd : m.children[k]? = some d := hd
  simp only [List.getElem?_map, hd, he, Option.map_some, Option.some.injEq] at hk
  exact ⟨(isKept_eq_true.1 (List.mem_filter.1 (List.mem_of_getElem? he)).2).1, hk⟩

theorem IsRest.label (h : IsRest removed m n) : m.label = n.label := by
  rw [Node.label, (rest?_eq_some.1 h.rest).2.2]
  rfl

/-- An inner node that survives does not become a leaf. -/
theorem IsRest.isLeaf (h : IsRest removed m n) : m.isLeaf = n.isLeaf := by
  obtain ⟨-, hcase, hbranch⟩ := rest?_eq_some.1 h.rest
  rw [Node.isLeaf, hbranch]
  rcases hleaf : n.isLeaf with _ | _
  · rw [hleaf] at hcase
    simpa [Branch.isLeaf, daughters] using hcase
  · have hnone : n.children = [] := by
      rw [← List.map_eq_nil_iff (f := Node.branch), map_branch_children]
      simpa [Node.isLeaf, Branch.isLeaf] using hleaf
    rw [hnone]
    rfl

theorem Stands.isRest (hr : IsRest removed r s) (h : Stands removed r s m n) :
    IsRest removed m n := by
  induction h with
  | top => exact hr
  | daughter _ hd he ih => exact ih.daughter hd he

theorem Stands.mem_below (h : Stands removed r s m n) : m ∈ r.below := by
  induction h with
  | top => exact mem_below_self r
  | daughter _ hd _ ih => exact mem_below_of_mem_children ih (List.mem_of_getElem? hd)

/-- A node stands for one node only, since the way to it from the top is no other. -/
theorem Stands.unique (hr : r.parent? = none) (h : Stands removed r s m n)
    (h' : Stands removed r s m n') : n = n' := by
  induction h generalizing n' with
  | top =>
    cases h' with
    | top => rfl
    | daughter _ hd _ => cases hr.symm.trans (parent?_of_child hd)
  | daughter hm hd he ih =>
    cases h' with
    | top => cases hr.symm.trans (parent?_of_child hd)
    | daughter hm' hd' he' =>
      -- both ways come over the same mother, and to the same place below her
      obtain rfl := Option.some.inj ((parent?_of_child hd).symm.trans (parent?_of_child hd'))
      obtain rfl := Option.some.inj ((position?_of_child hd).symm.trans (position?_of_child hd'))
      obtain rfl := ih hm'
      exact Option.some.inj (he.symm.trans he')

theorem forall₂_children (hr : IsRest removed r s) (h : Stands removed r s m n) :
    List.Forall₂ (Stands removed r s) m.children (n.children.filter (isKept removed)) := by
  have hlength := congrArg List.length (h.isRest hr).map_children
  rw [List.length_map, List.length_map] at hlength
  refine List.forall₂_iff_get.2 ⟨hlength.symm, fun k hd he => ?_⟩
  exact h.daughter (List.getElem?_eq_getElem hd) (List.getElem?_eq_getElem he)

/-- The nodes below a node stand, in order, for the survivors below the node for which it
stands. -/
theorem forall₂_below (hr : IsRest removed r s) (h : Stands removed r s m n) :
    List.Forall₂ (Stands removed r s) m.below (n.survivors removed) := by
  induction m using induction generalizing n with
  | step m ih =>
    rw [below_eq, survivors_of_isKept (h.isRest hr).kept]
    refine .cons h ?_
    have hchildren := (List.forall₂_and_left _ _).2 ⟨fun d hd => hd, forall₂_children hr h⟩
    exact List.rel_flatMap hchildren fun d e hde => ih d hde.1 hde.2

end Stands

end Node

namespace Tree

open Node

variable {t : Tree} {c : Nat} {removed : Nat → Bool} {n m r s : Node}

theorem mem_below_of_isUnder (hm : m ∈ t.nodes c) (h : m.IsUnder n) : m ∈ n.below := by
  induction h using Relation.ReflTransGen.head_induction_on with
  | refl => exact mem_below_self n
  | head hp _ ih =>
    obtain ⟨hp, hm⟩ := mem_of_parent hm hp
    exact mem_below_of_mem_children (ih hp) hm

theorem mem_nodes_of_mem_below (hn : n ∈ t.nodes c) (h : m ∈ n.below) : m ∈ t.nodes c := by
  rw [mem_below_iff] at h
  induction h using Relation.ReflTransGen.head_induction_on with
  | refl => exact hn
  | head hd _ ih => exact mem_nodes_of_child ih hd

/-- Neither the node nor any node above it is removed, and the same is true of some leaf that it
dominates or is. -/
def survives (t : Tree) (c : Nat) (removed : Nat → Bool) (n : Node) : Bool :=
  n.isClear removed &&
    (t.nodes c).any fun m => m.isLeaf && m.isClear removed && decide (n ∈ m.lineage)

theorem survives_eq (hn : n ∈ t.nodes c) : t.survives c removed n = n.isKept removed := by
  rw [Bool.eq_iff_iff, isKept_iff, survives, Bool.and_eq_true, List.any_eq_true]
  refine and_congr_right fun _ => exists_congr fun m => ?_
  rw [Bool.and_eq_true, Bool.and_eq_true, decide_eq_true_iff, mem_lineage]
  exact ⟨fun ⟨hm, hleaf, hunder⟩ => ⟨mem_below_of_isUnder hm hunder, hleaf⟩,
    fun ⟨hm, hleaf⟩ => ⟨mem_nodes_of_mem_below hn hm, hleaf, isUnder_of_mem_below hm⟩⟩

theorem filter_survives (t : Tree) (c : Nat) (removed : Nat → Bool) :
    (t.nodes c).filter (t.survives c removed) = (t.nodes c).filter (isKept removed) :=
  List.filter_congr fun _ hn => survives_eq hn

/-- Either nothing is left and nothing survives, or the top stands for the top. -/
theorem nodes_remove_cases (t : Tree) (c c' : Nat) (removed : List Nat) :
    ((t.remove removed).nodes c' = [] ∧ (t.nodes c).filter (isKept removed.contains) = []) ∨
      ∃ r s, r.parent? = none ∧ s.parent? = none ∧ IsRest removed.contains r s ∧
        (t.remove removed).nodes c' = r.below ∧
        (t.nodes c).filter (isKept removed.contains) = s.survivors removed.contains := by
  rcases t with ⟨_ | b⟩
  · exact .inl ⟨rfl, rfl⟩
  let s : Node := ⟨c, 0, b, []⟩
  have hs : s.parent? = none := rfl
  have hleft : (remove ⟨some b⟩ removed) = ⟨s.rest? removed.contains⟩ := rfl
  rw [hleft]
  rcases hrest : s.rest? removed.contains with _ | b'
  · have hkept : s.isKept removed.contains = false := by simp [isKept, hrest]
    exact .inl ⟨rfl, survivors_of_not_isKept hkept⟩
  · refine .inr ⟨⟨c', 0, b', []⟩, s, rfl, hs, ⟨?_, hrest⟩, rfl, rfl⟩
    have hremoved := (rest?_eq_some.1 hrest).1
    rw [isClear, lineage_eq, hs]
    simpa using hremoved

section Partner

variable {u : Tree} {c' : Nat} (hr : IsRest removed r s) (htop : r.parent? = none)
  (hnodes : u.nodes c' = r.below)

include hr htop hnodes

/-- The node with number `i` stands for the survivor at place `i`. -/
theorem getElem?_of_stands (h : Stands removed r s m n) :
    (s.survivors removed)[m.index]? = some n := by
  obtain ⟨i, hi⟩ := List.getElem?_of_mem h.mem_below
  obtain rfl : m.index = i := index_of_getElem? (hnodes ▸ hi)
  obtain ⟨hlength, hall⟩ := List.forall₂_iff_get.1 (forall₂_below hr .top)
  obtain ⟨hlt, hm⟩ := List.getElem?_eq_some_iff.1 hi
  have hstands := hall _ hlt (hlength ▸ hlt)
  rw [List.get_eq_getElem, List.get_eq_getElem, hm] at hstands
  exact List.getElem?_eq_some_iff.2 ⟨hlength ▸ hlt, hstands.unique htop h⟩

theorem parent?_of_stands (hs : s.parent? = none) (h : Stands removed r s m n) :
    m.parent?.bind (fun p => (s.survivors removed)[p.index]?) = n.parent? := by
  cases h with
  | top => rw [htop, hs]; rfl
  | daughter hm hd he =>
    have he := (List.mem_filter.1 (List.mem_of_getElem? he)).1
    rw [parent?_of_child hd, parent?_of_mem_children he]
    exact getElem?_of_stands hr htop hnodes hm

theorem children_of_stands (h : Stands removed r s m n) :
    m.children.map (fun d => (s.survivors removed)[d.index]?) =
      (n.children.filter (isKept removed)).map some := by
  have hchildren := forall₂_children hr h
  generalize m.children = ds, n.children.filter (isKept removed) = es at hchildren
  induction hchildren with
  | nil => rfl
  | cons hd _ ih => rw [List.map_cons, List.map_cons, ih, getElem?_of_stands hr htop hnodes hd]

end Partner

theorem leaves_nodes (t : Tree) (c : Nat) :
    t.leaves = ((t.nodes c).filter (·.isLeaf)).map (·.label) := by
  rcases t with ⟨_ | b⟩
  · rfl
  show b.leaves = ((b.nodesIn c [] 0).filter (·.isLeaf)).map (·.label)
  rw [Branch.leaves_eq, ← Branch.map_branch_nodesIn c [] 0 b, List.filter_map, List.map_map]
  rfl

/-- What one sees from node `m` is what is to be seen from node `n`, as far as it is among the
nodes that are kept, where the node with number `i` stands for the kept one at place `i`. -/
structure SeesAlike (kept : List Node) (m n : Node) : Prop where
  label : m.label = n.label
  isLeaf : m.isLeaf = n.isLeaf
  mother : m.parent?.bind (fun p => kept[p.index]?) = n.parent?
  daughters : m.children.map (fun d => kept[d.index]?) = (n.children.filter (· ∈ kept)).map some

theorem forall₂_nodes_remove (t : Tree) (c c' : Nat) (removed : List Nat) :
    List.Forall₂ (SeesAlike ((t.nodes c).filter (t.survives c removed.contains)))
      ((t.remove removed).nodes c') ((t.nodes c).filter (t.survives c removed.contains)) := by
  have hmem : ∀ n ∈ t.nodes c, ∀ d ∈ n.children,
      decide (d ∈ (t.nodes c).filter (isKept removed.contains)) = d.isKept removed.contains := by
    intro n hn d hd
    rw [Bool.eq_iff_iff, decide_eq_true_iff, List.mem_filter]
    exact and_iff_right (mem_nodes_of_child hn hd)
  have hsub : ∀ n ∈ (t.nodes c).filter (isKept removed.contains), n ∈ t.nodes c :=
    fun n hn => (List.mem_filter.1 hn).1
  rw [filter_survives]
  rcases nodes_remove_cases t c c' removed with
    ⟨hnodes, hkept⟩ | ⟨r, s, htop, hs, hr, hnodes, hkept⟩
  · rw [hnodes, hkept]
    exact .nil
  · rw [hkept] at hmem hsub ⊢
    have hboth := (List.forall₂_and_left _ _).2 ⟨hsub, (forall₂_below hr .top).flip⟩
    rw [hnodes]
    refine hboth.flip.imp fun m n h => ⟨(h.2.isRest hr).label, (h.2.isRest hr).isLeaf,
      parent?_of_stands hr htop hnodes hs h.2, ?_⟩
    rw [children_of_stands hr htop hnodes h.2, List.filter_congr (hmem n h.1)]

theorem map_label_leaves {kept : List Node} {ms ns : List Node}
    (h : List.Forall₂ (SeesAlike kept) ms ns) :
    (ms.filter (·.isLeaf)).map (·.label) = (ns.filter (·.isLeaf)).map (·.label) := by
  induction h with
  | nil => rfl
  | @cons m n _ _ hmn _ ih =>
    rw [List.filter_cons, List.filter_cons, hmn.isLeaf]
    split
    · rw [List.map_cons, List.map_cons, ih, hmn.label]
    · exact ih

/-- A leaf survives if it is clear. -/
theorem isLeaf_and_isKept (removed : Nat → Bool) (n : Node) :
    (n.isLeaf && n.isKept removed) = (n.isLeaf && n.isClear removed) := by
  rcases hleaf : n.isLeaf with _ | _
  · rfl
  · rw [Bool.true_and, Bool.true_and, Bool.eq_iff_iff, isKept_iff]
    exact and_iff_left_of_imp fun hclear => ⟨n, mem_below_self n, hleaf, hclear⟩

theorem leaves_remove (t : Tree) (c : Nat) (removed : List Nat) : (t.remove removed).leaves =
    ((t.nodes c).filter fun n => n.isLeaf && n.isClear removed.contains).map (·.label) := by
  rw [leaves_nodes _ c, map_label_leaves (forall₂_nodes_remove t c c removed), filter_survives,
    List.filter_filter]
  simp only [isLeaf_and_isKept]

theorem isEmpty_iff_nodes : t.isEmpty = true ↔ t.nodes c = [] := by
  rcases t with ⟨_ | b⟩
  · exact iff_of_true rfl rfl
  · have hnodes : nodes ⟨some b⟩ c = _ := below_eq ⟨c, 0, b, []⟩
    rw [hnodes]
    exact iff_of_false Bool.false_ne_true (List.cons_ne_nil _ _)

theorem isEmpty_remove_iff (t : Tree) (c : Nat) (removed : List Nat) :
    (t.remove removed).isEmpty = true ↔
      ∀ n ∈ t.nodes c, n.isLeaf = true → n.isClear removed.contains = false := by
  have hempty : (t.remove removed).nodes c = [] ↔
      (t.nodes c).filter (isKept removed.contains) = [] := by
    rw [← List.length_eq_zero_iff, (forall₂_nodes_remove t c c removed).length_eq,
      filter_survives, List.length_eq_zero_iff]
  rw [isEmpty_iff_nodes, hempty, List.filter_eq_nil_iff]
  constructor
  · intro h n hn hleaf
    have hkept := h n hn
    rw [← Bool.true_and (n.isKept _), ← hleaf, isLeaf_and_isKept, hleaf] at hkept
    simpa using hkept
  · intro h n hn hkept
    obtain ⟨-, m, hm, hleaf, hclear⟩ := isKept_iff.1 hkept
    rw [h m (mem_nodes_of_mem_below hn hm) hleaf] at hclear
    cases hclear

theorem remove_congr {indices indices' : List Nat} (h : ∀ i, i ∈ indices ↔ i ∈ indices') :
    t.remove indices = t.remove indices' := by
  have hcontains : indices.contains = indices'.contains := by
    funext i
    rw [Bool.eq_iff_iff, List.contains_iff_mem, List.contains_iff_mem, h]
  rw [remove, remove, hcontains]

/-- The nodes of what is left of a tree are, in order, those that survive the removal, with their
labels, mothers and daughters: they are not below a removed node and dominate a leaf, or are one,
that is not either. So what is left has the leaves that are outside the removed subtrees, and it is
empty if there are none. Without a removal the tree stays as it is. A table that is put together
anew is the table of what is left. Pruning removes those of the given nodes that are nodes of this
candidate. -/
theorem nodes_remove (t : Tree) (c c' : Nat) (removed : List Nat) :
    List.Forall₂ (SeesAlike ((t.nodes c).filter (t.survives c removed.contains)))
      ((t.remove removed).nodes c') ((t.nodes c).filter (t.survives c removed.contains)) ∧
    (t.remove removed).leaves =
      ((t.nodes c).filter fun n => n.isLeaf && n.isClear removed.contains).map (·.label) ∧
    ((t.remove removed).isEmpty = true ↔
      ∀ n ∈ t.nodes c, n.isLeaf = true → n.isClear removed.contains = false) ∧
    t.remove [] = t ∧
    t.table.rebuild removed.contains 0 = (t.remove removed).table ∧
    ∀ illFormed : List Node,
      (∀ i, i ∈ removed ↔ ∃ n ∈ illFormed, n.candidate = c ∧ n.index = i) →
        t.pruneIn c illFormed = t.remove removed := by
  refine ⟨forall₂_nodes_remove t c c' removed, leaves_remove t c removed,
    isEmpty_remove_iff t c removed, remove_eq_self_iff.2 (by simp), Table.rebuild_table _ t,
    fun illFormed h => remove_congr fun i => ?_⟩
  rw [h]
  simp [and_assoc]

/-- The noun phrase is gone with its determiner. -/
theorem nodes_remove_phrase :
    let t : Tree :=
      .node "S" [.node "NP" [.node "D" [.leaf "a"]], .node "VP" [.leaf "b", .leaf "c"]]
    let illFormed := (t.nodes 0).filter (·.index ∈ [2, 6]) ++ t.nodes 1
    (∀ i, i ∈ [2, 6] ↔ ∃ n ∈ illFormed, n.candidate = 0 ∧ n.index = i) ∧
      t.pruneIn 0 illFormed = t.remove [2, 6] ∧
      t.remove [2, 6] = .node "S" [.node "VP" [.leaf "b"]] := by
  intro t illFormed
  have hgiven : ∀ i, i ∈ [2, 6] ↔ ∃ n ∈ illFormed, n.candidate = 0 ∧ n.index = i := by
    have hnumbers : ∀ n ∈ illFormed, n.candidate = 0 → n.index ∈ [2, 6] := by decide
    have hnodes : ∀ i ∈ [2, 6], ∃ n ∈ illFormed, n.candidate = 0 ∧ n.index = i := by decide
    exact fun i => ⟨hnodes i, fun ⟨n, hn, hc, hi⟩ => hi ▸ hnumbers n hn hc⟩
  exact ⟨hgiven, (nodes_remove t 0 0 [2, 6]).2.2.2.2.2 illFormed hgiven, by decide⟩

end Tree

end Violable
