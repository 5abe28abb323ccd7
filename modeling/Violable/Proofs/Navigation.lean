import Mathlib.Data.List.Nodup
import Mathlib.Logic.Relation
import Violable.Proofs.Preorder

/-!
# Moving through a tree

A daughter is told by where the list of branches below her mother is cut (`exists_daughter`), and
from there one sees her mother, her place and her nearest sisters. So the sisters of a node are the
daughters at the places next to its own (`leftSibling?_of_child`, `rightSibling?_of_child`), and
each node of a tree but the top is a daughter of its mother, who is in the tree too
(`mem_of_parent`). From these all ways through a tree are found to agree (`navigation`).
-/

namespace Violable

namespace Branch

theorem sizes_append (bs cs : List Branch) : sizes (bs ++ cs) = sizes bs + sizes cs := by
  induction bs with
  | nil => rw [List.nil_append, sizes, Nat.zero_add]
  | cons b bs ih => rw [List.cons_append, sizes_cons, sizes_cons, ih, Nat.add_assoc]

theorem sizes_reverse (bs : List Branch) : sizes bs.reverse = sizes bs := by
  induction bs with
  | nil => rfl
  | cons b bs ih =>
    rw [List.reverse_cons, sizes_append, ih, sizes_cons, sizes_cons, sizes]
    omega

end Branch

namespace Node

open Branch

section Daughters

/-- The daughter of a node where its list of daughters is cut into those before, her and those
after her. -/
def daughter (n : Node) (before : List Branch) (b : Branch) (after : List Branch) : Node :=
  { candidate := n.candidate, index := n.index + 1 + sizes before, branch := b,
    frames := ⟨n.label, before.reverse, after⟩ :: n.frames }

theorem map_branch_sisters (c : Nat) (l : String) (frames : List Frame) (i : Nat)
    (left bs : List Branch) : (sisters c l frames i left bs).map (·.branch) = bs := by
  induction bs generalizing i left with
  | nil => rfl
  | cons b bs ih => rw [sisters, List.map_cons, ih]

theorem getElem?_sisters (c : Nat) (l : String) (frames : List Frame) (i : Nat)
    (left before : List Branch) (b : Branch) (after : List Branch) :
    (sisters c l frames i left (before ++ b :: after))[before.length]? =
      some ⟨c, i + sizes before, b, ⟨l, before.reverse ++ left, after⟩ :: frames⟩ := by
  induction before generalizing i left with
  | nil => rfl
  | cons a before ih =>
    rw [List.cons_append, sisters, List.length_cons, List.getElem?_cons_succ, ih, sizes_cons,
      List.reverse_cons, List.append_assoc, List.singleton_append, Nat.add_assoc]

variable {n d : Node} {before after : List Branch} {a b : Branch}

theorem map_branch_children (n : Node) : n.children.map (·.branch) = n.branch.daughters :=
  map_branch_sisters _ _ _ _ _ _

theorem length_children (n : Node) : n.children.length = n.arity := by
  rw [arity, ← map_branch_children, List.length_map]

theorem any_child? (n : Node) (k : Nat) (f : String → Bool) :
    (n.child? k).any (f ·.label) = (n.children.map label)[k]?.any f := by
  rw [child?, List.getElem?_map, Option.any_map]

theorem child?_daughter (h : n.branch.daughters = before ++ b :: after) :
    n.child? before.length = some (n.daughter before b after) := by
  rw [child?, children, h, getElem?_sisters, List.append_nil]
  rfl

/-- Each daughter is told by where the list is cut. -/
theorem exists_daughter {k : Nat} (h : n.child? k = some d) : ∃ before b after,
    n.branch.daughters = before ++ b :: after ∧ before.length = k ∧
      d = n.daughter before b after := by
  obtain ⟨hk, -⟩ := List.getElem?_eq_some_iff.1 h
  have hlength : k < n.branch.daughters.length := by
    rwa [← map_branch_children, List.length_map]
  have hcut : n.branch.daughters = n.branch.daughters.take k ++
      n.branch.daughters[k] :: n.branch.daughters.drop (k + 1) := by
    rw [List.getElem_cons_drop, List.take_append_drop]
  have htake : (n.branch.daughters.take k).length = k :=
    List.length_take_of_le (Nat.le_of_lt hlength)
  refine ⟨_, _, _, hcut, htake, Option.some.inj ?_⟩
  rw [← h, ← child?_daughter hcut, htake]

theorem parent?_daughter (h : n.branch.daughters = before ++ b :: after) :
    (n.daughter before b after).parent? = some n := by
  obtain ⟨c, i, ⟨l, ds⟩, frames⟩ := n
  obtain rfl : ds = before ++ b :: after := h
  simp only [daughter, parent?, Frame.fill, sizes_reverse, List.reverse_reverse, label,
    Branch.label]
  congr 2
  omega

theorem leftSibling?_daughter : (n.daughter (before ++ [a]) b after).leftSibling? =
    some (n.daughter before a (b :: after)) := by
  simp only [daughter, leftSibling?, List.reverse_append, List.reverse_singleton,
    List.singleton_append, sizes_append, sizes]
  congr 2
  omega

theorem rightSibling?_daughter_nil : (n.daughter before b []).rightSibling? = none := rfl

theorem rightSibling?_daughter : (n.daughter before b (a :: after)).rightSibling? =
    some (n.daughter (before ++ [b]) a after) := by
  simp only [daughter, rightSibling?, List.reverse_append, List.reverse_singleton,
    List.singleton_append, sizes_append, sizes]
  congr 2
  omega

theorem position?_daughter : (n.daughter before b after).position? = some before.length :=
  congrArg some List.length_reverse

end Daughters

section Child

variable {p n : Node} {k : Nat}

theorem parent?_of_child (h : p.child? k = some n) : n.parent? = some p := by
  obtain ⟨before, b, after, hcut, -, rfl⟩ := exists_daughter h
  exact parent?_daughter hcut

theorem position?_of_child (h : p.child? k = some n) : n.position? = some k := by
  obtain ⟨before, b, after, -, rfl, rfl⟩ := exists_daughter h
  exact position?_daughter

/-- The nearest sister on the left is the daughter one place before. -/
theorem leftSibling?_of_child (h : p.child? k = some n) :
    n.leftSibling? = if k = 0 then none else p.child? (k - 1) := by
  obtain ⟨before, b, after, hcut, rfl, rfl⟩ := exists_daughter h
  rcases before.eq_nil_or_concat with rfl | ⟨before, a, rfl⟩
  · rfl
  · rw [List.concat_eq_append] at hcut ⊢
    rw [List.append_assoc, List.singleton_append] at hcut
    have hchild := child?_daughter hcut
    simp [leftSibling?_daughter, hchild]

/-- The nearest sister on the right is the daughter one place after. -/
theorem rightSibling?_of_child (h : p.child? k = some n) :
    n.rightSibling? = p.child? (k + 1) := by
  obtain ⟨before, b, after, hcut, rfl, rfl⟩ := exists_daughter h
  rcases after with _ | ⟨a, after⟩
  · have hlength : p.children.length = before.length + 1 := by
      rw [← List.length_map, map_branch_children, hcut, List.length_append]
      rfl
    rw [rightSibling?_daughter_nil, child?, List.getElem?_eq_none (Nat.le_of_eq hlength)]
  · have hcut' : p.branch.daughters = (before ++ [b]) ++ a :: after := by
      rw [hcut, List.append_assoc, List.singleton_append]
    have hchild := child?_daughter hcut'
    rw [List.length_append, List.length_singleton] at hchild
    rw [rightSibling?_daughter, hchild]

end Child

section Siblings

variable {p n m : Node} {k : Nat}

theorem leftSiblings_of_none (h : n.leftSibling? = none) : n.leftSiblings = [] := by
  rw [leftSiblings]
  split <;> simp_all

theorem leftSiblings_of_some (h : n.leftSibling? = some m) :
    n.leftSiblings = m :: m.leftSiblings := by
  rw [leftSiblings]
  split <;> simp_all

theorem rightSiblings_of_none (h : n.rightSibling? = none) : n.rightSiblings = [] := by
  rw [rightSiblings]
  split <;> simp_all

theorem leftSiblings_of_child (h : p.child? k = some n) :
    n.leftSiblings = (p.children.take k).reverse := by
  induction k generalizing n with
  | zero =>
    rw [leftSiblings_of_none (leftSibling?_of_child h), List.take_zero, List.reverse_nil]
  | succ k ih =>
    have hk : k < p.children.length := Nat.lt_of_succ_lt (List.getElem?_eq_some_iff.1 h).1
    have hleft : p.child? k = some p.children[k] := List.getElem?_eq_getElem hk
    have hsibling : n.leftSibling? = some p.children[k] := (leftSibling?_of_child h).trans hleft
    rw [leftSiblings_of_some hsibling, ih hleft, ← List.take_append_getElem hk,
      List.reverse_append, List.reverse_singleton, List.singleton_append]

theorem rightSiblings_of_child (h : p.child? k = some n) :
    n.rightSiblings = p.children.drop (k + 1) := by
  -- by induction on the walk, along which the place `k` grows
  fun_induction rightSiblings n generalizing k with
  | case1 n hnone =>
    rw [rightSibling?_of_child h] at hnone
    rw [List.drop_eq_nil_of_le (List.getElem?_eq_none_iff.1 hnone)]
  | case2 n m hsome ih =>
    rw [rightSibling?_of_child h] at hsome
    obtain ⟨hk, rfl⟩ := List.getElem?_eq_some_iff.1 hsome
    rw [ih hsome, List.getElem_cons_drop]

/-- A node stands with its sisters as the daughters of its mother stand. -/
theorem siblings_of_child (h : p.child? k = some n) :
    n.leftSiblings.reverse ++ n :: n.rightSiblings = p.children := by
  obtain ⟨hk, rfl⟩ := List.getElem?_eq_some_iff.1 h
  rw [leftSiblings_of_child h, rightSiblings_of_child h, List.reverse_reverse,
    List.getElem_cons_drop, List.take_append_drop]

/-- A search for the number of a node among the daughters of her mother ends at her place. -/
theorem idxOf?_of_child (h : p.child? k = some n) :
    (p.children.map (·.index)).idxOf? n.index = some k := by
  have hincreasing : (p.children.map (·.index)).Pairwise (· < ·) := by
    rw [children, map_index_sisters]
    exact starts_increasing _ _
  obtain ⟨hk, rfl⟩ := List.getElem?_eq_some_iff.1 h
  have hlength : k < (p.children.map (·.index)).length := by rwa [List.length_map]
  have hself : (p.children.map (·.index))[k] = p.children[k].index := List.getElem_map _
  refine List.idxOf?_eq_some_iff.2 ⟨hlength, hself, fun j hj => hself ▸ Nat.ne_of_lt ?_⟩
  exact List.pairwise_iff_getElem.1 hincreasing j k (Nat.lt_trans hj hlength) hlength hj

end Siblings

section Below

/-- What holds of each node of whose daughters it holds, holds of all nodes. -/
@[elab_as_elim]
theorem induction {P : Node → Prop} (step : ∀ n, (∀ d ∈ n.children, P d) → P n) (n : Node) :
    P n := by
  obtain ⟨c, i, b, frames⟩ := n
  induction b generalizing i frames with
  | node l ds ih =>
    refine step _ fun d hd => ?_
    obtain ⟨k, hk⟩ := List.getElem?_of_mem hd
    obtain ⟨before, b, after, hcut, -, rfl⟩ := exists_daughter hk
    have hds : ds = before ++ b :: after := hcut
    exact ih b (hds ▸ List.mem_append_right _ List.mem_cons_self) _ _

/-- The node and all nodes below it, in order. -/
def below (n : Node) : List Node := n.branch.nodesIn n.candidate n.frames n.index

theorem nodesOf_eq (c : Nat) (l : String) (frames : List Frame) (i : Nat) (left bs : List Branch) :
    nodesOf c l frames i left bs = (sisters c l frames i left bs).flatMap below := by
  induction bs generalizing i left with
  | nil => rfl
  | cons b bs ih => rw [nodesOf, sisters, List.flatMap_cons, ih, below]

theorem below_eq (n : Node) : n.below = n :: n.children.flatMap below := by
  obtain ⟨c, i, ⟨l, ds⟩, frames⟩ := n
  rw [below, nodesIn, nodesOf_eq]
  rfl

variable {n m p d : Node}

theorem mem_below : m ∈ n.below ↔ m = n ∨ ∃ d ∈ n.children, m ∈ d.below := by
  rw [below_eq, List.mem_cons, List.mem_flatMap]

theorem mem_below_self (n : Node) : n ∈ n.below := mem_below.2 (.inl rfl)

/-- What is below a node is met by going from daughter to daughter. -/
theorem mem_below_iff :
    m ∈ n.below ↔ Relation.ReflTransGen (fun d p => d ∈ p.children) m n := by
  constructor
  · intro h
    induction n using induction with
    | step n ih =>
      rcases mem_below.1 h with rfl | ⟨d, hd, h⟩
      · exact .refl
      · exact (ih d hd h).tail hd
  · intro h
    induction h with
    | refl => exact mem_below_self m
    | tail _ hd ih => exact mem_below.2 (.inr ⟨_, hd, ih⟩)

theorem mem_below_of_mem_children (hm : m ∈ n.below) (hd : d ∈ m.children) : d ∈ n.below :=
  mem_below_iff.2 ((mem_below_iff.1 hm).head hd)

theorem eq_or_daughter_of_mem_below (hm : m ∈ n.below) : m = n ∨ ∃ p ∈ n.below, m ∈ p.children := by
  rcases (mem_below_iff.1 hm).cases_head with rfl | ⟨p, hp, hpn⟩
  · exact .inl rfl
  · exact .inr ⟨p, mem_below_iff.2 hpn, hp⟩

theorem parent?_of_mem_children (h : d ∈ n.children) : d.parent? = some n := by
  obtain ⟨k, hk⟩ := List.getElem?_of_mem h
  exact parent?_of_child hk

/-- Node `a` is node `n`, or it is met by going from mother to mother. -/
def IsUnder (n a : Node) : Prop := Relation.ReflTransGen (fun m p => m.parent? = some p) n a

theorem isUnder_of_mem_below (h : m ∈ n.below) : m.IsUnder n :=
  Relation.ReflTransGen.mono (fun _ _ => parent?_of_mem_children) _ _ (mem_below_iff.1 h)

end Below

end Node

namespace Tree

open Node

variable {t : Tree} {c : Nat} {n d p r : Node}

theorem mem_nodes : n ∈ t.nodes c ↔ ∃ r, t.root? c = some r ∧ n ∈ r.below := by
  rcases t with ⟨_ | b⟩
  · simp [nodes, root?]
  · simp [nodes, root?, below]

theorem mem_nodes_of_child (hn : n ∈ t.nodes c) (hd : d ∈ n.children) : d ∈ t.nodes c := by
  obtain ⟨r, hr, hn⟩ := mem_nodes.1 hn
  exact mem_nodes.2 ⟨r, hr, mem_below_of_mem_children hn hd⟩

theorem mem_subtrees_of_child (hn : n ∈ t.nodes c) (hd : d ∈ n.children) : n ∈ t.subtrees c := by
  refine List.mem_filter.2 ⟨hn, ?_⟩
  have hpos : 0 < n.arity := length_children n ▸ List.length_pos_of_mem hd
  simpa [isLeaf, Branch.isLeaf] using List.length_pos_iff.1 hpos

/-- The row with the number of a node has its links. -/
theorem getElem?_table (hn : n ∈ t.nodes c) : t.table[n.index]? = some n.row := by
  obtain ⟨i, hi⟩ := List.getElem?_of_mem hn
  rw [← map_row_nodes t c, List.getElem?_map, index_of_getElem? hi, hi, Option.map_some]

theorem frames_of_root (h : t.root? c = some r) : r.frames = [] := by
  obtain ⟨b, -, rfl⟩ := Option.map_eq_some_iff.1 h
  rfl

/-- The mother of a node of a tree is in the tree, and the node is one of her daughters. -/
theorem mem_of_parent (hn : n ∈ t.nodes c) (hp : n.parent? = some p) :
    p ∈ t.nodes c ∧ n ∈ p.children := by
  obtain ⟨r, hr, hn⟩ := mem_nodes.1 hn
  rcases eq_or_daughter_of_mem_below hn with rfl | ⟨q, hq, hn⟩
  · simp [parent?, frames_of_root hr] at hp
  · obtain rfl : q = p := Option.some.inj ((parent?_of_mem_children hn).symm.trans hp)
    exact ⟨mem_nodes.2 ⟨r, hr, hq⟩, hn⟩

theorem top_or_child (hn : n ∈ t.nodes c) :
    n.frames = [] ∨ ∃ p ∈ t.nodes c, ∃ k, p.child? k = some n := by
  obtain ⟨r, hr, hn⟩ := mem_nodes.1 hn
  rcases eq_or_daughter_of_mem_below hn with rfl | ⟨p, hp, hn⟩
  · exact .inl (frames_of_root hr)
  · exact .inr ⟨p, mem_nodes.2 ⟨r, hr, hp⟩, List.getElem?_of_mem hn⟩

/-- The nearest sister on the left has the node as her nearest sister on the right, and the other
way round. -/
theorem siblings_inverse (hn : n ∈ t.nodes c) (m : Node) :
    (n.leftSibling? = some m → m ∈ t.nodes c ∧ m.rightSibling? = some n) ∧
      (n.rightSibling? = some m → m ∈ t.nodes c ∧ m.leftSibling? = some n) := by
  rcases top_or_child hn with htop | ⟨p, hp, k, hk⟩
  · simp [leftSibling?, rightSibling?, htop]
  rw [leftSibling?_of_child hk, rightSibling?_of_child hk]
  refine ⟨fun hm => ?_, fun hm => ?_⟩
  · split at hm
    · cases hm
    · have hnext : k - 1 + 1 = k := by omega
      refine ⟨mem_nodes_of_child hp (List.mem_of_getElem? hm), ?_⟩
      rw [rightSibling?_of_child hm, hnext, hk]
  · refine ⟨mem_nodes_of_child hp (List.mem_of_getElem? hm), ?_⟩
    rw [leftSibling?_of_child hm, if_neg (Nat.succ_ne_zero k), Nat.add_sub_cancel, hk]

/-- All ways through a tree agree. A daughter has the node as her mother, and her place as her
position. A node is found among the daughters of its mother by its number and at its position; its
nearest sisters are the daughters next to it, and all its sisters in order are, with the node
itself, the daughters of its mother. Going to the left undoes going to the right. The top has no
mother, no position and no sisters, and it is met from each node by going from mother to mother.
The table of the tree has the same links. -/
theorem navigation (t : Tree) (c : Nat) :
    (∀ n ∈ t.nodes c, ∀ i d, n.child? i = some d →
      d ∈ t.nodes c ∧ d.parent? = some n ∧ d.position? = some i) ∧
    (∀ n ∈ t.nodes c, ∀ p, n.parent? = some p → p ∈ t.nodes c ∧
      (∃ i, n.position? = some i ∧ p.child? i = some n ∧
        (p.children.map (·.index)).idxOf? n.index = some i ∧
        n.leftSibling? = (if i = 0 then none else p.child? (i - 1)) ∧
        n.rightSibling? = p.child? (i + 1)) ∧
      n.leftSiblings.reverse ++ n :: n.rightSiblings = p.children) ∧
    (∀ n ∈ t.nodes c, ∀ m,
      (n.leftSibling? = some m → m ∈ t.nodes c ∧ m.rightSibling? = some n) ∧
      (n.rightSibling? = some m → m ∈ t.nodes c ∧ m.leftSibling? = some n)) ∧
    (∀ r, t.root? c = some r → r ∈ t.nodes c ∧ r.parent? = none ∧ r.position? = none ∧
      r.leftSibling? = none ∧ r.rightSibling? = none ∧
      r.leftSiblings = [] ∧ r.rightSiblings = []) ∧
    (∀ n ∈ t.nodes c, ∃ r, t.root? c = some r ∧ n.IsUnder r) ∧
    ∀ n ∈ t.nodes c, t.table[n.index]? = some n.row := by
  refine ⟨fun n hn i d hd => ?_, fun n hn p hp => ?_, fun n hn m => siblings_inverse hn m,
    fun r hr => ?_, fun n hn => ?_, fun n hn => getElem?_table hn⟩
  · exact ⟨mem_nodes_of_child hn (List.mem_of_getElem? hd), parent?_of_child hd,
      position?_of_child hd⟩
  · obtain ⟨hp, hn⟩ := mem_of_parent hn hp
    obtain ⟨k, hk⟩ := List.getElem?_of_mem hn
    exact ⟨hp, ⟨k, position?_of_child hk, hk, idxOf?_of_child hk, leftSibling?_of_child hk,
      rightSibling?_of_child hk⟩, siblings_of_child hk⟩
  · have htop := frames_of_root hr
    have hleft : r.leftSibling? = none := by rw [leftSibling?, htop]
    have hright : r.rightSibling? = none := by rw [rightSibling?, htop]
    exact ⟨mem_nodes.2 ⟨r, hr, mem_below_self r⟩, by rw [parent?, htop],
      by rw [position?, htop]; rfl, hleft, hright, leftSiblings_of_none hleft,
      rightSiblings_of_none hright⟩
  · obtain ⟨r, hr, hn⟩ := mem_nodes.1 hn
    exact ⟨r, hr, isUnder_of_mem_below hn⟩

theorem navigation_phrase :
    let t : Tree := .node "S" [.leaf "a", .node "A" [.leaf "b", .leaf "c"], .leaf "d"]
    ∃ n ∈ t.nodes 0, ∃ d p a, n.child? 1 = some d ∧ n.parent? = some p ∧ n.leftSibling? = some a ∧
      d.parent? = some n ∧ d.position? = some 1 ∧ a.rightSibling? = some n ∧
      n.leftSiblings.reverse ++ n :: n.rightSiblings = p.children ∧
      p.position? = none ∧ ∃ r, t.root? 0 = some r ∧ d.IsUnder r := by
  intro t
  obtain ⟨hchild, hparent, hsiblings, hroot, hup, -⟩ := navigation t 0
  have hn : (t.nodes 0)[2] ∈ t.nodes 0 := List.getElem_mem _
  obtain ⟨hd, hmother, hplace⟩ := hchild _ hn 1 _ rfl
  exact ⟨_, hn, _, _, _, rfl, rfl, rfl, hmother, hplace, ((hsiblings _ hn _).1 rfl).2,
    (hparent _ hn _ rfl).2.2, (hroot _ rfl).2.2.1, hup _ hd⟩

end Tree

end Violable
