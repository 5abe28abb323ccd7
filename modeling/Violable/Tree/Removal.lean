import Violable.Tree.Node

/-!
# Removal of subtrees

Nodes can be taken out of a tree with all that is below them. A node that loses all its daughters
is taken out too, so that removal never turns an inner node into a leaf.
-/

namespace Violable

mutual

/-- What is left of a branch whose top has number `index`. -/
def Branch.remove? (removed : Nat → Bool) (index : Nat) : Branch → Option Branch
  | .node l [] => if removed index then none else some (.leaf l)
  | .node l (d :: ds) =>
    if removed index then none
    else
      match removeOf removed (index + 1) (d :: ds) with
      | [] => none
      | kept => some (.node l kept)

/-- What is left of a list of sisters, the first of which has number `index`. -/
def Branch.removeOf (removed : Nat → Bool) (index : Nat) : List Branch → List Branch
  | [] => []
  | d :: ds => (remove? removed index d).toList ++ removeOf removed (index + d.size) ds

end

namespace Tree

/-- The tree without the subtrees at the given nodes. -/
def remove (t : Tree) (indices : List Nat) : Tree :=
  ⟨t.top?.bind (·.remove? indices.contains 0)⟩

/-- The tree without the subtrees at those of the given nodes that are nodes of this candidate. -/
def pruneIn (candidate : Nat) (t : Tree) (illFormed : List Node) : Tree :=
  t.remove ((illFormed.filter (·.candidate == candidate)).map (·.index))

/-- A tree that is judged on its own is candidate number 0. Its elements are its inner nodes. -/
instance : Candidate Tree Node where
  elements t := t.subtrees 0
  prune := pruneIn 0
  isEmpty := isEmpty

end Tree

end Violable
