import Violable.Element
import Violable.Tree.Basic
import Violable.Text.Quoted

/-!
# Nodes of a tree

A node is held with what is below it and with what surrounds it on the way to the top, so that
one can move from it to its mother, daughters and sisters. It also says of which candidate it is a
node: nodes of two candidates are different even where the candidates look alike.
-/

namespace Violable

/-- A mother without one of her daughters: the other daughters on both sides of the gap, the
nearest first. -/
structure Frame where
  label : String
  left : List Branch
  right : List Branch
  deriving DecidableEq

/-- The mother with her gap filled. -/
def Frame.fill (f : Frame) (b : Branch) : Branch :=
  .node f.label (f.left.reverse ++ b :: f.right)

/-- A node in its place in a tree. The frames around it lead to the top. -/
structure Node where
  candidate : Nat
  index : Nat
  branch : Branch
  frames : List Frame
  deriving DecidableEq

namespace Node

def label (n : Node) : String := n.branch.label

def isLeaf (n : Node) : Bool := n.branch.isLeaf

/-- The number of daughters. -/
def arity (n : Node) : Nat := n.branch.daughters.length

def parent? (n : Node) : Option Node :=
  match n.frames with
  | [] => none
  | f :: fs =>
    some { n with
      index := n.index - 1 - Branch.sizes f.left
      branch := f.fill n.branch
      frames := fs }

/-- The place among the daughters of the mother. -/
def position? (n : Node) : Option Nat := n.frames.head?.map (·.left.length)

/-- The nodes of a list of sisters, where `left` are the sisters before them. -/
def sisters (candidate : Nat) (label : String) (frames : List Frame) (index : Nat)
    (left : List Branch) : List Branch → List Node
  | [] => []
  | d :: ds =>
    { candidate, index, branch := d, frames := ⟨label, left, ds⟩ :: frames } ::
      sisters candidate label frames (index + d.size) (d :: left) ds

def children (n : Node) : List Node :=
  sisters n.candidate n.label n.frames (n.index + 1) [] n.branch.daughters

def child? (n : Node) (i : Nat) : Option Node := n.children[i]?

def leftSibling? (n : Node) : Option Node :=
  match n.frames with
  | ⟨l, d :: left, right⟩ :: fs =>
    some { n with
      index := n.index - d.size
      branch := d
      frames := ⟨l, left, n.branch :: right⟩ :: fs }
  | _ => none

def rightSibling? (n : Node) : Option Node :=
  match n.frames with
  | ⟨l, left, d :: right⟩ :: fs =>
    some { n with
      index := n.index + n.branch.size
      branch := d
      frames := ⟨l, n.branch :: left, right⟩ :: fs }
  | _ => none

/-- The sisters on the left, nearest first. -/
def leftSiblings (n : Node) : List Node :=
  match _h : n.leftSibling? with
  | none => []
  | some m => m :: m.leftSiblings
termination_by ((n.frames.head?.map (·.left)).getD []).length
decreasing_by
  unfold leftSibling? at _h
  split at _h
  · rename_i hf
    obtain rfl := Option.some.inj _h
    simp [hf]
  · simp at _h

/-- The sisters on the right, nearest first. -/
def rightSiblings (n : Node) : List Node :=
  match _h : n.rightSibling? with
  | none => []
  | some m => m :: m.rightSiblings
termination_by ((n.frames.head?.map (·.right)).getD []).length
decreasing_by
  unfold rightSibling? at _h
  split at _h
  · rename_i hf
    obtain rfl := Option.some.inj _h
    simp [hf]
  · simp at _h

/-- The neighbours of a node are its nearest sisters. -/
instance : Element Node where
  label := label
  left? n := n.leftSibling?.map label
  right? n := n.rightSibling?.map label

/-- All about a node, as a reader of logs sees it. -/
def inspect (n : Node) : String :=
  "TreeNode \x7b id: " ++ toString n.index ++ ", label: " ++ Text.quoted n.label ++ " \x7d"

end Node

mutual

/-- A branch's top and all below it, numbered from `index`. -/
def Branch.nodesIn (candidate : Nat) (frames : List Frame) (index : Nat) : Branch → List Node
  | .node l ds =>
    { candidate, index, branch := .node l ds, frames } ::
      nodesOf candidate l frames (index + 1) [] ds

/-- All nodes of the daughters of one mother, where `left` are the sisters before them. -/
def Branch.nodesOf (candidate : Nat) (label : String) (frames : List Frame) (index : Nat)
    (left : List Branch) : List Branch → List Node
  | [] => []
  | d :: ds =>
    nodesIn candidate (⟨label, left, ds⟩ :: frames) index d ++
      nodesOf candidate label frames (index + d.size) (d :: left) ds

end

namespace Tree

/-- All nodes in order, so that the node with index `i` stands at place `i`. -/
def nodes (t : Tree) (candidate : Nat) : List Node :=
  match t.top? with
  | none => []
  | some b => b.nodesIn candidate [] 0

def root? (t : Tree) (candidate : Nat) : Option Node :=
  t.top?.map fun b => { candidate, index := 0, branch := b, frames := [] }

/-- The nodes that are not leaves. -/
def subtrees (t : Tree) (candidate : Nat) : List Node :=
  (t.nodes candidate).filter (! ·.isLeaf)

end Tree

end Violable
