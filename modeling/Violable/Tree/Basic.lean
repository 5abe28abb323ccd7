/-!
# Trees

A parse tree is empty or has a node at its top. Every node has a label and daughters in a fixed
order; one without daughters is a leaf. Nodes are numbered from the top in the order in which
they are met: a node comes before its daughters, and a daughter with all that is below it before
the next daughter.
-/

namespace Violable

/-- A node with all that is below it. -/
inductive Branch where
  | node (label : String) (daughters : List Branch)

namespace Branch

def label : Branch → String
  | node l _ => l

def daughters : Branch → List Branch
  | node _ ds => ds

def leaf (label : String) : Branch := node label []

def isLeaf (b : Branch) : Bool := b.daughters.isEmpty

mutual

def decEq : (b c : Branch) → Decidable (b = c)
  | node l ds, node l' ds' =>
    match (inferInstance : Decidable (l = l')) with
    | isFalse h => isFalse fun e => h (Branch.node.inj e).1
    | isTrue h =>
      match decEqList ds ds' with
      | isFalse h' => isFalse fun e => h' (Branch.node.inj e).2
      | isTrue h' => isTrue (h ▸ h' ▸ rfl)

def decEqList : (bs cs : List Branch) → Decidable (bs = cs)
  | [], [] => isTrue rfl
  | [], _ :: _ => isFalse (by simp)
  | _ :: _, [] => isFalse (by simp)
  | b :: bs, c :: cs =>
    match decEq b c with
    | isFalse h => isFalse fun e => h (List.cons.inj e).1
    | isTrue h =>
      match decEqList bs cs with
      | isFalse h' => isFalse fun e => h' (List.cons.inj e).2
      | isTrue h' => isTrue (h ▸ h' ▸ rfl)

end

instance : DecidableEq Branch := decEq

instance : Inhabited Branch := ⟨leaf ""⟩

mutual

/-- The number of nodes, leaves included. -/
def size : Branch → Nat
  | node _ ds => sizes ds + 1

/-- The number of nodes of all branches in a list. -/
def sizes : List Branch → Nat
  | [] => 0
  | b :: bs => size b + sizes bs

end

mutual

/-- The labels of the leaves from left to right. -/
def leaves : Branch → List String
  | node l [] => [l]
  | node _ (d :: ds) => leaves d ++ leavesOf ds

def leavesOf : List Branch → List String
  | [] => []
  | b :: bs => leaves b ++ leavesOf bs

end

end Branch

/-- A parse tree. -/
structure Tree where
  top? : Option Branch
  deriving DecidableEq

namespace Tree

/-- The tree without nodes. -/
def empty : Tree := ⟨none⟩

def leaf (label : String) : Tree := ⟨some (.leaf label)⟩

/-- A new node over the tops of the given trees. Empty trees are skipped. -/
def node (label : String) (children : List Tree) : Tree :=
  ⟨some (.node label (children.filterMap (·.top?)))⟩

def isEmpty (t : Tree) : Bool := t.top?.isNone

/-- The number of nodes, leaves included. -/
def size (t : Tree) : Nat := (t.top?.map Branch.size).getD 0

/-- The labels of the leaves from left to right. -/
def leaves (t : Tree) : List String := (t.top?.map Branch.leaves).getD []

end Tree

end Violable
