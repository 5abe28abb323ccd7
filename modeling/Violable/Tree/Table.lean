import Violable.Tree.Node

/-!
# Trees as tables

A tree can be laid out as a table with a row for each node, in the order of the numbers of the
nodes. The rows are linked by these numbers. Such tables are put together from below: a new node
comes first, and the rows of each of its daughters are moved behind those that are there already.
-/

namespace Violable

/-- A node in a table, with the numbers of its mother and of its daughters. -/
structure Row where
  label : String
  mother? : Option Nat
  daughters : List Nat
  deriving DecidableEq

/-- A row that is moved `k` places on with all to which it is linked. -/
def Row.shift (k : Nat) (r : Row) : Row :=
  ⟨r.label, r.mother?.map (· + k), r.daughters.map (· + k)⟩

/-- The row of a node, as one sees it from the node. -/
def Node.row (n : Node) : Row :=
  ⟨n.label, n.parent?.map (·.index), n.children.map (·.index)⟩

abbrev Table := List Row

namespace Table

def leaf (label : String) : Table := [⟨label, none, []⟩]

/-- Makes the top of the second table the last daughter of the top of the first one. A table
without rows is skipped. -/
def graft : Table → Table → Table
  | top :: rows, first :: more =>
    let k := rows.length + 1
    let moved := first.shift k
    { top with daughters := top.daughters ++ [k] } ::
      (rows ++ { moved with mother? := moved.mother?.or (some 0) } :: more.map (Row.shift k))
  | t, _ => t

/-- A new node over the tops of the given tables. -/
def node (label : String) (tables : List Table) : Table := tables.foldl graft (leaf label)

/-- What is left of the branch at row `i`, put together anew. Rows are linked to daughters that
come later; no other links are followed. -/
def rebuild (t : Table) (removed : Nat → Bool) (i : Nat) : Table :=
  if removed i then []
  else
    match t[i]? with
    | none => []
    | some r =>
      if r.daughters.isEmpty then leaf r.label
      else
        let kept := (r.daughters.map fun d =>
          if i < d ∧ d < t.length then rebuild t removed d else []).filter (! ·.isEmpty)
        if kept.isEmpty then [] else node r.label kept
termination_by t.length - i

end Table

mutual

/-- The table that is put together for a branch from its leaves up. -/
def Branch.assemble : Branch → Table
  | .node l ds => Table.node l (assembleAll ds)

def Branch.assembleAll : List Branch → List Table
  | [] => []
  | d :: ds => assemble d :: assembleAll ds

end

/-- The numbers of sisters, of which the first has number `i`. -/
def Branch.starts (i : Nat) : List Branch → List Nat
  | [] => []
  | d :: ds => i :: starts (i + d.size) ds

mutual

/-- The rows of a branch whose top has number `i`. -/
def Branch.rows (mother? : Option Nat) (i : Nat) : Branch → Table
  | .node l ds => ⟨l, mother?, starts (i + 1) ds⟩ :: rowsOf i (i + 1) ds

/-- The rows of the daughters of row `m`, of which the first has number `i`. -/
def Branch.rowsOf (m i : Nat) : List Branch → Table
  | [] => []
  | d :: ds => rows (some m) i d ++ rowsOf m (i + d.size) ds

end

/-- The rows of all nodes, from the top. -/
def Tree.table (t : Tree) : Table := (t.top?.map (Branch.rows none 0)).getD []

end Violable
