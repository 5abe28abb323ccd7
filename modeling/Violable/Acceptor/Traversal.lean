import Violable.Sorted.Map
import Violable.Sorted.Set

/-!
# Traversing a table of neighbours

Edges can be gathered in a table that gives each thing its neighbours, in the order of the edges. A
traversal goes through such a table from some roots with a stack of things to visit. The thing on
top is taken off. If it is met for the first time it is noted, and all its neighbours are put on
the stack, whether they are noted or not; so one thing may be on the stack in many places.
-/

namespace Violable

/-- For each thing with neighbours the list of these, in which one may come twice. -/
abbrev Neighbours (α : Type) [Ord α] := SortedMap α (List α)

namespace Neighbours

variable {α : Type} [Ord α]

/-- The edges to the neighbours, one by one. -/
def edges (g : Neighbours α) : List (α × α) :=
  g.entries.flatMap fun e => e.2.map (e.1, ·)

variable [DecidableEq α]

/-- The neighbours of a thing. One without an entry has none. -/
def next (g : Neighbours α) (a : α) : List α := (g.get? a).getD []

variable [Std.TransOrd α] [Std.LawfulEqOrd α]

/-- Adds an edge after those from the same thing. -/
def add (g : Neighbours α) (e : α × α) : Neighbours α :=
  g.alter e.1 fun l => l.getD [] ++ [e.2]

def ofEdges (edges : List (α × α)) : Neighbours α := edges.foldl add ∅

end Neighbours

/-- What is on the stack, the top first, and what is noted. -/
structure Traversal (α : Type) [Ord α] where
  stack : List α
  noted : SortedSet α

namespace Traversal

variable {α : Type} [Ord α]

/-- At first the roots are on the stack, the last one on top. -/
def initial (roots : List α) : Traversal α := ⟨roots.reverse, ∅⟩

variable [DecidableEq α] [Std.TransOrd α] [Std.LawfulEqOrd α]

/-- Visits the thing on top. Of its neighbours the last is on top afterwards. A traversal is over
as soon as the stack is empty, and then stays as it is. -/
def step (g : Neighbours α) : Traversal α → Traversal α
  | ⟨[], noted⟩ => ⟨[], noted⟩
  | ⟨a :: rest, noted⟩ =>
    if a ∈ noted then ⟨rest, noted⟩
    else ⟨(g.next a).reverse ++ rest, noted.insert a⟩

end Traversal

end Violable
