import Violable.Acceptor.Basic

/-!
# Searching for the accepted strings

The strings that are accepted along at most `n` arcs can be searched for with a stack of paths that
are still to be looked at. The path on top is taken off. What it spells is found if it ends in a
final state, and unless it has `n` arcs already, the paths that go on by one more arc are put on
the stack. No state is marked as visited, so a path goes round a cycle as often as it may.
-/

namespace Violable.Acceptor

/-- A path that is still to be looked at, by the state in which it ends and the labels on it. -/
structure Pending where
  state : State
  labels : List String
  deriving DecidableEq

/-- What is on the stack, the top first, and the strings found so far. -/
structure Search where
  stack : List Pending
  found : SortedSet String
  deriving DecidableEq

/-- The path that goes on by an arc. -/
def Pending.goOn (p : Pending) (t : Arc) : Pending := ⟨t.dest, p.labels ++ [t.label]⟩

namespace Search

/-- At first the path without arcs is all there is to look at. -/
def initial (m : Acceptor) : Search := ⟨[⟨m.start, []⟩], ∅⟩

/-- The paths that are put on the stack after `p` is looked at. -/
def longer (m : Acceptor) (n : Nat) (p : Pending) : List Pending :=
  if p.labels.length = n then [] else (m.arcsFrom p.state).map p.goOn

/-- Looks at the path on top. Of the longer paths the last is on top afterwards. A search is over
as soon as the stack is empty, and then stays as it is. -/
def step (m : Acceptor) (n : Nat) : Search → Search
  | ⟨[], found⟩ => ⟨[], found⟩
  | ⟨p :: rest, found⟩ =>
    { stack := (longer m n p).reverse ++ rest
      found := if m.isFinal p.state then found.insert (" ".intercalate p.labels) else found }

end Search

end Violable.Acceptor
