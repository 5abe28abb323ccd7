import Violable.Acceptor.Basic
import Violable.Acceptor.Reachable

/-!
# Trimming and pruning

A state is useful if it can be reached from the start and a final state can be reached from it.
Trimming keeps the useful states and the arcs between them. The start stays in any case, so an
acceptor that accepts nothing is trimmed to its start alone.
-/

namespace Violable.Acceptor

/-- The states that can be reached from the start. -/
def accessible (m : Acceptor) : List State :=
  reachable (m.arcs.toList.map fun t => (t.src, t.dest)) [m.start]

/-- The states from which a final state can be reached. -/
def coaccessible (m : Acceptor) : List State :=
  reachable (m.arcs.toList.map fun t => (t.dest, t.src)) m.finals.toList

/-- The states on the way from the start to a final state. -/
def useful (m : Acceptor) : SortedSet State :=
  let ends := m.coaccessible
  (SortedSet.ofList m.accessible).filter (· ∈ ends)

def trim (m : Acceptor) : Acceptor :=
  let useful := m.useful
  { start := m.start
    states := useful.insert m.start
    finals := m.finals.filter (· ∈ useful)
    arcs := m.arcs.filter fun t => t.src ∈ useful ∧ t.dest ∈ useful }

def acceptsNothing (m : Acceptor) : Bool := m.trim.finals.isEmpty

/-- Removes the ill-formed arcs and the states that are stranded by it. Where no arc is ill-formed
the acceptor is left as it is, with any states that are not useful. -/
def prune (m : Acceptor) (illFormed : List Arc) : Acceptor :=
  if illFormed.isEmpty then m else (m.without illFormed).trim

instance : Candidate Acceptor Arc where
  elements m := m.arcs.toList
  prune := prune
  isEmpty := acceptsNothing

end Violable.Acceptor
