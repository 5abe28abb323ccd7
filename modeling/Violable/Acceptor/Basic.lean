import Violable.Acceptor.Arc
import Violable.Sorted.Set

/-!
# Acceptors

An acceptor has states, one of which is the start and some of which are final, and arcs between
them. It is built from its start by adding states, final states and arcs; adding an arc adds the
states that it joins.
-/

namespace Violable

structure Acceptor where
  start : State
  states : SortedSet State
  finals : SortedSet State
  arcs : SortedSet Arc
  deriving DecidableEq

namespace Acceptor

/-- The acceptor that has nothing but its start. -/
def ofStart (q : State) : Acceptor := ⟨q, SortedSet.insert ∅ q, ∅, ∅⟩

/-- Adds a state, and tells whether it is new. -/
def addState (m : Acceptor) (q : State) : Bool × Acceptor :=
  (q ∉ m.states, { m with states := m.states.insert q })

/-- Adds a state and makes it final. -/
def addFinal (m : Acceptor) (q : State) : Acceptor :=
  { m with states := m.states.insert q, finals := m.finals.insert q }

/-- Adds an arc and the states that it joins, and tells whether the arc is new. -/
def addArc (m : Acceptor) (t : Arc) : Bool × Acceptor :=
  (t ∉ m.arcs,
    { m with states := (m.states.insert t.src).insert t.dest, arcs := m.arcs.insert t })

/-- The acceptor with the given start, final states and arcs, and with the states of these. -/
def ofArcs (start : State) (finals : List State) (arcs : List Arc) : Acceptor where
  start
  states := SortedSet.ofList (start :: finals ++ arcs.flatMap fun t => [t.src, t.dest])
  finals := SortedSet.ofList finals
  arcs := SortedSet.ofList arcs

def isFinal (m : Acceptor) (q : State) : Bool := q ∈ m.finals

def hasArc (m : Acceptor) (t : Arc) : Bool := t ∈ m.arcs

/-- Removes arcs and keeps all states. -/
def without (m : Acceptor) (dead : List Arc) : Acceptor :=
  { m with arcs := m.arcs.filter (· ∉ dead) }

/-- The arcs that leave a state, in order. -/
def arcsFrom (m : Acceptor) (q : State) : List Arc :=
  m.arcs.toList.filter (·.src = q)

end Acceptor

end Violable
