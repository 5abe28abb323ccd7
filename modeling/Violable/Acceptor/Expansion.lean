import Violable.Acceptor.Window

/-!
# Expanding windows one by one

The acceptor that remembers a window can be built from a queue of windows. At first the window
after the begin delimiter is all that waits. The window in front is taken off and expanded: the
arcs that leave it are added, and the windows in which they end are put at the back of the queue.
A window that was expanded before is only taken off. It is not looked up whether a window waits
already, so one window may wait in many places.
-/

namespace Violable.Acceptor

/-- The window with one more symbol at its end, less the first symbol if there are too many. -/
def shift (k : Nat) (window : List String) (x : String) : List String :=
  let longer := window ++ [x]
  if k < longer.length then longer.tail else longer

/-- The windows that wait, the first in front, those that are expanded, and what is built. -/
structure Expansion where
  queue : List (List String)
  expanded : List (List String)
  built : Acceptor

namespace Expansion

def initial (a : Alphabet) : Expansion where
  queue := [[a.bos]]
  expanded := []
  built := (((ofStart ⟨""⟩).addFinal ⟨a.eos⟩).addArc ⟨⟨""⟩, a.bos, .ofContext [a.bos]⟩).2

/-- The arcs that are added when a window is expanded. -/
def newArcs (a : Alphabet) (k : Nat) (window : List String) : List Arc :=
  ⟨.ofContext window, a.eos, ⟨a.eos⟩⟩ ::
    a.symbols.map fun x => ⟨.ofContext window, x, .ofContext (shift k window x)⟩

/-- Takes a window off the queue. When none waits all is built, and nothing changes any more. -/
def step (a : Alphabet) (k : Nat) : Expansion → Expansion
  | ⟨[], expanded, built⟩ => ⟨[], expanded, built⟩
  | ⟨window :: rest, expanded, built⟩ =>
    if window ∈ expanded then ⟨rest, expanded, built⟩
    else
      { queue := rest ++ a.symbols.map (shift k window)
        expanded := window :: expanded
        built := (newArcs a k window).foldl (fun m t => (m.addArc t).2) built }

end Expansion

end Violable.Acceptor
