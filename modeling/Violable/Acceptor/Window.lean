import Violable.Alphabet
import Violable.Acceptor.Basic

/-!
# Acceptors that remember a window

Over an alphabet the acceptor with window size `k` reads the begin delimiter, then any symbols,
then the end delimiter. Between the delimiters its states remember the last `k` symbols read, the
begin delimiter among them, so an arc alone shows the context in which its symbol is read.
-/

namespace Violable

/-- The last `k` items of a list. -/
def lastItems {α : Type} (k : Nat) (l : List α) : List α :=
  l.drop (l.length - k)

namespace Acceptor

/-- The window after one more symbol. -/
def slide (k : Nat) (window : List String) (x : String) : List String :=
  lastItems k (window ++ [x])

/-- The given windows and those that come after them within `n` symbols. -/
def windowsWithin (symbols : List String) (k : Nat) :
    Nat → List (List String) → List (List String)
  | _, [] => []
  | 0, layer => layer
  | n + 1, layer =>
    layer ++ windowsWithin symbols k n
      (layer.flatMap fun window => symbols.map (slide k window))

/-- All windows of size `k`. After `k` symbols a window no longer depends on where it began, so
no new ones come later. -/
def windows (a : Alphabet) (k : Nat) : List (List String) :=
  windowsWithin a.symbols.eraseDups k k [[a.bos]]

/-- The arcs that read one more symbol, or the end, after a window. -/
def windowArcs (a : Alphabet) (k : Nat) (window : List String) : List Arc :=
  ⟨.ofContext window, a.eos, ⟨a.eos⟩⟩ ::
    a.symbols.map fun x => ⟨.ofContext window, x, .ofContext (slide k window x)⟩

/-- The acceptor that remembers the last `size` symbols, and at least one. -/
def ofWindows (a : Alphabet) (size : Nat) : Acceptor :=
  let k := max size 1
  ofArcs ⟨""⟩ [⟨a.eos⟩]
    (⟨⟨""⟩, a.bos, .ofContext [a.bos]⟩ :: (windows a k).flatMap (windowArcs a k))

end Acceptor

end Violable
