import Violable.Acceptor.Basic

/-!
# The language of an acceptor

A path from the start to a final state spells the labels of its arcs. The strings of a language
are written with a space between these labels.
-/

namespace Violable.Acceptor

/-- What the paths from `q` to a final state spell, if they have at most `n` arcs. -/
def spellings (m : Acceptor) : Nat → State → List (List String)
  | 0, q => if m.isFinal q then [[]] else []
  | n + 1, q =>
    (if m.isFinal q then [[]] else []) ++
      (m.arcsFrom q).flatMap fun t => (m.spellings n t.dest).map (t.label :: ·)

/-- The strings that are accepted along at most `n` arcs. -/
def accepted (m : Acceptor) (n : Nat) : SortedSet String :=
  SortedSet.ofList ((m.spellings n m.start).map (" ".intercalate ·))

end Violable.Acceptor
