/-!
# Elements and candidates

A candidate is a structure that a grammar judges: an acceptor of strings or a parse tree. It is
judged by its elements, each on its own, and it can be pruned, which is to say rebuilt without the
elements that were found ill-formed.
-/

namespace Violable

/-- What can be judged by constraints and ignored by its label. -/
class Element (ε : Type) where
  label : ε → String
  /-- The label of the neighbour on the left, if there is one. -/
  left? : ε → Option String
  /-- The label of the neighbour on the right, if there is one. -/
  right? : ε → Option String

/-- A segment on its own is its own label and has no neighbours. -/
instance : Element String where
  label s := s
  left? _ := none
  right? _ := none

/-- A structure made of elements. -/
class Candidate (σ : Type) (ε : outParam Type) where
  /-- The elements, in a fixed order. -/
  elements : σ → List ε
  /-- What is left without the given elements. -/
  prune : σ → List ε → σ
  /-- Whether nothing is accepted or contained. -/
  isEmpty : σ → Bool

end Violable
