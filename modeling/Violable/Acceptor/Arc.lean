import Violable.Sorted.Order
import Violable.Text.Blank
import Violable.Element

/-!
# States and arcs

A state of an acceptor is known by its label alone. A label may hold a context: the symbols read
last, with a space between them.
-/

namespace Violable

structure State where
  label : String
  deriving DecidableEq

namespace State

/-- The state that remembers a context. -/
def ofContext (symbols : List String) : State := ⟨" ".intercalate symbols⟩

def ofNumber (n : Nat) : State := ⟨toString n⟩

/-- The symbols of the context that the label holds. -/
def symbols (q : State) : List String := Text.words q.label

def first? (q : State) : Option String := q.symbols.head?

/-- The symbol read last. -/
def last? (q : State) : Option String := q.symbols.getLast?

instance : Ord State := ⟨compareOn label⟩

instance : Std.TransOrd State :=
  inferInstanceAs (Std.TransCmp (compareOn label))

instance : Std.LawfulEqOrd State where
  toReflCmp := inferInstanceAs (Std.ReflCmp (compareOn label))
  eq_of_compare {a b} h := by
    have h : a.label = b.label := Std.LawfulEqOrd.eq_of_compare h
    cases a
    cases b
    simp_all

end State

/-- A labelled step from one state to another. -/
structure Arc where
  src : State
  label : String
  dest : State
  deriving DecidableEq

namespace Arc

def text (t : Arc) : String :=
  "(" ++ t.src.label ++ ", " ++ t.label ++ ", " ++ t.dest.label ++ ")"

/-- Arcs are ordered by source, then by label, then by destination. -/
instance : Ord Arc :=
  ⟨compareLex (compareOn src) (compareLex (compareOn label) (compareOn dest))⟩

instance : Std.TransOrd Arc :=
  inferInstanceAs (Std.TransCmp (compareLex (compareOn src)
    (compareLex (compareOn label) (compareOn dest))))

instance : Std.LawfulEqOrd Arc where
  toReflCmp := inferInstanceAs (Std.ReflCmp (compareLex (compareOn src)
    (compareLex (compareOn label) (compareOn dest))))
  eq_of_compare {a b} h := by
    obtain ⟨hs, h⟩ := Ordering.then_eq_eq.1 h
    obtain ⟨hl, hd⟩ := Ordering.then_eq_eq.1 h
    have hs : a.src = b.src := Std.LawfulEqOrd.eq_of_compare hs
    have hl : a.label = b.label := Std.LawfulEqOrd.eq_of_compare hl
    have hd : a.dest = b.dest := Std.LawfulEqOrd.eq_of_compare hd
    cases a
    cases b
    simp_all

/-- The neighbours of an arc are the states that it joins. -/
instance : Element Arc where
  label := label
  left? t := some t.src.label
  right? t := some t.dest.label

end Arc

end Violable
