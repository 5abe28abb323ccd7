import Violable.Sorted.Order
import Violable.Text.Quoted

/-!
# Marks

A constraint that looks at an element of a candidate judges it by a *mark*: a negative value for a
violation, a positive one for satisfaction, and zero where the constraint has nothing to say.
A mark is given to one *subnode* of the element, a part whose marks are weighed together.
-/

namespace Violable

/-- A part of an element: the element as a whole, or one of its named parts. -/
inductive Subnode where
  | root
  | named (name : String)
  deriving DecidableEq

namespace Subnode

/-- The name of a named part. -/
def name? : Subnode → Option String
  | root => none
  | named s => some s

/-- The root is shown as a bullet. -/
def text : Subnode → String
  | root => "•"
  | named s => s

/-- The part that a text denotes: a bullet is the root. -/
def ofText (s : String) : Subnode :=
  if s = "•" then root else named s

/-- All about a part, as a reader of logs sees it. -/
def inspect : Subnode → String
  | root => "Root"
  | named s => "Named(" ++ Text.quoted s ++ ")"

/-- The root comes first, and the named parts in the order of their names. -/
instance : Ord Subnode := ⟨compareOn name?⟩

instance : Std.TransOrd Subnode :=
  inferInstanceAs (Std.TransCmp (compareOn name?))

instance : Std.LawfulEqOrd Subnode where
  toReflCmp := inferInstanceAs (Std.ReflCmp (compareOn name?))
  eq_of_compare {a b} h := by
    have h : a.name? = b.name? := Std.LawfulEqOrd.eq_of_compare h
    cases a <;> cases b <;> simp_all [name?]

end Subnode

/-- The judgement of one constraint on one element. -/
structure Mark where
  constraint : String
  value : Int
  subnode : Subnode
  deriving DecidableEq

namespace Mark

/-- A constraint that has nothing to say gives a zero mark. -/
def isZero (m : Mark) : Bool := m.value == 0

def isViolation (m : Mark) : Bool := m.value < 0

/-- A number with its sign, which zero has too. -/
def signed (n : Int) : String :=
  if 0 ≤ n then "+" ++ toString n else toString n

/-- The constraint with the signed value of its mark. -/
def judgement (m : Mark) : String := m.constraint ++ signed m.value

def text (m : Mark) : String := m.judgement ++ "@" ++ m.subnode.text

/-- All about a mark, as a reader of logs sees it. -/
def inspect (m : Mark) : String :=
  "Mark \x7b constraint: " ++ Text.quoted m.constraint ++ ", value: " ++ toString m.value
    ++ ", subnode: " ++ m.subnode.inspect ++ " \x7d"

/-- Marks are ordered by constraint, then by value, then by part. -/
instance : Ord Mark :=
  ⟨compareLex (compareOn constraint) (compareLex (compareOn value) (compareOn subnode))⟩

instance : Std.TransOrd Mark :=
  inferInstanceAs (Std.TransCmp (compareLex (compareOn constraint)
    (compareLex (compareOn value) (compareOn subnode))))

instance : Std.LawfulEqOrd Mark where
  toReflCmp := inferInstanceAs (Std.ReflCmp (compareLex (compareOn constraint)
    (compareLex (compareOn value) (compareOn subnode))))
  eq_of_compare {a b} h := by
    obtain ⟨hc, h⟩ := Ordering.then_eq_eq.1 h
    obtain ⟨hv, hs⟩ := Ordering.then_eq_eq.1 h
    have hc : a.constraint = b.constraint := Std.LawfulEqOrd.eq_of_compare hc
    have hv : a.value = b.value := Std.LawfulEqOrd.eq_of_compare hv
    have hs : a.subnode = b.subnode := Std.LawfulEqOrd.eq_of_compare hs
    cases a
    cases b
    simp_all

end Mark

end Violable
