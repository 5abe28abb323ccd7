import Violable.Mark

/-!
# Constraints

A judge gives every element a mark and has a name, under which its weight or rank is looked up. A
constraint is a judge that gives its marks in its own name and all to one subnode. A battery is a
list of judges, and its order counts only where a text lists the names.
-/

namespace Violable

/-- Whatever marks the elements of one kind. -/
structure Judge (ε : Type) where
  name : String
  mark : ε → Mark

/-- A judge of elements of one kind, which gives all its marks to one subnode. -/
structure Constraint (ε : Type) where
  name : String
  subnode : Subnode
  judge : ε → Int

namespace Constraint

variable {ε : Type}

def mark (c : Constraint ε) (e : ε) : Mark := ⟨c.name, c.judge e, c.subnode⟩

/-- All that can be shown of a constraint. -/
def inspect (c : Constraint ε) : String :=
  "FnConstraint \x7b name: " ++ Text.quoted c.name ++ ", subnode: " ++ c.subnode.inspect ++ " \x7d"

def toJudge (c : Constraint ε) : Judge ε := ⟨c.name, c.mark⟩

instance : Coe (Constraint ε) (Judge ε) := ⟨toJudge⟩

end Constraint

/-- The judges that are applied together. -/
abbrev Battery (ε : Type) := List (Judge ε)

namespace Battery

variable {ε : Type}

def names (b : Battery ε) : List String := b.map (·.name)

/-- The marks of all judges on one element, with those that are zero. -/
def marks (b : Battery ε) (e : ε) : List Mark := b.map (·.mark e)

end Battery

end Violable
