import Violable.Mark
import Violable.Sorted.Map
import Violable.Sorted.Set

/-!
# Markups

A markup records the marks of every element that was judged. The marks of an element are kept by
subnode, and zero marks are not kept. An element has one entry, in the place of its first
judgement; the marks of a later judgement are added to it.
-/

namespace Violable

/-- An element with its marks on each subnode. -/
structure Marked (ε : Type) where
  element : ε
  marks : SortedMap Subnode (SortedSet Mark)

namespace Marked

variable {ε : Type}

def unmarked (e : ε) : Marked ε := ⟨e, ∅⟩

/-- Files a mark under its subnode, unless it is zero. -/
def add (d : Marked ε) (m : Mark) : Marked ε :=
  if m.isZero then d
  else { d with marks := d.marks.alter m.subnode fun marks => (marks.getD ∅).insert m }

def addAll (d : Marked ε) (marks : List Mark) : Marked ε := marks.foldl add d

/-- An element with the marks in a list. -/
def ofMarks (e : ε) (marks : List Mark) : Marked ε := (unmarked e).addAll marks

def isUnmarked (d : Marked ε) : Bool := d.marks.isEmpty

/-- All marks, subnode by subnode. -/
def allMarks (d : Marked ε) : List Mark := d.marks.values.flatMap (·.toList)

def markCount (d : Marked ε) : Nat := (d.marks.values.map (·.size)).foldr (· + ·) 0

theorem mem_allMarks {d : Marked ε} {y : Mark} :
    y ∈ d.allMarks ↔ ∃ ms ∈ d.marks.values, y ∈ ms :=
  List.mem_flatMap

end Marked

/-- The elements that were judged with their marks, and the number of those that were ignored. -/
structure Markup (ε : Type) where
  entries : List (Marked ε)
  ignored : Nat

namespace Markup

variable {ε : Type}

def empty : Markup ε := ⟨[], 0⟩

instance : Inhabited (Markup ε) := ⟨empty⟩

/-- The number of elements. -/
def size (m : Markup ε) : Nat := m.entries.length

def isEmpty (m : Markup ε) : Bool := m.entries.isEmpty

/-- The number of elements with marks. -/
def markedCount (m : Markup ε) : Nat := (m.entries.filter (! ·.isUnmarked)).length

def markCount (m : Markup ε) : Nat := (m.entries.map (·.markCount)).foldr (· + ·) 0

/-- The constraints that gave marks, in alphabetical order. -/
def constraintNames (m : Markup ε) : SortedSet String :=
  SortedSet.ofList ((m.entries.flatMap (·.allMarks)).map (·.constraint))

theorem constraint_mem_constraintNames {m : Markup ε} {d : Marked ε} (hd : d ∈ m.entries) {y : Mark}
    (hy : y ∈ d.allMarks) : y.constraint ∈ m.constraintNames :=
  SortedSet.mem_ofList.2 (List.mem_map_of_mem (List.mem_flatMap.2 ⟨d, hd, hy⟩))

variable [DecidableEq ε]

/-- Adds the marks of `d` to the entry of the same element, or else puts `d` at the end. -/
def insertInto (d : Marked ε) : List (Marked ε) → List (Marked ε)
  | [] => [d]
  | c :: l =>
    if c.element = d.element then c.addAll d.allMarks :: l else c :: insertInto d l

def insert (m : Markup ε) (d : Marked ε) : Markup ε :=
  { m with entries := insertInto d m.entries }

/-- The markup of entries that are inserted one after another. -/
def ofList (l : List (Marked ε)) : Markup ε := l.foldl insert empty

def get? (m : Markup ε) (e : ε) : Option (Marked ε) := m.entries.find? (·.element = e)

/-- The place of the entry of an element. -/
def position? (m : Markup ε) (e : ε) : Option Nat := m.entries.findIdx? (·.element = e)

def contains (m : Markup ε) (e : ε) : Bool := (m.get? e).isSome

end Markup

end Violable
