import Std.Data.HashMap
import Violable.Scoring.Evaluator

/-!
# Markups with an index

To file a judgement the entry of its element has to be found. So that this takes no search, a
markup is held with an index, a table of the places of its entries, which grows as entries are put
at the end. Otherwise an indexed markup is a markup.
-/

namespace Violable

structure IndexedMarkup (ε : Type) [BEq ε] [Hashable ε] where
  entries : List (Marked ε)
  /-- The places of the entries by their elements. -/
  index : Std.HashMap ε Nat
  ignored : Nat

namespace IndexedMarkup

variable {ε : Type} [DecidableEq ε] [Hashable ε]

def empty : IndexedMarkup ε := ⟨[], ∅, 0⟩

instance : Inhabited (IndexedMarkup ε) := ⟨empty⟩

/-- Adds the marks of `d` to the entry that the index has for its element, or else puts `d` at the
end and notes its place. -/
def insert (x : IndexedMarkup ε) (d : Marked ε) : IndexedMarkup ε :=
  match x.index[d.element]? with
  | some i => { x with entries := x.entries.modify i (·.addAll d.allMarks) }
  | none =>
    { x with
      entries := x.entries ++ [d]
      index := x.index.insert d.element x.entries.length }

/-- The markup of entries that are inserted one after another. -/
def ofList (l : List (Marked ε)) : IndexedMarkup ε := l.foldl insert empty

/-- Counts elements that were ignored. -/
def recordIgnored (x : IndexedMarkup ε) (n : Nat) : IndexedMarkup ε :=
  { x with ignored := x.ignored + n }

def get? (x : IndexedMarkup ε) (e : ε) : Option (Marked ε) :=
  x.index[e]?.bind (x.entries[·]?)

def contains (x : IndexedMarkup ε) (e : ε) : Bool := x.index.contains e

/-- The markup without its index. -/
def toMarkup (x : IndexedMarkup ε) : Markup ε := ⟨x.entries, x.ignored⟩

end IndexedMarkup

namespace Evaluator

variable {ε : Type} [DecidableEq ε] [Hashable ε]

/-- Judges one more element, or counts it with those that were ignored so far. -/
def indexStep (v : Evaluator ε) (s : IndexedMarkup ε × Nat) (e : ε) : IndexedMarkup ε × Nat :=
  if v.ignores e then (s.1, s.2 + 1) else (s.1.insert (v.mark e), s.2)

/-- Judges one element after another, and records at the end how many were ignored. -/
def evalIndexed (v : Evaluator ε) (elements : List ε) : IndexedMarkup ε :=
  let s := elements.foldl v.indexStep (.empty, 0)
  s.1.recordIgnored s.2

/-- Has all elements judged in some way, and then collects the judgements. -/
def parEvalIndexed (judgeAll : (ε → Option (Marked ε)) → List ε → List (Option (Marked ε)))
    (v : Evaluator ε) (elements : List ε) : IndexedMarkup ε :=
  let judgements := judgeAll v.mark? elements
  (IndexedMarkup.ofList (judgements.filterMap id)).recordIgnored
    (judgements.filter (·.isNone)).length

end Evaluator

end Violable
