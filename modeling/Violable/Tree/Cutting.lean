import Violable.Text.Blank

/-!
# Cutting a text into lexemes

The lexemes of a text in bracket notation are its parentheses and its atoms. They can be cut out as
slices of the text in one pass over its characters. The pass knows the byte offset of each character
and where the atom that is being read began. An atom is cut out when it is over, which is before a
parenthesis, before a blank character and at the end of the text. A character may have several
bytes, so a slice between two offsets need not exist, and then there are no lexemes.
-/

namespace Violable

/-- Where the atom that is being read began, if one is, and the lexemes that are cut out. -/
structure Cutting where
  start : Option String.Pos.Raw
  lexemes : List String.Slice

namespace Cutting

/-- The slice of `s` between two byte offsets. There is none if one of them is not between two
characters, or if the first comes after the second. -/
def slice? (s : String) (i j : String.Pos.Raw) : Option String.Slice :=
  if h : i.IsValid s ∧ j.IsValid s ∧ i ≤ j then some ⟨s, s.pos i h.1, s.pos j h.2.1, h.2.2⟩
  else none

def initial : Cutting := ⟨none, []⟩

/-- Cuts out the slice between two offsets. -/
def cut (s : String) (i j : String.Pos.Raw) (k : Cutting) : Option Cutting :=
  (slice? s i j).map fun l => { k with lexemes := k.lexemes ++ [l] }

/-- Cuts out the atom that is being read, if there is one. It is over at the offset `j`. -/
def flush (s : String) (j : String.Pos.Raw) (k : Cutting) : Option Cutting :=
  match k.start with
  | none => some k
  | some i => cut s i j { k with start := none }

/-- Reads the character `c` at the offset `i`. A parenthesis has one byte. -/
def step (s : String) (i : String.Pos.Raw) (c : Char) (k : Cutting) : Option Cutting :=
  if c = '(' ∨ c = ')' ∨ Text.isBlank c then do
    let k ← k.flush s i
    if Text.isBlank c then return k else k.cut s i i.inc
  else if k.start.isNone then some { k with start := some i }
  else some k

/-- Reads the characters from the offset `i` to the end of the text. -/
def run (s : String) (i : String.Pos.Raw) (k : Cutting) : List Char → Option Cutting
  | [] => k.flush s s.rawEndPos
  | c :: cs => do
    let k ← k.step s i c
    run s (i + c) k cs

def lexemes? (s : String) : Option (List String.Slice) :=
  (initial.run s 0 s.toList).map (·.lexemes)

end Cutting

end Violable
