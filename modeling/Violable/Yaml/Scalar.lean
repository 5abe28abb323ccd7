import Violable.Decimal.Reading
import Violable.Yaml.Cursor

/-!
# Texts of scalars

A scalar may be written plainly, between quotes, or as a block of indented lines. Where a scalar
goes over several lines, a single break is read as a space, and of several breaks the first is
dropped.
-/

namespace Violable.Yaml

inductive Style where
  | plain
  | singleQuoted
  | doubleQuoted
  | literal
  | folded
  deriving DecidableEq

/-- What was read of a scalar, backwards, with the blank space after it that may turn out to be a
part of the scalar. -/
structure Draft where
  text : List Char
  /-- Spaces on the line, backwards. -/
  spaces : List Char
  /-- The first break after the text, if there is one. -/
  first? : Option Char
  /-- The other breaks, backwards. -/
  others : List Char
  /-- Whether the blank space goes over the end of a line. -/
  broken : Bool

namespace Draft

def empty : Draft := ⟨[], [], none, [], false⟩

/-- Takes the blank space into the text. -/
def settle (d : Draft) : Draft :=
  let blank :=
    if d.broken then
      match d.first? with
      | some '\n' => if d.others.isEmpty then [' '] else d.others
      | some c => d.others ++ [c]
      | none => d.others
    else d.spaces
  { empty with text := blank ++ d.text }

def push (d : Draft) (c : Char) : Draft := { d with text := c :: d.text }

/-- One more space on the line. -/
def space (d : Draft) (c : Char) : Draft :=
  if d.broken then d else { d with spaces := c :: d.spaces }

/-- One more break. -/
def lineBreak (d : Draft) (c : Char) : Draft :=
  if d.broken then { d with others := c :: d.others }
  else { d with spaces := [], first? := some c, broken := true }

end Draft

/-- The character that stands for a letter after a backslash. -/
def escape? : Char → Option Char
  | '0' => some '\x00'
  | 'a' => some '\x07'
  | 'b' => some '\x08'
  | 't' => some '\t'
  | '\t' => some '\t'
  | 'n' => some '\n'
  | 'v' => some '\x0b'
  | 'f' => some '\x0c'
  | 'r' => some '\r'
  | 'e' => some '\x1b'
  | ' ' => some ' '
  | '"' => some '"'
  | '/' => some '/'
  | '\\' => some '\\'
  | 'N' => some '\x85'
  | '_' => some '\xa0'
  | 'L' => some '\u2028'
  | 'P' => some '\u2029'
  | _ => none

/-- How many hexadecimal digits follow a letter after a backslash. -/
def escapeLength? : Char → Option Nat
  | 'x' => some 2
  | 'u' => some 4
  | 'U' => some 8
  | _ => none

/-- The character after a backslash. -/
def escaped? (c : Cursor) : Option (Char × Cursor) := do
  let x ← c.peek?
  match escapeLength? x with
  | some n =>
    let digits := c.next.rest.take n
    let code := Decimal.ofDigits 16 digits
    if digits.length = n ∧ digits.all isHexDigit ∧ code.isValidChar then
      some (.ofNat code, c.skip (n + 1))
    else none
  | none => (escape? x).map (·, c.next)

/-- Skips blank space and notes it. Each step reads one character. -/
def readBlank (indent : Option Nat) : Nat → Draft → Cursor → Option (Draft × Cursor)
  | 0, _, _ => none
  | steps + 1, d, c =>
    if c.isAtSpace then
      if d.broken ∧ c.isAt '\t' ∧ indent.any (c.column < ·) then none
      else readBlank indent steps (d.space (c.peek?.getD ' ')) c.next
    else if c.isAtBreak then readBlank indent steps (d.lineBreak c.breakChar) c.nextLine
    else some (d, c)

/-- Reads on between quotes. Each step reads one character or one stretch of blank space. -/
def readQuoted (double : Bool) : Nat → Draft → Cursor → Option (String × Cursor)
  | 0, _, _ => none
  | steps + 1, d, c =>
    if c.isAtEnd ∨ c.isAtSeparator then none
    else if c.isAtSpace ∨ c.isAtBreak then do
      let (d, c) ← readBlank none (c.rest.length + 1) d c
      readQuoted double steps d.settle c
    else
      match double, c.rest with
      | false, '\'' :: '\'' :: _ => readQuoted double steps (d.push '\'') (c.skip 2)
      | false, '\'' :: _ => some (.ofList d.text.reverse, c.next)
      | true, '"' :: _ => some (.ofList d.text.reverse, c.next)
      | true, '\\' :: _ =>
        if c.next.isAtBreak then do
          let (d, c) ← readBlank none (c.rest.length + 1) { d with broken := true }
            c.next.nextLine
          readQuoted double steps d.settle c
        else do
          let (x, c) ← escaped? c.next
          readQuoted double steps (d.push x) c
      | _, x :: _ => readQuoted double steps (d.push x) c.next
      | _, [] => none

/-- The characters that end a plain scalar inside brackets. -/
def isFlowMark (c : Char) : Bool :=
  c == ',' || c == '[' || c == ']' || c == '\x7b' || c == '\x7d'

/-- Reads the characters of a plain scalar up to blank space. -/
def readPlainWord (inFlow : Bool) : Nat → Draft → Cursor → Option (Draft × Cursor)
  | 0, _, _ => none
  | steps + 1, d, c =>
    match c.rest with
    | [] => some (d, c)
    | x :: rest =>
      if isSpace x ∨ isBreak x then some (d, c)
      else if inFlow ∧ x = ':' ∧ rest.head?.any (fun y => isFlowMark y || y == '?') then none
      else if (x = ':' ∧ c.isGapAfter 1) ∨ (inFlow ∧ isFlowMark x) then some (d, c)
      else readPlainWord inFlow steps (d.settle.push x) c.next

/-- Reads on in a plain scalar, which goes on as long as lines are indented by `indent`. The last
part of the answer is whether the scalar was left at the beginning of a line. -/
def readPlain (inFlow : Bool) (indent : Nat) :
    Nat → Draft → Cursor → Option (String × Cursor × Bool)
  | 0, _, _ => none
  | steps + 1, d, c => do
    let done := some (.ofList d.text.reverse, c, d.broken)
    if c.isAtSeparator ∨ c.isAt '#' then done
    else
      let (d, c) ← readPlainWord inFlow (c.rest.length + 1) d c
      let done := some (.ofList d.text.reverse, c, d.broken)
      if ! (c.isAtSpace || c.isAtBreak) then done
      else
        let (d, c) ← readBlank (some indent) (c.rest.length + 1) d c
        if ! inFlow ∧ c.column < indent then some (.ofList d.text.reverse, c, d.broken)
        else readPlain inFlow indent steps d c

/-- What becomes of the breaks at the end of a block. -/
inductive Chomping where
  | strip
  | clip
  | keep
  deriving DecidableEq

/-- The marks at the head of a block: what becomes of its last breaks, and by how much it is
indented. -/
def blockHead? (c : Cursor) : Option (Chomping × Option Nat × Cursor) := do
  let chomping? (c : Cursor) : Option (Chomping × Cursor) :=
    if c.isAt '+' then some (.keep, c.next)
    else if c.isAt '-' then some (.strip, c.next)
    else none
  let indent? (c : Cursor) : Option (Option Nat × Cursor) :=
    match c.peek? with
    | some x =>
      if x == '0' then none
      else if x.isDigit then some (some (Decimal.digitValue x), c.next)
      else some (none, c)
    | none => some (none, c)
  match chomping? c with
  | some (chomping, c) =>
    let (indent, c) ← indent? c
    some (chomping, indent, c)
  | none =>
    let (indent, c) ← indent? c
    match indent, chomping? c with
    | some n, some (chomping, c) => some (chomping, some n, c)
    | _, _ => some (.clip, indent, c)

/-- Skips the indentation and the empty lines before a line of a block. Where the indentation is
not known yet, it is that of the most indented of these lines. Each step reads one line. -/
def readIndent (indent : Option Nat) :
    Nat → Nat → List Char → Cursor → Option (Nat × List Char × Cursor)
  | 0, _, _, _ => none
  | steps + 1, deepest, breaks, c =>
    let spaces := (c.rest.takeWhile (· == ' ')).length
    let c := c.skip (match indent with | some n => min spaces (n - c.column) | none => spaces)
    let deepest := max deepest c.column
    if c.isAt '\t' ∧ indent.all (c.column < ·) then none
    else if c.isAtBreak then readIndent indent steps deepest (c.breakChar :: breaks) c.nextLine
    else some (deepest, breaks, c)

/-- The text of a block that was read. Each step reads one line. The last line's break and the
breaks after it are not taken into the text yet. -/
def readLines (folded : Bool) (indent : Nat) (chomping : Chomping) :
    Nat → List Char → Bool → Option Char → List Char → Cursor → Option (String × Cursor)
  | 0, _, _, _, _, _ => none
  | steps + 1, text, wasBlank, last?, breaks, c =>
    if c.column = indent ∧ ! c.isAtEnd then do
      let blank := c.isAtSpace
      let text :=
        if folded ∧ last? = some '\n' ∧ ! wasBlank ∧ ! blank then
          if breaks.isEmpty then ' ' :: text else breaks ++ text
        else breaks ++ last?.toList ++ text
      let (line, c) := c.takeWhile (! isBreak ·)
      let text := line.reverse ++ text
      let last? := if c.isAtBreak then some c.breakChar else none
      let c := c.nextLine
      let (_, breaks, c) ← readIndent (some indent) (c.rest.length + 1) 0 [] c
      readLines folded indent chomping steps text blank last? breaks c
    else
      let text := if chomping = .strip then text else last?.toList ++ text
      let text := if chomping = .keep then breaks ++ text else text
      some (.ofList text.reverse, c)

/-- A block after its mark, in a collection that is indented by `outer`. -/
def readBlock (folded : Bool) (outer : Int) (c : Cursor) : Option (String × Cursor) := do
  let (chomping, increment, c) ← blockHead? c
  let c := (c.skipWhile isSpace).skipComment
  if ! (c.isAtBreak || c.isAtEnd) then none
  else
    let c := c.nextLine
    let known := increment.map fun n => if 0 ≤ outer then outer.toNat + n else n
    let (deepest, breaks, c) ← readIndent known (c.rest.length + 1) 0 [] c
    let indent := known.getD (max (max deepest (outer + 1).toNat) 1)
    readLines folded indent chomping (c.rest.length + 1) [] false none breaks c

end Violable.Yaml
