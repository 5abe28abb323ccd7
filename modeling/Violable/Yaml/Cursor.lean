/-!
# Places in a text

A text of the YAML format is read through a cursor, which knows the line and the column of what
comes next. Several characters break lines.
-/

namespace Violable.Yaml

/-- The characters that end a line. -/
def isBreak (c : Char) : Bool :=
  c == '\n' || c == '\r' || c == '\x85' || c == '\u2028' || c == '\u2029'

def isSpace (c : Char) : Bool := c == ' ' || c == '\t'

def isHexDigit (c : Char) : Bool :=
  c.isDigit || ('a' ≤ c && c ≤ 'f') || ('A' ≤ c && c ≤ 'F')

/-- The characters of names. -/
def isWord (c : Char) : Bool := c.isAlphanum || c == '-' || c == '_'

/-- The characters that may stand in a text. -/
def isAllowed (c : Char) : Bool :=
  let n := c.toNat
  n == 0x09 || n == 0x0a || n == 0x0d || (0x20 ≤ n && n ≤ 0x7e) || n == 0x85
    || (0xa0 ≤ n && n ≤ 0xfffd) || 0x10000 ≤ n

/-- What is still to be read, with its place in the text. -/
structure Cursor where
  rest : List Char
  index : Nat
  line : Nat
  column : Nat

namespace Cursor

def ofText (cs : List Char) : Cursor := ⟨cs, 0, 0, 0⟩

def peek? (c : Cursor) : Option Char := c.rest.head?

/-- Whether the next character is `x`. -/
def isAt (c : Cursor) (x : Char) : Bool := c.rest.head? == some x

def isAtEnd (c : Cursor) : Bool := c.rest.isEmpty

def isAtBreak (c : Cursor) : Bool := c.rest.head?.any isBreak

def isAtSpace (c : Cursor) : Bool := c.rest.head?.any isSpace

/-- Whether the character `n` places on is a space or a break, or the text ends before it. -/
def isGapAfter (c : Cursor) (n : Nat) : Bool :=
  match c.rest[n]? with
  | some x => isSpace x || isBreak x
  | none => true

/-- Whether a line begins with a mark that separates documents. -/
def isAtSeparator (c : Cursor) : Bool :=
  c.column == 0 && (c.rest.take 3 == ['-', '-', '-'] || c.rest.take 3 == ['.', '.', '.'])
    && c.isGapAfter 3

/-- The place after the next character, which does not break the line. -/
def next (c : Cursor) : Cursor :=
  match c.rest with
  | [] => c
  | _ :: cs => { c with rest := cs, index := c.index + 1, column := c.column + 1 }

/-- The place after `n` characters, none of which breaks the line. -/
def skip (c : Cursor) (n : Nat) : Cursor :=
  { c with rest := c.rest.drop n, index := c.index + n, column := c.column + n }

/-- The place after a break of the line. -/
def nextLine (c : Cursor) : Cursor :=
  match c.rest with
  | '\r' :: '\n' :: cs => ⟨cs, c.index + 2, c.line + 1, 0⟩
  | x :: cs => if isBreak x then ⟨cs, c.index + 1, c.line + 1, 0⟩ else c
  | [] => c

/-- The character that a break of the line is read as. -/
def breakChar (c : Cursor) : Char :=
  match c.rest with
  | '\u2028' :: _ => '\u2028'
  | '\u2029' :: _ => '\u2029'
  | _ => '\n'

/-- The characters on this line that pass a test, and the place after them. -/
def takeWhile (c : Cursor) (p : Char → Bool) : List Char × Cursor :=
  let read := c.rest.takeWhile p
  (read, c.skip read.length)

def skipWhile (c : Cursor) (p : Char → Bool) : Cursor := (c.takeWhile p).2

/-- The end of the line. -/
def skipComment (c : Cursor) : Cursor :=
  if c.isAt '#' then c.skipWhile (! isBreak ·) else c

end Cursor

end Violable.Yaml
