import Violable.Yaml.Scalar
import Violable.Yaml.Tag

/-!
# Tokens of the YAML format

Indentation and marks become tokens: a collection of indented lines has a token where it begins
and one where it ends. That a scalar or a flow collection is a key of a mapping shows only at the
colon after it, so its place among the tokens is remembered until then.
-/

namespace Violable.Yaml

inductive Token where
  /-- The version of the format that a document is written in. -/
  | version (major minor : Nat)
  /-- The beginning of the tags that are written with a handle. -/
  | handle (name : String) (beginning : Tag)
  | documentStart
  | documentEnd
  | blockSequence
  | blockMapping
  | blockEnd
  | flowSequence
  | flowSequenceEnd
  | flowMapping
  | flowMappingEnd
  /-- The mark of an item of a block. -/
  | item
  | comma
  | key
  | value
  | alias (name : String)
  | anchor (name : String)
  | tag (handle : String) (suffix : Tag)
  | scalar (style : Style) (text : String)
  deriving DecidableEq

/-- A place where a key may have begun. -/
structure Candidate where
  /-- The number of tokens before it. -/
  place : Nat
  /-- Whether a key must begin here, because a mapping goes on at this column. -/
  required : Bool
  index : Nat
  line : Nat
  column : Nat

/-- What is known while tokens are read. -/
structure Scan where
  cursor : Cursor
  /-- The tokens so far. -/
  tokens : Array Token
  /-- The column of the innermost block, which is -1 outside of all blocks. -/
  indent : Int
  /-- The columns of the other blocks, innermost first. -/
  outer : List Int
  /-- How deep flow collections are nested here. -/
  flow : Nat
  /-- Whether a key may begin here. -/
  keyAllowed : Bool
  /-- Where a key may have begun, for each flow collection around and for the block. -/
  candidates : List (Option Candidate)

namespace Scan

def ofText (cs : List Char) : Scan := ⟨.ofText cs, #[], -1, [], 0, true, [none]⟩

def push (s : Scan) (t : Token) : Scan := { s with tokens := s.tokens.push t }

def pushAt (s : Scan) (place : Nat) (t : Token) : Scan :=
  { s with tokens := s.tokens.take place ++ #[t] ++ s.tokens.drop place }

def allowKey (s : Scan) (allowed : Bool) : Scan := { s with keyAllowed := allowed }

def moveTo (s : Scan) (c : Cursor) : Scan := { s with cursor := c }

/-- Ends the blocks that are indented by more than `column`. -/
def unrollFrom (column indent : Int) (tokens : Array Token) :
    List Int → Int × List Int × Array Token
  | [] => (indent, [], tokens)
  | i :: outer =>
    if column < indent then unrollFrom column i (tokens.push .blockEnd) outer
    else (indent, i :: outer, tokens)

def unroll (s : Scan) (column : Int) : Scan :=
  if 0 < s.flow then s
  else
    let (indent, outer, tokens) := unrollFrom column s.indent s.tokens s.outer
    { s with indent, outer, tokens }

/-- Begins a block at `column`, unless one goes on there. -/
def roll (s : Scan) (column : Nat) (place : Nat) (t : Token) : Scan :=
  if 0 < s.flow ∨ (column : Int) ≤ s.indent then s
  else { s with indent := column, outer := s.indent :: s.outer }.pushAt place t

/-- Gives up the innermost candidate for a key. It is an error if it had to be one. -/
def dropCandidate? (s : Scan) : Option Scan :=
  match s.candidates with
  | some k :: others =>
    if k.required then none else some { s with candidates := none :: others }
  | _ => some s

/-- Remembers that a key may begin here. -/
def saveCandidate? (s : Scan) : Option Scan :=
  if s.keyAllowed then do
    let s ← s.dropCandidate?
    let c := s.cursor
    let required := s.flow == 0 && s.indent == (c.column : Int)
    some { s with
      candidates := some ⟨s.tokens.size, required, c.index, c.line, c.column⟩ :: s.candidates.tail }
  else some s

/-- Gives up the candidates that are too far away to be keys: a key stands on one line, within
1024 characters. -/
def dropStale? (s : Scan) : Option Scan := do
  let c := s.cursor
  let candidates ← s.candidates.mapM fun k =>
    match k with
    | some k =>
      if k.line < c.line || k.index + 1024 < c.index then
        if k.required then none else some none
      else some (some k)
    | none => some none
  some { s with candidates }

/-- Skips blank space, comments and breaks, and the mark of the byte order at the beginning of a
line. After a break a key may begin in a block. Each step reads one line. -/
def skipGap (s : Scan) : Nat → Scan
  | 0 => s
  | steps + 1 =>
    let c := if s.cursor.column == 0 && s.cursor.isAt '\ufeff' then s.cursor.next else s.cursor
    let tabs := 0 < s.flow || ! s.keyAllowed
    let c := (c.skipWhile fun x => x == ' ' || (tabs && x == '\t')).skipComment
    if c.isAtBreak then
      { s with cursor := c.nextLine, keyAllowed := s.keyAllowed || s.flow == 0 }.skipGap steps
    else s.moveTo c

/-- Leaves all blocks. -/
def endBlocks? (s : Scan) : Option Scan := do
  let s ← (s.unroll (-1)).dropCandidate?
  some (s.allowKey false)

/-- A part of a version, which has at most nine digits. -/
def versionPart? (c : Cursor) : Option (Nat × Cursor) :=
  let (digits, c) := c.takeWhile Char.isDigit
  if digits.isEmpty ∨ 9 < digits.length then none else some (Decimal.ofDigits 10 digits, c)

def version? (c : Cursor) : Option (Token × Cursor) := do
  let (major, c) ← versionPart? c
  if ! c.isAt '.' then failure
  let (minor, c) ← versionPart? c.next
  return (.version major minor, c)

/-- An exclamation mark with what is between it and a second one, if there is a second one. What
follows a mark that stands alone comes last. -/
def handle? (c : Cursor) : Option (String × Cursor × List Char) :=
  if ! c.isAt '!' then none
  else
    let (word, c) := c.next.takeWhile isWord
    if c.isAt '!' then some ("!" ++ String.ofList word ++ "!", c.next, [])
    else some ("!", c, word)

/-- A handle and, after blank space, what it stands for. -/
def declaration? (c : Cursor) : Option (Token × Cursor) := do
  let (name, c, word) ← handle? c
  let (beginning, d) := (c.skipWhile isSpace).takeWhile (Tag.isTagChar true)
  if ! word.isEmpty ∨ ! c.isAtSpace ∨ beginning.isEmpty ∨ ! d.isGapAfter 0 then failure
  return (.handle name (← Tag.ofChars? beginning), d)

/-- A directive, of which there are two kinds, takes up a line of its own. -/
def directive? (s : Scan) : Option Scan := do
  let s ← s.endBlocks?
  let (name, c) := s.cursor.next.takeWhile isWord
  if ! c.isGapAfter 0 then failure
  let c := c.skipWhile isSpace
  let (t, c) ←
    if name = "YAML".toList then version? c
    else if name = "TAG".toList then declaration? c
    else none
  let c := (c.skipWhile isSpace).skipComment
  if ! (c.isAtBreak || c.isAtEnd) then failure
  return (s.moveTo c.nextLine).push t

def openFlow? (s : Scan) (t : Token) : Option Scan := do
  let s ← s.saveCandidate?
  let s := { s with flow := s.flow + 1, candidates := none :: s.candidates, keyAllowed := true }
  some ((s.moveTo s.cursor.next).push t)

def closeFlow? (s : Scan) (t : Token) : Option Scan := do
  let s ← s.dropCandidate?
  let candidates := if 0 < s.flow then s.candidates.tail else s.candidates
  let s := { s with flow := s.flow - 1, candidates, keyAllowed := false }
  some ((s.moveTo s.cursor.next).push t)

def comma? (s : Scan) : Option Scan := do
  let s ← s.dropCandidate?
  some (((s.allowKey true).moveTo s.cursor.next).push .comma)

def item? (s : Scan) : Option Scan := do
  if s.flow == 0 && ! s.keyAllowed then none
  else
    let s := s.roll s.cursor.column s.tokens.size .blockSequence
    let s ← s.dropCandidate?
    some (((s.allowKey true).moveTo s.cursor.next).push .item)

/-- A key that is marked as one. -/
def key? (s : Scan) : Option Scan := do
  if s.flow == 0 && ! s.keyAllowed then none
  else
    let s := s.roll s.cursor.column s.tokens.size .blockMapping
    let s ← s.dropCandidate?
    some (((s.allowKey (s.flow == 0)).moveTo s.cursor.next).push .key)

/-- A colon makes a key of what may have been one. -/
def value? (s : Scan) : Option Scan := do
  match s.candidates with
  | some k :: others =>
    let s := { s.pushAt k.place .key with candidates := none :: others, keyAllowed := false }
    let s := s.roll k.column k.place .blockMapping
    some ((s.moveTo s.cursor.next).push .value)
  | _ =>
    if s.flow == 0 && ! s.keyAllowed then none
    else
      let s := s.roll s.cursor.column s.tokens.size .blockMapping
      some (((s.allowKey (s.flow == 0)).moveTo s.cursor.next).push .value)

/-- A name after the mark of an anchor or an alias. -/
def name? (s : Scan) (token : String → Token) : Option Scan := do
  let s ← s.saveCandidate?
  let (name, c) := s.cursor.next.takeWhile isWord
  let marks := ['?', ':', ',', ']', '\x7d', '%', '@', '\x60']
  let ends := c.isGapAfter 0 || c.peek?.any (marks.contains ·)
  if name.isEmpty ∨ ! ends then none
  else some (((s.allowKey false).moveTo c).push (token (.ofList name)))

def tag? (s : Scan) : Option Scan := do
  let s ← s.saveCandidate?
  let s := s.allowKey false
  let (t, c) ←
    match s.cursor.rest with
    | '!' :: '<' :: _ => do
      let (name, c) := (s.cursor.skip 2).takeWhile (Tag.isTagChar true)
      if name.isEmpty ∨ ! c.isAt '>' then failure
      pure (Token.tag "" (← Tag.ofChars? name), c.next)
    | _ => do
      let (handle, c, word) ← handle? s.cursor
      let (name, c) := c.takeWhile (Tag.isTagChar false)
      if handle ≠ "!" ∧ name.isEmpty then failure
      let suffix ← Tag.ofChars? (word ++ name)
      let alone := handle = "!" ∧ suffix.bytes = []
      pure (if alone then .tag "" (.ofString "!") else .tag handle suffix, c)
  if ! (c.isGapAfter 0 || (0 < s.flow && c.isAt ',')) then failure
  return (s.moveTo c).push t

def block? (s : Scan) (folded : Bool) : Option Scan := do
  let s ← s.dropCandidate?
  let (text, c) ← readBlock folded s.indent s.cursor.next
  some (((s.allowKey true).moveTo c).push (.scalar (if folded then .folded else .literal) text))

def quoted? (s : Scan) (double : Bool) : Option Scan := do
  let s ← s.saveCandidate?
  let c := s.cursor.next
  let (text, c) ← readQuoted double (c.rest.length + 1) .empty c
  some (((s.allowKey false).moveTo c).push
    (.scalar (if double then .doubleQuoted else .singleQuoted) text))

def plain? (s : Scan) : Option Scan := do
  let s ← s.saveCandidate?
  let c := s.cursor
  let (text, c, broken) ←
    readPlain (0 < s.flow) (s.indent + 1).toNat (c.rest.length + 1) .empty c
  some (((s.allowKey broken).moveTo c).push (.scalar .plain text))

/-- The marks that cannot begin a plain scalar. -/
def isMark (c : Char) : Bool :=
  "-?:,[]#&*!|>'\"%@".toList.contains c || c == '\x7b' || c == '\x7d' || c == '\x60'

/-- Reads one more token that begins with the character `x`. -/
def token? (s : Scan) (x : Char) : Option Scan :=
  let c := s.cursor
  let gap := c.isGapAfter 1
  let inFlow := 0 < s.flow
  if c.column == 0 && x == '%' then s.directive?
  else if c.isAtSeparator then do
    let s ← s.endBlocks?
    some ((s.moveTo (c.skip 3)).push (if x == '-' then .documentStart else .documentEnd))
  else if x == '[' then s.openFlow? .flowSequence
  else if x == '\x7b' then s.openFlow? .flowMapping
  else if x == ']' then s.closeFlow? .flowSequenceEnd
  else if x == '\x7d' then s.closeFlow? .flowMappingEnd
  else if x == ',' then s.comma?
  else if x == '-' && gap then s.item?
  else if x == '?' && (inFlow || gap) then s.key?
  else if x == ':' && (inFlow || gap) then s.value?
  else if x == '*' then s.name? .alias
  else if x == '&' then s.name? .anchor
  else if x == '!' then s.tag?
  else if x == '|' && ! inFlow then s.block? false
  else if x == '>' && ! inFlow then s.block? true
  else if x == '\'' then s.quoted? false
  else if x == '"' then s.quoted? true
  else if ! (isMark x || isSpace x) || (x == '-' && ! (c.rest[1]?.any isSpace))
      || (! inFlow && (x == '?' || x == ':') && ! gap) then s.plain?
  else none

/-- Reads tokens up to the end of the text. Each step reads one of them. -/
def run? (s : Scan) : Nat → Option (Array Token)
  | 0 => none
  | steps + 1 => do
    let s := s.skipGap (s.cursor.rest.length + 1)
    let s ← s.dropStale?
    let s := s.unroll s.cursor.column
    match s.cursor.peek? with
    | none => s.endBlocks?.map (·.tokens)
    | some x => (← s.token? x).run? steps

end Scan

/-- The tokens of a text. -/
def tokens? (s : String) : Option (Array Token) :=
  let cs := s.toList
  if cs.all isAllowed then (Scan.ofText cs).run? (cs.length + 1) else none

end Violable.Yaml
