import Violable.Decimal.Reading
import Violable.Yaml.Cursor

/-!
# Tags of the YAML format

A tag tells of what kind a node is. It is a sequence of bytes, of which only some can be written as
the characters that they are. Each byte may be written as a percent sign and two hexadecimal
digits.
-/

namespace Violable.Yaml

structure Tag where
  bytes : List UInt8
  deriving DecidableEq

namespace Tag

def ofString (s : String) : Tag := ⟨s.toUTF8.toList⟩

/-- The text of the tag, unless its bytes are no text. -/
def text? (t : Tag) : Option String := String.fromUTF8? ⟨t.bytes.toArray⟩

def append (s t : Tag) : Tag := ⟨s.bytes ++ t.bytes⟩

/-- The tag of a kind of values that the format knows. -/
def known (kind : String) : Tag := ofString ("tag:yaml.org,2002:" ++ kind)

/-- Whether the tag begins with an exclamation mark, by which a document has kinds of its own. -/
def isLocal (t : Tag) : Bool := t.bytes.head? == some 0x21

/-- Whether a character can be written in a tag. Some can only between angle brackets. -/
def isTagChar (bracketed : Bool) (c : Char) : Bool :=
  isWord c || ";/?:@&=+$.!~*'()%".toList.contains c || (bracketed && ",[]".toList.contains c)

/-- How many bytes a character has after the first of them. Not every byte comes first. -/
def following? (b : UInt8) : Option Nat :=
  if b < 0x80 then some 0
  else if b < 0xc0 then none
  else if b < 0xe0 then some 1
  else if b < 0xf0 then some 2
  else if b < 0xf8 then some 3
  else none

/-- Whether a byte can follow the first byte of a character. -/
def isFollowing (b : UInt8) : Bool := 0x80 ≤ b && b < 0xc0

/-- The bytes that characters of a tag stand for. The bytes of one character are all written in the
same way, and so many of them as are `missing` must come next. -/
def bytes? : (missing : Nat) → List Char → Option (List UInt8)
  | 0, [] => some []
  | _ + 1, [] => none
  | missing, '%' :: x :: y :: cs => do
    if ! (isHexDigit x && isHexDigit y) then failure
    let b := UInt8.ofNat (Decimal.ofDigits 16 [x, y])
    match missing with
    | 0 => return b :: (← bytes? (← following? b) cs)
    | missing + 1 => if isFollowing b then return b :: (← bytes? missing cs) else failure
  | 0, c :: cs => if c = '%' then none else (bytes? 0 cs).map (UInt8.ofNat c.toNat :: ·)
  | _ + 1, _ :: _ => none

/-- The tag that characters denote. A zero byte ends it. -/
def ofChars? (cs : List Char) : Option Tag :=
  (bytes? 0 cs).map fun bytes => ⟨bytes.takeWhile (· ≠ 0)⟩

end Tag

end Violable.Yaml
