import Violable.Decimal.Reading
import Violable.Toml.Value

/-!
# Scalars of the TOML format

Strings, numbers and moments are read from the beginning of a text. What is read comes with the
rest of the text, and `none` says that the text is not in the format.
-/

namespace Violable.Toml

def isSpace (c : Char) : Bool := c == ' ' || c == '\t'

/-- The characters that may stand in comments. -/
def isPlain (c : Char) : Bool := c == '\t' || (' ' ≤ c && c != '\x7f')

def skipSpace (cs : List Char) : List Char := cs.dropWhile isSpace

/-- The character that stands for a letter after a backslash. -/
def escape? : Char → Option Char
  | 'b' => some '\x08'
  | 't' => some '\t'
  | 'n' => some '\n'
  | 'f' => some '\x0c'
  | 'r' => some '\r'
  | '"' => some '"'
  | '\\' => some '\\'
  | _ => none

def isHexDigit (c : Char) : Bool :=
  c.isDigit || ('a' ≤ c && c ≤ 'f') || ('A' ≤ c && c ≤ 'F')

/-- The character with a code point in hexadecimal digits. -/
def codePoint? (digits : List Char) : Option Char :=
  let n := Decimal.ofDigits 16 digits
  if digits.all isHexDigit ∧ n.isValidChar then some (.ofNat n) else none

/-- Reads on in a string between double quotes. -/
def basic (read : List Char) : List Char → Option (String × List Char)
  | [] => none
  | '"' :: cs => some (.ofList read.reverse, cs)
  | '\\' :: 'u' :: a :: b :: c :: d :: cs =>
    match codePoint? [a, b, c, d] with
    | some x => basic (x :: read) cs
    | none => none
  | '\\' :: 'U' :: a :: b :: c :: d :: e :: f :: g :: h :: cs =>
    match codePoint? [a, b, c, d, e, f, g, h] with
    | some x => basic (x :: read) cs
    | none => none
  | '\\' :: c :: cs =>
    match escape? c with
    | some x => basic (x :: read) cs
    | none => none
  | c :: cs => if isPlain c then basic (c :: read) cs else none

/-- Reads on in a string between single quotes, where nothing is escaped. -/
def literal (read : List Char) : List Char → Option (String × List Char)
  | [] => none
  | '\'' :: cs => some (.ofList read.reverse, cs)
  | c :: cs => if isPlain c then literal (c :: read) cs else none

/-- A line break right after the opening quotes of a string of several lines is not part of it. -/
def skipFirstBreak : List Char → List Char
  | '\n' :: cs => cs
  | '\r' :: '\n' :: cs => cs
  | cs => cs

/-- Where a string of several lines is being read: in its text, between a backslash and the end
of its line, or in the blank space that such a backslash takes out. -/
inductive LineState where
  | text
  | ending
  | trimming
  deriving DecidableEq

/-- Reads on in a string of several lines between triple double quotes. -/
def multiBasic (state : LineState) (read : List Char) : List Char → Option (String × List Char)
  | [] => none
  | '\r' :: '\n' :: cs =>
    match state with
    | .text => multiBasic .text ('\n' :: read) cs
    | _ => multiBasic .trimming read cs
  | '\n' :: cs =>
    match state with
    | .text => multiBasic .text ('\n' :: read) cs
    | _ => multiBasic .trimming read cs
  | c :: cs =>
    if isSpace c ∧ state ≠ .text then multiBasic state read cs
    else if state = .ending then none
    else
      match c, cs with
      | '"', '"' :: '"' :: '"' :: '"' :: cs => some (.ofList ('"' :: '"' :: read).reverse, cs)
      | '"', '"' :: '"' :: '"' :: cs => some (.ofList ('"' :: read).reverse, cs)
      | '"', '"' :: '"' :: cs => some (.ofList read.reverse, cs)
      | '\\', 'u' :: a :: b :: c :: d :: cs =>
        match codePoint? [a, b, c, d] with
        | some x => multiBasic .text (x :: read) cs
        | none => none
      | '\\', 'U' :: a :: b :: c :: d :: e :: f :: g :: h :: cs =>
        match codePoint? [a, b, c, d, e, f, g, h] with
        | some x => multiBasic .text (x :: read) cs
        | none => none
      | '\\', c :: cs =>
        match escape? c with
        | some x => multiBasic .text (x :: read) cs
        | none =>
          if isSpace c ∨ c = '\n' ∨ c = '\r' then multiBasic .ending read (c :: cs) else none
      | c, cs => if isPlain c then multiBasic .text (c :: read) cs else none

/-- Reads on in a string of several lines between triple single quotes. -/
def multiLiteral (read : List Char) : List Char → Option (String × List Char)
  | [] => none
  | '\'' :: '\'' :: '\'' :: '\'' :: '\'' :: cs =>
    some (.ofList ('\'' :: '\'' :: read).reverse, cs)
  | '\'' :: '\'' :: '\'' :: '\'' :: cs => some (.ofList ('\'' :: read).reverse, cs)
  | '\'' :: '\'' :: '\'' :: cs => some (.ofList read.reverse, cs)
  | '\r' :: '\n' :: cs => multiLiteral ('\n' :: read) cs
  | c :: cs => if isPlain c ∨ c = '\n' then multiLiteral (c :: read) cs else none

/-- A string in any of the four kinds of quotes. -/
def string? : List Char → Option (String × List Char)
  | '"' :: '"' :: '"' :: cs => multiBasic .text [] (skipFirstBreak cs)
  | '"' :: cs => basic [] cs
  | '\'' :: '\'' :: '\'' :: cs => multiLiteral [] (skipFirstBreak cs)
  | '\'' :: cs => literal [] cs
  | _ => none

/-- Digits after the first of a number, where an underscore may stand between two digits. -/
def moreDigits (isDigit : Char → Bool) (read : List Char) : List Char → List Char × List Char
  | '_' :: c :: cs =>
    if isDigit c then moreDigits isDigit (c :: read) cs else (read.reverse, '_' :: c :: cs)
  | c :: cs => if isDigit c then moreDigits isDigit (c :: read) cs else (read.reverse, c :: cs)
  | [] => (read.reverse, [])

/-- Digits, at least one. -/
def digits? (isDigit : Char → Bool) : List Char → Option (List Char × List Char)
  | c :: cs => if isDigit c then some (moreDigits isDigit [c] cs) else none
  | [] => none

/-- The digits of a whole number, which begin with zero only if that is all. -/
def whole? : List Char → Option (List Char × List Char)
  | '0' :: cs => some (['0'], cs)
  | cs => digits? Char.isDigit cs

/-- A whole number of 64 bits with a sign. -/
def integer? (n : Int) (cs : List Char) : Option (Value × List Char) :=
  if Int64.minValue.toInt ≤ n ∧ n ≤ Int64.maxValue.toInt then some (.integer n, cs) else none

/-- A number that has a point or an exponent. All that is too great is an error, and all that is
too small is minus infinity. -/
def float? (negative : Bool) (whole fraction : List Char) (power : Int) (cs : List Char) :
    Option (Value × List Char) :=
  let x := Decimal.ofParts whole fraction power
  if negative then some (.float (-x), cs)
  else if x.isFinite then some (.float x, cs)
  else none

/-- The exponent of a number after its letter. -/
def exponent? : List Char → Option (Int × List Char)
  | '-' :: cs => (digits? Char.isDigit cs).map fun (ds, cs) => (-(Decimal.ofDigits 10 ds : Int), cs)
  | '+' :: cs => (digits? Char.isDigit cs).map fun (ds, cs) => ((Decimal.ofDigits 10 ds : Int), cs)
  | cs => (digits? Char.isDigit cs).map fun (ds, cs) => ((Decimal.ofDigits 10 ds : Int), cs)

/-- A number after its sign. -/
def unsigned? (negative : Bool) : List Char → Option (Value × List Char)
  | 'i' :: 'n' :: 'f' :: cs => some (.float (if negative then -(1 / 0) else 1 / 0), cs)
  | 'n' :: 'a' :: 'n' :: cs => some (.float (0 / 0), cs)
  | cs => do
    let (whole, cs) ← whole? cs
    let isE (c : Char) : Bool := c == 'e' || c == 'E'
    match cs with
    | '.' :: cs =>
      let (fraction, cs) ← digits? Char.isDigit cs
      match cs with
      | c :: cs' =>
        if isE c then
          let (power, cs) ← exponent? cs'
          float? negative whole fraction power cs
        else float? negative whole fraction 0 cs
      | [] => float? negative whole fraction 0 []
    | c :: cs' =>
      if isE c then
        let (power, cs) ← exponent? cs'
        float? negative whole [] power cs
      else
        let n : Int := Decimal.ofDigits 10 whole
        integer? (if negative then -n else n) cs
    | [] =>
      let n : Int := Decimal.ofDigits 10 whole
      integer? (if negative then -n else n) []

/-- A number in base 16, 8, or 2, after the mark of its base. -/
def based? (base : Nat) (isDigit : Char → Bool) (cs : List Char) : Option (Value × List Char) := do
  let (ds, cs) ← digits? isDigit cs
  integer? (Decimal.ofDigits base ds) cs

def number? : List Char → Option (Value × List Char)
  | '+' :: cs => unsigned? false cs
  | '-' :: cs => unsigned? true cs
  | '0' :: 'x' :: cs => based? 16 isHexDigit cs
  | '0' :: 'o' :: cs => based? 8 (fun c => '0' ≤ c && c ≤ '7') cs
  | '0' :: 'b' :: cs => based? 2 (fun c => c == '0' || c == '1') cs
  | cs => unsigned? false cs

/-- The number that two digits denote, if it is at most `limit`. -/
def twoDigits? (limit : Nat) : List Char → Option (Nat × List Char)
  | a :: b :: cs =>
    let n := Decimal.ofDigits 10 [a, b]
    if a.isDigit ∧ b.isDigit ∧ n ≤ limit then some (n, cs) else none
  | _ => none

def expect? (c : Char) : List Char → Option (List Char)
  | d :: cs => if d = c then some cs else none
  | [] => none

/-- A time of day, with seconds and perhaps a fraction of a second. -/
def time? (cs : List Char) : Option (List Char) := do
  let (_, cs) ← twoDigits? 23 cs
  let (_, cs) ← twoDigits? 59 (← expect? ':' cs)
  let (_, cs) ← twoDigits? 60 (← expect? ':' cs)
  match cs with
  | '.' :: c :: cs => if c.isDigit then some (cs.dropWhile Char.isDigit) else none
  | ['.'] => none
  | cs => some cs

/-- The offset of a time from that of Greenwich, if there is one. -/
def offset? (cs : List Char) : Option (List Char) := do
  match cs with
  | 'Z' :: cs => some cs
  | 'z' :: cs => some cs
  | c :: cs' =>
    if c == '+' || c == '-' then
      let (_, cs) ← twoDigits? 23 cs'
      let (_, cs) ← twoDigits? 59 (← expect? ':' cs)
      some cs
    else some cs
  | [] => some []

def daysIn (year month : Nat) : Nat :=
  if month = 2 then
    if year % 4 = 0 ∧ (year % 100 ≠ 0 ∨ year % 400 = 0) then 29 else 28
  else if month ∈ [4, 6, 9, 11] then 30
  else 31

/-- A date. -/
def date? (cs : List Char) : Option (List Char) := do
  let (century, cs) ← twoDigits? 99 cs
  let (year, cs) ← twoDigits? 99 cs
  let (month, cs) ← twoDigits? 12 (← expect? '-' cs)
  let (day, cs) ← twoDigits? 31 (← expect? '-' cs)
  if 1 ≤ month ∧ 1 ≤ day ∧ day ≤ daysIn (100 * century + year) month then some cs else none

/-- A date with or without a time. -/
def dateTime? (cs : List Char) : Option (List Char) := do
  let cs ← date? cs
  match cs with
  | c :: cs' =>
    if c == 'T' || c == 't' || (c == ' ' && (cs'.head?.any Char.isDigit)) then
      offset? (← time? cs')
    else some cs
  | [] => some []

/-- A date, a time or a number, all of which may begin with a digit. -/
def momentOrNumber? : List Char → Option (Value × List Char)
  | a :: b :: c :: cs =>
    if a.isDigit && b.isDigit && c == ':' then
      (time? (a :: b :: c :: cs)).map fun cs => (.moment, cs)
    else
      match c, cs with
      | c, d :: '-' :: cs =>
        if [a, b, c, d].all Char.isDigit then
          (dateTime? (a :: b :: c :: d :: '-' :: cs)).map fun cs => (.moment, cs)
        else number? (a :: b :: c :: d :: '-' :: cs)
      | _, _ => number? (a :: b :: c :: cs)
  | cs => number? cs

end Violable.Toml
