import Violable.Toml.Scalar

/-!
# Documents of the TOML format

A document is read line by line. A header opens a table, and a key with a value adds to the table
that was opened last. Arrays and inline tables may be nested only so deep.
-/

namespace Violable.Toml

/-- How deep arrays and inline tables may be nested, and how many parts a key may have. -/
def depthLimit : Nat := 79

/-- Skips blank space and line breaks, and comments up to the ends of their lines. -/
def skipGap (comment : Bool) : List Char → List Char
  | '\n' :: cs => skipGap false cs
  | '\r' :: '\n' :: cs => skipGap false cs
  | c :: cs =>
    if comment then if isPlain c then skipGap true cs else c :: cs
    else if isSpace c then skipGap false cs
    else if c == '#' then skipGap true cs
    else c :: cs
  | [] => []

/-- The rest after the end of a line, which may have a comment. -/
def lineEnd? (cs : List Char) : Option (List Char) :=
  let cs := skipSpace cs
  let cs := match cs with
    | '#' :: cs => cs.dropWhile isPlain
    | cs => cs
  match cs with
  | [] => some []
  | '\n' :: cs => some cs
  | '\r' :: '\n' :: cs => some cs
  | _ => none

def isBare (c : Char) : Bool := c.isAlphanum || c == '_' || c == '-'

/-- One part of a key, bare or between quotes. -/
def keyPart? : List Char → Option (String × List Char)
  | '"' :: cs => basic [] cs
  | '\'' :: cs => literal [] cs
  | cs =>
    let name := cs.takeWhile isBare
    if name.isEmpty then none else some (.ofList name, cs.dropWhile isBare)

/-- The other parts of a key and the space after it. Each is found within `steps` parts. -/
def keyParts? : Nat → String → List Char → Option (List String × String × List Char)
  | 0, _, _ => none
  | steps + 1, last, cs =>
    match skipSpace cs with
    | '.' :: cs => do
      let (next, cs) ← keyPart? (skipSpace cs)
      let (path, key, cs) ← keyParts? steps next cs
      some (last :: path, key, cs)
    | cs => some ([], last, cs)

/-- A key as a path and a last part. -/
def key? (cs : List Char) : Option (List String × String × List Char) := do
  let (first, cs) ← keyPart? cs
  keyParts? depthLimit first cs

/-- The items of an array up to its end. Each step reads one item. -/
def items? (value? : List Char → Option (Value × List Char)) :
    Nat → List Value → List Char → Option (List Value × List Char)
  | 0, _, _ => none
  | steps + 1, read, cs =>
    match skipGap false cs with
    | ']' :: cs => some (read.reverse, cs)
    | cs => do
      let (v, cs) ← value? cs
      match skipGap false cs with
      | ',' :: cs => items? value? steps (v :: read) cs
      | ']' :: cs => some ((v :: read).reverse, cs)
      | _ => none

/-- The keys and values of an inline table up to its end. Each step reads one of them. -/
def pairs? (value? : List Char → Option (Value × List Char)) :
    Nat → Entries → List Char → Option (Entries × List Char)
  | 0, _, _ => none
  | steps + 1, read, cs => do
    let (path, key, cs) ← key? (skipSpace cs)
    let cs ← expect? '=' cs
    let (v, cs) ← value? (skipSpace cs)
    let read ← read.define path key (.value v) .header
    match skipSpace cs with
    | ',' :: cs => pairs? value? steps read cs
    | '}' :: cs => some (read, cs)
    | _ => none

/-- A value that is nested at most so deep. -/
def value? (depth : Nat) (cs : List Char) : Option (Value × List Char) :=
  match cs with
  | '[' :: cs =>
    match depth with
    | 0 => none
    | depth + 1 =>
      (items? (value? depth) (cs.length + 1) [] cs).map fun (items, cs) => (.array items, cs)
  | '{' :: cs =>
    match depth with
    | 0 => none
    | depth + 1 =>
      match skipSpace cs with
      | '}' :: cs => some (.table [], cs)
      | cs =>
        (pairs? (value? depth) (cs.length + 1) [] cs).map fun (entries, cs) =>
          (.table (Item.toEntries entries), cs)
  | 't' :: 'r' :: 'u' :: 'e' :: cs => some (.boolean true, cs)
  | 'f' :: 'a' :: 'l' :: 's' :: 'e' :: cs => some (.boolean false, cs)
  | '"' :: _ => (string? cs).map fun (s, cs) => (.text s, cs)
  | '\'' :: _ => (string? cs).map fun (s, cs) => (.text s, cs)
  | cs => momentOrNumber? cs

/-- The lines of a document after those read so far, where the table at `opened` was opened last.
Each step reads one line. -/
def lines? : Nat → List String → Entries → List Char → Option Entries
  | 0, _, _, _ => none
  | steps + 1, opened, read, cs =>
    match skipSpace cs with
    | [] => some read
    | '[' :: '[' :: cs => do
      let (path, key, cs) ← key? (skipSpace cs)
      let cs ← expect? ']' (← expect? ']' cs)
      let read ← read.openTables path key
      lines? steps (path ++ [key]) read (← lineEnd? cs)
    | '[' :: cs => do
      let (path, key, cs) ← key? (skipSpace cs)
      let cs ← expect? ']' cs
      let read ← read.openTable path key
      lines? steps (path ++ [key]) read (← lineEnd? cs)
    | c :: cs =>
      if c == '#' || c == '\n' || c == '\r' then do
        lines? steps opened read (← lineEnd? (c :: cs))
      else do
        let (path, key, cs) ← key? (c :: cs)
        let cs ← expect? '=' cs
        let (v, cs) ← value? depthLimit (skipSpace cs)
        let read ← read.alterAt false opened (fun o t => t.define path key (.value v) o) .header
        lines? steps opened read (← lineEnd? cs)

/-- The table that a text in the format denotes. -/
def read? (s : String) : Option (List (String × Value)) :=
  let cs := match s.toList with
    | '\ufeff' :: cs => cs
    | cs => cs
  (lines? (cs.length + 1) [] [] cs).map Item.toEntries

end Violable.Toml
