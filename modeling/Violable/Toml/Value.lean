/-!
# Values of the TOML format

A document is a table of keys and values. While it is read, a table also remembers how it came to
be, because a table that was defined in one way must not be extended in another.
-/

namespace Violable.Toml

inductive Value where
  | text (s : String)
  | integer (n : Int)
  | float (x : Float)
  | boolean (b : Bool)
  /-- A date, a time of day, or both. -/
  | moment
  | array (items : List Value)
  | table (entries : List (String × Value))

/-- How a table came to be: by a header of its own, only as a part of the path in another header,
or by a key with dots. -/
inductive Origin where
  | header
  | path
  | dotted
  deriving DecidableEq

/-- A part of a document that is being read. -/
inductive Item where
  | value (v : Value)
  | table (origin : Origin) (entries : List (String × Item))
  /-- An array of tables, each with its own header. The last one comes first. -/
  | tables (entries : List (List (String × Item)))

namespace Item

mutual

/-- The value that an item has when the document ends. -/
def toValue : Item → Value
  | value v => v
  | table _ entries => .table (toEntries entries)
  | tables all => .array (toTables all).reverse

def toEntries : List (String × Item) → List (String × Value)
  | [] => []
  | (key, i) :: l => (key, toValue i) :: toEntries l

def toTables : List (List (String × Item)) → List Value
  | [] => []
  | entries :: l => .table (toEntries entries) :: toTables l

end

end Item

/-- A table that is being read. -/
abbrev Entries := List (String × Item)

namespace Entries

/-- Replaces the item of a key, or puts a new key at the end. -/
def set (key : String) (i : Item) : Entries → Entries
  | [] => [(key, i)]
  | (k, j) :: l => if k = key then (k, i) :: l else (k, j) :: set key i l

/-- Changes the table at the end of a path. On the way tables are made where there are none, and
of an array of tables the last is meant. With `dotted` the path is that of a key with dots, which
must not lead through a table with a header. -/
def alterAt (dotted : Bool) (path : List String) (alter : Origin → Entries → Option Entries)
    (origin : Origin) (entries : Entries) : Option Entries :=
  match path with
  | [] => alter origin entries
  | key :: path =>
    match entries.lookup key with
    | none =>
      let made := if dotted then .dotted else .path
      (alterAt dotted path alter made []).map fun t => entries.set key (.table made t)
    | some (.value _) => none
    | some (.tables []) => none
    | some (.tables (t :: ts)) =>
      (alterAt dotted path alter .header t).map fun t => entries.set key (.tables (t :: ts))
    | some (.table o t) =>
      if dotted ∧ o = .header then none
      else (alterAt dotted path alter o t).map fun t => entries.set key (.table o t)

/-- Gives a value to a key, the last of a path. A key has at most one value, and the table of a
key with dots must come from such keys only. -/
def define (path : List String) (key : String) (i : Item) (origin : Origin) (entries : Entries) :
    Option Entries :=
  entries.alterAt true path (fun o t =>
    if (o == .dotted) == path.isEmpty then none
    else match t.lookup key with
      | some _ => none
      | none => some (t.set key i)) origin

/-- Begins a table with a header. A table that was a part of other paths may be continued. -/
def openTable (path : List String) (key : String) (entries : Entries) : Option Entries :=
  entries.alterAt false path (fun _ t =>
    match t.lookup key with
    | none => some (t.set key (.table .header []))
    | some (.table .path t') => some (t.set key (.table .header t'))
    | some _ => none) .header

/-- Begins one more table of an array of tables. -/
def openTables (path : List String) (key : String) (entries : Entries) : Option Entries :=
  entries.alterAt false path (fun _ t =>
    match t.lookup key with
    | none => some (t.set key (.tables [[]]))
    | some (.tables ts) => some (t.set key (.tables ([] :: ts)))
    | some _ => none) .header

end Entries

end Violable.Toml
