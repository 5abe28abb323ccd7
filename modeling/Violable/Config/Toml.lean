import Violable.Config.Format
import Violable.Toml.Document

/-!
# Configurations in the TOML format

Each kind of value is written in its own way, and nothing stands for a value that is left out.
-/

namespace Violable.Toml.Value

open Config (Data)

mutual

/-- The value as data. No part of a configuration is a moment, so that moments mean nothing. -/
def toData : Value → Data
  | text s => .text s
  | integer n => .integer n
  | float x => .float x
  | boolean b => .boolean b
  | moment => .null
  | array items => .sequence (toDataItems items)
  | table entries => .mapping (toDataEntries entries)

def toDataItems : List Value → List Data
  | [] => []
  | v :: l => toData v :: toDataItems l

def toDataEntries : List (String × Value) → List (Data × Data)
  | [] => []
  | (key, v) :: l => (.text key, toData v) :: toDataEntries l

end

def text? : Value → Option String
  | text s => some s
  | _ => none

def flag? : Value → Option Bool
  | boolean b => some b
  | _ => none

def count? : Value → Option Nat
  | integer (.ofNat n) => some n
  | _ => none

def items? : Value → Option (List Value)
  | array items => some items
  | _ => none

def entries? : Value → Option (List (String × Value))
  | table entries => some entries
  | _ => none

/-- A record is a table or lists its fields. A moment is a record without any of the fields. -/
def record? (names : List String) : Value → Option (List (String × Value))
  | table entries => some entries
  | array items => some (names.zip items)
  | moment => some []
  | _ => none

def contents? : Value → Option (Config.Contents Value)
  | array items => some (.sequence items)
  | table entries => some (.mapping (entries.map fun e => (.text e.1, e.2)))
  | _ => none

instance : Config.Format Option Value where
  text?
  flag?
  count?
  items?
  entries?
  record?
  optional? v := some (some v)
  contents?
  data? v := some v.toData

end Violable.Toml.Value
