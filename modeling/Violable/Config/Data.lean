/-!
# Data of any format

A value that says itself what kind of value it is. Where a part of a configuration can have
several shapes, it is read as such a value first.
-/

namespace Violable.Config

inductive Data where
  | null
  | boolean (b : Bool)
  /-- A whole number without a minus. -/
  | natural (n : Nat)
  /-- A whole number that has or could have a minus. -/
  | integer (n : Int)
  | float (x : Float)
  | text (s : String)
  | sequence (items : List Data)
  | mapping (entries : List (Data × Data))

namespace Data

def text? : Data → Option String
  | text s => some s
  | _ => none

def items? : Data → Option (List Data)
  | sequence items => some items
  | _ => none

end Data

end Violable.Config
