import Violable.Config.Format
import Violable.Yaml.Node
import Violable.Yaml.Plain

/-!
# Configurations in the YAML format

Where a text is wanted, every scalar is one. Where the kind of a value is open, its style, its tag
and its spelling decide. An empty place is an empty sequence, an empty mapping or a value that is
left out, as it is wanted. A reference is read as the node that it means, and it may mean a node
around it, so that only so many references can be followed.
-/

namespace Violable.Yaml

open Config (Data)

/-- How deep data may be nested inside of a table of a configuration. -/
def depthLimit : Nat := 126

/-- The meaning of a number. Those of more than 64 bits are errors up to 128 bits, and only after
that a decimal number. -/
def number? (s : String) : Option (Option Data) :=
  let float := if isPadded (unsigned s.toList) then none else (float? s).map Data.float
  match integer? s with
  | some n =>
    if Int64.minValue.toInt ≤ n ∧ n < UInt64.size then
      some (some (if s.startsWith "-" then .integer n else .natural n.toNat))
    else if -(Nat.pow 2 127 : Nat) ≤ n ∧ n < Nat.pow 2 128 then none
    else some float
  | none => some float

/-- The meaning of a plain scalar. -/
def plain? (s : String) : Option Data :=
  if s.isEmpty || isNull s then some .null
  else
    match boolean? s with
    | some b => some (.boolean b)
    | none => (number? s).map (·.getD (.text s))

/-- Whether a tag makes a node a value of a kind that is not known here. -/
def isForeign (tag : Option Tag) : Bool := tag.any fun t => t.isLocal && t.text?.isSome

/-- The meaning of a scalar, which has the kind that its tag demands. A local tag that is no text
demands nothing. -/
def scalar? (tag : Option Tag) (style : Style) (s : String) : Option Data :=
  let usual := if style = .plain then plain? s else some (.text s)
  match tag with
  | none => usual
  | some t =>
    if t = .known "bool" then (boolean? s).map .boolean
    else if t = .known "int" then
      match number? s with
      | some (some (.float _)) => none
      | some d => d
      | none => none
    else if t = .known "float" then (float? s).map .float
    else if t = .known "null" then if isNull s then some .null else none
    else if isForeign tag then none
    else if t.isLocal then usual
    else some (.text s)

/-- Whether a scalar may be read as a kind of values other than texts. -/
def isPlainOr (kind : String) (tag : Option Tag) (style : Style) : Bool :=
  style = .plain || (style = .literal && tag = some (.known kind))

/-- Whether nothing is written for a node. -/
def Node.isBlank : Node → Bool
  | scalar _ .plain "" => true
  | _ => false

/-- Reading nodes. The state is how many references may still be followed. -/
abbrev Following := StateT Nat Option

namespace Place

/-- The node at a place. The node that a reference means is none itself. -/
def follow (p : Place) : Following Node := do
  match p.node with
  | .reference n =>
    match ← get with
    | 0 => failure
    | left + 1 =>
      set left
      p.referents[n]?
  | n => return n

/-- The place of another node in the same document. -/
def moveTo (p : Place) (n : Node) : Place := { p with node := n }

/-- The data at a place, which is nested at most so deep. -/
def data? : Nat → Place → Following Data
  | 0, p => do
    match ← p.follow with
    | .scalar tag style s => scalar? tag style s
    | _ => failure
  | depth + 1, p => do
    match ← p.follow with
    | .scalar tag style s => scalar? tag style s
    | .sequence tag items =>
      if isForeign tag then failure
      return .sequence (← items.mapM fun n => data? depth (p.moveTo n))
    | .mapping tag entries =>
      if isForeign tag then failure
      return .mapping (← entries.mapM fun e => do
        return (← data? depth (p.moveTo e.1), ← data? depth (p.moveTo e.2)))
    | .reference _ => failure

def text? (p : Place) : Following String := do
  match ← p.follow with
  | .scalar _ _ s => return s
  | _ => failure

def flag? (p : Place) : Following Bool := do
  match ← p.follow with
  | .scalar tag style s => if isPlainOr "bool" tag style then boolean? s else failure
  | _ => failure

def count? (p : Place) : Following Nat := do
  match ← p.follow with
  | .scalar tag style s => if isPlainOr "int" tag style then Yaml.count? s else failure
  | _ => failure

def items? (p : Place) : Following (List Place) := do
  match ← p.follow with
  | .sequence _ items => return items.map p.moveTo
  | n => if n.isBlank then return [] else failure

def entries? (p : Place) : Following (List (String × Place)) := do
  match ← p.follow with
  | .mapping _ entries => entries.mapM fun e => do return (← (p.moveTo e.1).text?, p.moveTo e.2)
  | n => if n.isBlank then return [] else failure

def optional? (p : Place) : Following (Option Place) := do
  match ← p.follow with
  | .scalar tag .plain s =>
    let isLeftOut := s.isEmpty || isNull s
    match tag with
    | none => return if isLeftOut then none else some (p.moveTo (.scalar tag .plain s))
    | some t =>
      if t = .known "null" then
        if isNull s then return none else failure
      else return some (p.moveTo (.scalar tag .plain s))
  | n => return some (p.moveTo n)

def contents? (p : Place) : Following (Config.Contents Place) := do
  match ← p.follow with
  | .sequence tag items => if isForeign tag then failure else return .sequence (items.map p.moveTo)
  | .mapping tag entries =>
    if isForeign tag then failure
    return .mapping (← entries.mapM fun e => do
      return (← data? depthLimit (p.moveTo e.1), p.moveTo e.2))
  | _ => failure

instance : Config.Format Following Place where
  text?
  flag?
  count?
  items?
  entries?
  record? _ := entries?
  optional?
  contents?
  data? := data? depthLimit

end Place

end Violable.Yaml
