import Violable.Yaml.Token

/-!
# Nodes of the YAML format

A document is a node, which is a scalar, a sequence or a mapping. A node may have a tag, and it
may have an anchor by which other places of the document refer to it. Sequences and mappings are
blocks of lines or stand between brackets.
-/

namespace Violable.Yaml

inductive Node where
  | scalar (tag? : Option Tag) (style : Style) (text : String)
  | sequence (tag? : Option Tag) (items : List Node)
  | mapping (tag? : Option Tag) (entries : List (Node × Node))
  /-- A reference to another node of the document, which is known by a number. -/
  | reference (number : Nat)

namespace Node

mutual

/-- The number of the node's parts. Of a collection, the beginning and the end are parts too. -/
def size : Node → Nat
  | scalar .. => 1
  | sequence _ items => sizeOfItems items + 2
  | mapping _ entries => sizeOfEntries entries + 2
  | reference _ => 1

def sizeOfItems : List Node → Nat
  | [] => 0
  | n :: l => n.size + sizeOfItems l

def sizeOfEntries : List (Node × Node) → Nat
  | [] => 0
  | (k, v) :: l => k.size + v.size + sizeOfEntries l

end

end Node

/-- A node of a document, with the nodes that references of the document mean by their numbers. -/
structure Place where
  node : Node
  referents : Array Node

/-- What is known while nodes are read. -/
structure Reading where
  /-- The tokens that are still to be read. -/
  tokens : List Token
  /-- The beginnings of tags that handles stand for. -/
  handles : List (String × Tag)
  /-- The names of anchors so far, each with the number that it has now. -/
  names : List (String × Nat)
  /-- The nodes with an anchor so far, in the order in which they begin, with their numbers. -/
  anchored : Array (Nat × Node)

abbrev Reader := StateT Reading Option

namespace Reader

def peek? : Reader (Option Token) := return (← get).tokens.head?

/-- Whether the next token is one of these. -/
def isAt (tokens : List Token) : Reader Bool := return (← peek?).any (tokens.contains ·)

def skip : Reader Unit := modify fun r => { r with tokens := r.tokens.tail }

/-- Skips a token that must come next. -/
def expect (t : Token) : Reader Unit := do
  if ← isAt [t] then skip else failure

/-- The node that stands where nothing is written. -/
def empty : Node := .scalar none .plain ""

/-- The tag that is written with a handle. Without a handle it is written in full. -/
def resolve (handle : String) (suffix : Tag) : Reader Tag := do
  if handle.isEmpty then return suffix
  else
    let beginning ← (← get).handles.lookup handle
    return beginning.append suffix

def anchor? : Reader (Option String) := do
  match ← peek? with
  | some (.anchor name) =>
    skip
    return some name
  | _ => return none

def tag? : Reader (Option Tag) := do
  match ← peek? with
  | some (.tag handle suffix) =>
    skip
    return some (← resolve handle suffix)
  | _ => return none

/-- The anchor and the tag before a node, which stand in either order. -/
def properties : Reader (Option String × Option Tag) := do
  match ← anchor? with
  | some name => return (some name, ← tag?)
  | none =>
    let tag ← tag?
    return (← if tag.isSome then anchor? else pure none, tag)

/-- A number for a node with an anchor: how many names there were before. A name that is used
again shares its number with the next new name. -/
def number (name : String) : Reader Nat := do
  let names := (← get).names
  let n := names.length
  modify fun r => { r with names := (name, n) :: names.filter (·.1 != name) }
  return n

/-- Reads a node that can be referred to by an anchor. -/
def anchored (name : Option String) (read : Reader Node) : Reader Node :=
  match name with
  | none => read
  | some name => do
    let n ← number name
    let place := (← get).anchored.size
    modify fun r => { r with anchored := r.anchored.push (n, empty) }
    let node ← read
    modify fun r => { r with anchored := r.anchored.setIfInBounds place (n, node) }
    return node

mutual

/-- A node. Inside brackets it is no block. As the key or the value of a mapping it may be a
sequence whose items are not indented further. -/
def node (block undented : Bool) : Nat → Reader Node
  | 0 => failure
  | steps + 1 => do
    if let some (.alias name) ← peek? then
      skip
      return .reference (← (← get).names.lookup name)
    else
      let (anchor, tag) ← properties
      anchored anchor do
        match ← peek?, block, undented with
        | some (.scalar style text), _, _ =>
          skip
          return .scalar tag style text
        | some .flowSequence, _, _ =>
          skip
          return .sequence tag (← flowItems true steps)
        | some .flowMapping, _, _ =>
          skip
          return .mapping tag (← flowEntries true steps)
        | some .blockSequence, true, _ =>
          skip
          return .sequence tag (← blockItems steps)
        | some .blockMapping, true, _ =>
          skip
          return .mapping tag (← blockEntries steps)
        | some .item, _, true => return .sequence tag (← undentedItems steps)
        | _, _, _ =>
          if anchor.isSome || tag.isSome then return .scalar tag .plain "" else failure

/-- The items of a block up to its end. -/
def blockItems : Nat → Reader (List Node)
  | 0 => failure
  | steps + 1 => do
    if ← isAt [.item] then
      skip
      let n ← if ← isAt [.item, .blockEnd] then pure empty else node true false steps
      return n :: (← blockItems steps)
    else
      expect .blockEnd
      return []

/-- The items of a sequence that is a value and has no block of its own. -/
def undentedItems : Nat → Reader (List Node)
  | 0 => failure
  | steps + 1 => do
    if ← isAt [.item] then
      skip
      let n ←
        if ← isAt [.item, .key, .value, .blockEnd] then pure empty else node true false steps
      return n :: (← undentedItems steps)
    else return []

/-- The keys and values of a block up to its end. -/
def blockEntries : Nat → Reader (List (Node × Node))
  | 0 => failure
  | steps + 1 => do
    let half : Reader Node := do
      if ← isAt [.key, .value, .blockEnd] then pure empty else node true true steps
    if ← isAt [.key] then
      skip
      let k ← half
      let v ←
        if ← isAt [.value] then
          skip
          half
        else pure empty
      return (k, v) :: (← blockEntries steps)
    else
      expect .blockEnd
      return []

/-- The items between square brackets, of which each but the first follows a comma. A comma may
stand before the closing bracket. An item may be a mapping with one key and no brackets. -/
def flowItems (first : Bool) : Nat → Reader (List Node)
  | 0 => failure
  | steps + 1 => do
    if ← isAt [.flowSequenceEnd] then
      skip
      return []
    else
      if ! first then expect .comma
      if ← isAt [.flowSequenceEnd] then
        skip
        return []
      else if ← isAt [.key] then
        skip
        let e ← pair steps
        return .mapping none [e] :: (← flowItems false steps)
      else
        let n ← node false false steps
        return n :: (← flowItems false steps)

/-- The keys and values between curly brackets. A key may stand alone. -/
def flowEntries (first : Bool) : Nat → Reader (List (Node × Node))
  | 0 => failure
  | steps + 1 => do
    if ← isAt [.flowMappingEnd] then
      skip
      return []
    else
      if ! first then expect .comma
      if ← isAt [.flowMappingEnd] then
        skip
        return []
      else if ← isAt [.key] then
        skip
        let k ←
          if ← isAt [.value, .comma, .flowMappingEnd] then pure empty else node false false steps
        let v ← flowValue .flowMappingEnd steps
        return (k, v) :: (← flowEntries false steps)
      else
        let k ← node false false steps
        return (k, empty) :: (← flowEntries false steps)

/-- The key and the value of an item that is a mapping without brackets. Where the key is missing,
the token that shows it is passed over. -/
def pair : Nat → Reader (Node × Node)
  | 0 => failure
  | steps + 1 => do
    let k ←
      if ← isAt [.value, .comma, .flowSequenceEnd] then
        skip
        pure empty
      else node false false steps
    return (k, ← flowValue .flowSequenceEnd steps)

/-- The value after a key between brackets that close with the token `closing`. -/
def flowValue (closing : Token) : Nat → Reader Node
  | 0 => failure
  | steps + 1 => do
    if ← isAt [.value] then
      skip
      if ← isAt [.comma, closing] then return empty else node false false steps
    else return empty

end

/-- Whether the next token is a directive. -/
def isAtDirective : Reader Bool := do
  match ← peek? with
  | some (.version ..) => return true
  | some (.handle ..) => return true
  | _ => return false

/-- The directives before a document: at most one names the version, which must be known, and each
handle is declared at most once. -/
def directives (versioned : Bool) (declared : List (String × Tag)) : Nat → Reader Unit
  | 0 => failure
  | steps + 1 => do
    match ← peek? with
    | some (.version major minor) =>
      if versioned || major != 1 || ! [1, 2].contains minor then failure
      skip
      directives true declared steps
    | some (.handle name beginning) =>
      if (declared.lookup name).isSome then failure
      skip
      directives versioned ((name, beginning) :: declared) steps
    | _ => modify fun r => { r with handles := declared ++ r.handles }

/-- The one document of a text. -/
def document (steps : Nat) : Reader Node := do
  let marked := (← isAtDirective) || (← isAt [.documentStart])
  if marked then
    directives false [] steps
    expect .documentStart
  let isEmpty ← if marked then
      pure ((← isAtDirective) || (← isAt [.documentStart, .documentEnd]) || (← peek?).isNone)
    else pure false
  let n ← if isEmpty then pure empty else node true false steps
  modify fun r => { r with tokens := r.tokens.dropWhile (· == .documentEnd) }
  if (← peek?).isSome then failure
  return n

end Reader

/-- The handles that need no directive. -/
def usualHandles : List (String × Tag) :=
  [("!", .ofString "!"), ("!!", .ofString "tag:yaml.org,2002:")]

/-- The nodes by their numbers. Of several with one number the last is meant. -/
def Reading.referents (r : Reading) : Array Node :=
  r.anchored.foldl (fun a (n, node) => a.setIfInBounds n node)
    (.replicate r.anchored.size Reader.empty)

/-- The document that a text in the format denotes. Reading a node takes at most three steps for
each of its tokens. -/
def read? (s : String) : Option Place := do
  let tokens ← tokens? s
  let steps := 3 * tokens.size + 3
  let (node, r) ← Reader.document steps ⟨tokens.toList, usualHandles, [], #[]⟩
  return ⟨node, r.referents⟩

end Violable.Yaml
