import Violable.Tree.Basic
import Violable.Tree.Token

/-!
# Bracket notation

A node with daughters is written as its label and its daughters between parentheses, and a leaf as
its bare label. A text is read as a tree if its tokens are an opening parenthesis, an atom, any
number of atoms and such trees, and a closing parenthesis. The first atom is the label of the
node, the other ones are leaves. Double quotes around an atom are not part of the label.
-/

namespace Violable

mutual

def Branch.text : Branch → String
  | .node l [] => l
  | .node l (d :: ds) => "(" ++ l ++ textOf (d :: ds) ++ ")"

/-- Each of the branches after a space. -/
def Branch.textOf : List Branch → String
  | [] => ""
  | b :: bs => " " ++ text b ++ textOf bs

end

/-- The empty tree is written as an empty pair of parentheses. -/
def Tree.text (t : Tree) : String := (t.top?.map Branch.text).getD "()"

/-- An atom without the double quotes around it, if it has a pair of them. -/
def unquote (s : String) : String :=
  match s.toList with
  | '"' :: cs => if cs.getLast? = some '"' then String.ofList cs.dropLast else s
  | _ => s

/-- A node whose daughters are being read. Those read so far are written backwards. -/
structure OpenNode where
  label : String
  daughters : List Branch

namespace OpenNode

def add (o : OpenNode) (b : Branch) : OpenNode := { o with daughters := b :: o.daughters }

def close (o : OpenNode) : Branch := .node o.label o.daughters.reverse

end OpenNode

/-- Why a text is not a tree. Positions count tokens from 0. -/
inductive ReadError where
  | empty
  | notOpened (found : Token)
  | noLabel (position : Nat)
  | unbalanced (label : String)
  | trailing (position : Nat)
  deriving DecidableEq

def ReadError.message : ReadError → String
  | empty => "Parse error: empty tree"
  | notOpened found => "Parse error: expected '(' but found '" ++ found.text ++ "'"
  | noLabel position => "Parse error: missing node label at token " ++ toString position
  | unbalanced label => "Parse error: unbalanced parentheses in node '" ++ label ++ "'"
  | trailing position => "Parse error: trailing input after tree at token " ++ toString position

namespace Tree

/-- Reads on inside the node `o`, which stands in the nodes `outer`. -/
def readInside (position : Nat) (o : OpenNode) (outer : List OpenNode) :
    List Token → Except ReadError Branch
  | [] => .error (.unbalanced o.label)
  | .atom s :: ts => readInside (position + 1) (o.add (.leaf (unquote s))) outer ts
  | .opening :: .atom s :: ts => readInside (position + 2) ⟨unquote s, []⟩ (o :: outer) ts
  | .opening :: _ => .error (.noLabel (position + 1))
  | .closing :: ts =>
    match outer with
    | p :: outer => readInside (position + 1) (p.add o.close) outer ts
    | [] => if ts.isEmpty then .ok o.close else .error (.trailing (position + 1))

def readTokens : List Token → Except ReadError Branch
  | [] => .error .empty
  | .opening :: .atom s :: ts => readInside 2 ⟨unquote s, []⟩ [] ts
  | .opening :: _ => .error (.noLabel 1)
  | t :: _ => .error (.notOpened t)

def read (s : String) : Except ReadError Tree :=
  (readTokens (Token.scan s)).map fun b => ⟨some b⟩

end Tree

end Violable
