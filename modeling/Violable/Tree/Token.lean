import Violable.Text.Blank

/-!
# Tokens of bracket notation

A text in bracket notation is made of parentheses and of atoms, which are the maximal runs of
characters that are neither parentheses nor blank. Blank characters only separate.
-/

namespace Violable

inductive Token where
  | opening
  | closing
  | atom (s : String)
  deriving DecidableEq

namespace Token

def text : Token → String
  | opening => "("
  | closing => ")"
  | atom s => s

/-- The atom whose characters were read, backwards. Without characters there is none. -/
def ofRun (run : List Char) : List Token :=
  if run.isEmpty then [] else [atom (String.ofList run.reverse)]

/-- The tokens of `cs` after the beginning `run` of an atom, which is written backwards. -/
def scanAfter (run : List Char) : List Char → List Token
  | [] => ofRun run
  | c :: cs =>
    if c = '(' then ofRun run ++ opening :: scanAfter [] cs
    else if c = ')' then ofRun run ++ closing :: scanAfter [] cs
    else if Text.isBlank c then ofRun run ++ scanAfter [] cs
    else scanAfter (c :: run) cs

def scan (s : String) : List Token := scanAfter [] s.toList

end Token

end Violable
