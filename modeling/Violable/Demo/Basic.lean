import Violable.Grammar.Console

/-!
# Demonstrations

A demonstration says lines one after another, and it may fail with an error.
-/

namespace Violable

abbrev Demo := ExceptT String (StateM (Array String))

namespace Demo

/-- Says one line. -/
def say (line : String) : Demo Unit := modify (·.push line)

def sayAll (lines : List String) : Demo Unit := lines.forM say

/-- A title with a line under it. -/
def title (s : String) : Demo Unit :=
  sayAll [Console.banner, s, String.ofList (List.replicate s.length '='), ""]

/-- Says those events that are outcomes. -/
def report (stamp : String) (events : List (Event Float)) : Demo Unit :=
  sayAll ((events.filter (·.isOutcome)).map (Console.line stamp))

/-- The value of a step, or the message of its error. -/
def check {ε α : Type} (message : ε → String) (step : Except ε α) : Demo α :=
  match step with
  | .ok a => return a
  | .error e => throw (message e)

/-- The error with which a demonstration ends, if it fails, and the lines that it says. -/
def perform (d : Demo Unit) : Option String × Array String :=
  match d.run.run #[] with
  | (.ok (), lines) => (none, lines)
  | (.error e, lines) => (some e, lines)

end Demo

end Violable
