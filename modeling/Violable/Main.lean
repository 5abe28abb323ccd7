import Violable.Demo.Rules
import Violable.Demo.Syllables

/-!
# Command line

Runs the demonstration whose name is given. The lines of its steps are stamped with the time of
its start in seconds.
-/

namespace Violable

/-- A number of milliseconds in seconds, with the last five digits of them and three places. -/
def secondStamp (milliseconds : Nat) : String :=
  let padded (width : Nat) (fill : Char) (n : Nat) : String :=
    let digits := Nat.toDigits 10 n
    String.ofList (List.replicate (width - digits.length) fill ++ digits)
  padded 5 ' ' (milliseconds / 1000 % 100000) ++ "." ++ padded 3 '0' (milliseconds % 1000)

def demoNamed? (name : String) : Option (String → Demo Unit) :=
  if name = "smolensky1993" then some Demo.rules
  else if name = "syllables" then some Demo.syllables
  else none

/-- Prints the lines of a demonstration, and the error that it ends with. -/
def runDemo (demo : String → Demo Unit) : IO UInt32 := do
  let stamp := secondStamp (← IO.monoMsNow)
  let (error, lines) := (demo stamp).perform
  for line in lines do IO.println line
  match error with
  | none => return 0
  | some message =>
    IO.eprintln ("Error: " ++ message)
    return 1

end Violable

def main (args : List String) : IO UInt32 := do
  match args with
  | [name] =>
    match Violable.demoNamed? name with
    | some demo => Violable.runDemo demo
    | none =>
      IO.eprintln ("unknown demonstration: " ++ name)
      return 2
  | _ =>
    IO.eprintln "expected the name of a demonstration: smolensky1993 or syllables"
    return 2
