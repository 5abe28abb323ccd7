import Violable.Grammar.Event
import Violable.Text.Colored
import Violable.Text.Grouped

/-!
# Console lines

An event is shown as one colored line, which begins with a time stamp.
-/

namespace Violable.Console

open Text (colored bold grouped)

/-- The line that is shown once, before all others. -/
def banner : String :=
  bold (colored .brightWhite "statgram v0.3.0 - harmonic evaluation of candidate structures")

/-- The beginning of an outcome's line. -/
def infoHead (stamp step : String) : String :=
  colored .brightBlack stamp ++ " " ++ colored .brightGreen "INFO" ++ " "
    ++ colored .brightCyan step ++ " "

/-- The beginning of the line of a step on the way to an outcome. -/
def debugHead (stamp step : String) : String :=
  colored .brightBlack stamp ++ " " ++ colored .brightBlue "DEBUG" ++ " "
    ++ colored .brightCyan step ++ " "

def semantics (name : String) : String := bold (colored .white name)

/-- A harmony is green unless it is below zero. -/
def harmony (h : Float) : String :=
  colored (if h < 0 then .brightRed else .brightGreen) (Harmony.text h)

def line (stamp : String) : Event Float → String
  | .evaluated parallel elements marked ignored marks =>
    debugHead stamp "[Eval]" ++ colored .brightYellow (grouped elements) ++ " elements ("
      ++ colored .yellow (grouped marked) ++ " marked, " ++ colored .white (grouped ignored)
      ++ " ignored), " ++ colored .brightYellow (grouped marks) ++ " marks, "
      ++ colored .brightBlack (if parallel then "parallel" else "sequential")
  | .aggregated name elements illFormed total =>
    debugHead stamp "[Stat]" ++ semantics name ++ " harmony (" ++ harmony total
      ++ "), ill-formed (" ++ colored .brightRed (grouped illFormed) ++ " of "
      ++ colored .white (grouped elements) ++ ")"
  | .pruned name evaluated removed total empty =>
    infoHead stamp "[Prune]" ++ semantics name ++ " removed ("
      ++ colored .brightRed (grouped removed) ++ " of " ++ colored .white (grouped evaluated)
      ++ "), harmony (" ++ harmony total ++ ")"
      ++ if empty then " " ++ bold (colored .brightRed "language is empty") else ""
  | .selected name candidates wellFormed =>
    infoHead stamp "[Select]" ++ semantics name ++ " well-formed ("
      ++ bold (colored .brightGreen (grouped wellFormed)) ++ " of "
      ++ colored .white (grouped candidates) ++ ")"

end Violable.Console
