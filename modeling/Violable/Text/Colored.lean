/-!
# Colored text

A terminal shows a text in color if it stands between two control sequences. The second of them
returns to the usual color.
-/

namespace Violable.Text

inductive Color where
  | yellow
  | white
  | brightBlack
  | brightRed
  | brightGreen
  | brightYellow
  | brightBlue
  | brightCyan
  | brightWhite
  deriving DecidableEq

/-- The number of a color in control sequences. -/
def Color.code : Color → Nat
  | yellow => 33
  | white => 37
  | brightBlack => 90
  | brightRed => 91
  | brightGreen => 92
  | brightYellow => 93
  | brightBlue => 94
  | brightCyan => 96
  | brightWhite => 97

/-- The control sequence that changes the look of what follows. -/
def control (code : Nat) : String := "\x1b[" ++ toString code ++ "m"

def colored (color : Color) (s : String) : String := control color.code ++ s ++ control 39

def bold (s : String) : String := control 1 ++ s ++ control 0

end Violable.Text
