import Violable.Alphabet
import Violable.Scoring.Weights

/-!
# Configurations

A configuration fixes the semantics of a grammar with its table of weights or its ranking, and
optionally an alphabet and options of evaluation. It may come from a file, so it is validated
before a grammar is made of it.
-/

namespace Violable

/-- The weights of a configuration, or its ranking from the most to the least dominant. -/
inductive HarmonyTable (H : Type) where
  | weights (table : SortedMap String H)
  | ranking (names : List String)

namespace HarmonyTable

variable {H : Type}

/-- Harmonic Grammar or Optimality Theory. -/
def semantics : HarmonyTable H → String
  | weights _ => "HG"
  | ranking _ => "OT"

/-- The constraints of the table: alphabetically if weighted, in their order if ranked. -/
def constraintNames : HarmonyTable H → List String
  | weights table => table.keys
  | ranking names => names

def covers (t : HarmonyTable H) (name : String) : Bool :=
  match t with
  | weights table => table.contains name
  | ranking names => names.contains name

end HarmonyTable

structure EvaluationOptions where
  parallel : Bool
  /-- Whether elements that are labelled with a delimiter are ignored. -/
  ignoreBoundaries : Bool
  /-- The greatest length of the strings that are listed. -/
  maxLength : Option Nat
  deriving DecidableEq

namespace EvaluationOptions

/-- One element after another, none ignored, and strings of any length. -/
def usual : EvaluationOptions := ⟨false, false, none⟩

instance : Inhabited EvaluationOptions := ⟨usual⟩

end EvaluationOptions

structure Config (H : Type) where
  name : Option String
  harmony : HarmonyTable H
  alphabet : Option Alphabet
  evaluation : EvaluationOptions

namespace Config

/-- What is wrong with a configuration. -/
inductive Fault (H : Type) where
  | weight (weight : H) (constraint : String)
  | rankedTwice (constraint : String)
  | sameDelimiters (delimiter : String)
  | delimiterSymbol (symbol : String)
  | zeroMaxLength

def Fault.message : Fault Float → String
  | weight w c =>
    "Invalid configuration: weight " ++ Decimal.plain w ++ " for constraint '" ++ c
      ++ "' must be finite and non-negative"
  | rankedTwice c =>
    "Invalid configuration: constraint '" ++ c ++ "' is ranked more than once"
  | sameDelimiters d =>
    "Invalid configuration: begin and end delimiters are both '" ++ d ++ "'"
  | delimiterSymbol s =>
    "Invalid configuration: delimiter '" ++ s ++ "' is also a segment symbol"
  | zeroMaxLength => "Invalid configuration: max_length must be at least 1"

/-- The first item that stands in `seen` or earlier in the list. -/
def firstRepeat? (seen : List String) : List String → Option String
  | [] => none
  | s :: l => if s ∈ seen then some s else firstRepeat? (s :: seen) l

variable {H : Type}

def constraintNames (c : Config H) : List String := c.harmony.constraintNames

/-- The first fault of an alphabet. -/
def alphabetFault? (a : Alphabet) : Option (Fault H) :=
  if a.bos = a.eos then some (.sameDelimiters a.bos)
  else (a.symbols.find? a.isDelimiter).map .delimiterSymbol

def evaluationFault? (o : EvaluationOptions) : Option (Fault H) :=
  if o.maxLength = some 0 then some .zeroMaxLength else none

variable [Scale H]

/-- The first fault of a table, in the order of its constraints. -/
def harmonyFault? : HarmonyTable H → Option (Fault H)
  | .weights table =>
    (table.entries.find? fun e => ! Weights.isValid e.2).map fun e => .weight e.2 e.1
  | .ranking names => (firstRepeat? [] names).map .rankedTwice

/-- The first fault: the table is looked at first, then the alphabet, then the options. -/
def fault? (c : Config H) : Option (Fault H) :=
  (harmonyFault? c.harmony).or
    ((c.alphabet.bind alphabetFault?).or (evaluationFault? c.evaluation))

/-- Fails with the first fault. -/
def validate (c : Config H) : Except (Fault H) Unit :=
  match c.fault? with
  | some f => .error f
  | none => .ok ()

end Config

end Violable
