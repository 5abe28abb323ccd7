import Violable.Text.Quoted

/-!
# Failures of scoring

Marks can only be scored if every constraint that gave one has a weight or a rank, and constraints
of equal rank must agree where their rank decides.
-/

namespace Violable

/-- Why marks cannot be scored. -/
inductive ScoringError where
  | missingWeight (constraint : String)
  | missingRank (constraint : String)
  /-- Constraints of one rank decide together and disagree. -/
  | rankTie (rank : Nat) (constraints : List String)
  deriving DecidableEq

def ScoringError.message : ScoringError → String
  | missingWeight c => "No weight configured for constraint '" ++ c ++ "'"
  | missingRank c => "No rank configured for constraint '" ++ c ++ "'"
  | rankTie r cs =>
    "Rank tie at rank " ++ toString r ++ " between constraints " ++ Text.quotedList cs

end Violable
