import Violable.Mark
import Violable.Scoring.Ranks
import Violable.Scoring.Weights

/-!
# Semantics of marks

The marks on one subnode are reduced to a harmony in one of two ways. With weights, every mark
counts its value times the weight of its constraint, and a sum above zero counts as zero. With
ranks, only the marks of the highest rank count: a violation among them costs a fixed penalty.
-/

namespace Violable

/-- How marks are reduced to harmony. -/
inductive Semantics (H : Type) where
  | weighted (weights : Weights H)
  | ranked (ranks : Ranks)

namespace Weights

variable {H : Type} [Scale H]

/-- The sum of the weighted values, added up from the left. -/
def score (w : Weights H) (marks : SortedSet Mark) : Except ScoringError H :=
  marks.toList.foldlM (fun s m => (w.weight m.constraint).map (s + · * Scale.ofInt m.value)) 0

/-- A score below zero, or else zero. -/
def harmony (w : Weights H) (marks : SortedSet Mark) : Except ScoringError H :=
  (w.score marks).map fun s => if s < 0 then s else 0

/-- The first of the violations that weigh most, after the heaviest one so far. -/
def heaviest (w : Weights H) (best : Option (Mark × H)) :
    List Mark → Except ScoringError (Option (Mark × H))
  | [] => .ok best
  | m :: ms =>
    match w.weight m.constraint with
    | .error e => .error e
    | .ok x =>
      let cost := -x * Scale.ofInt m.value
      if best.all (·.2 < cost) then w.heaviest (some (m, cost)) ms else w.heaviest best ms

/-- The constraint of the heaviest violation, where the score is not zero or more. -/
def decisive? (w : Weights H) (marks : SortedSet Mark) : Except ScoringError (Option String) :=
  match w.score marks with
  | .error e => .error e
  | .ok s =>
    if 0 ≤ s then .ok none
    else (w.heaviest none (marks.toList.filter (·.isViolation))).map
      (·.map fun best => best.1.constraint)

end Weights

namespace Ranks

/-- The highest rank with its marks in order, after those found so far. -/
def topMarks (r : Ranks) (top : Option (Nat × List Mark)) :
    List Mark → Except ScoringError (Option (Nat × List Mark))
  | [] => .ok top
  | m :: ms =>
    match r.rank m.constraint with
    | .error e => .error e
    | .ok n =>
      match top with
      | none => r.topMarks (some (n, [m])) ms
      | some (best, group) =>
        if n < best then r.topMarks top ms
        else if n = best then r.topMarks (some (best, group ++ [m])) ms
        else r.topMarks (some (n, [m])) ms

/-- What the marks of the highest rank say. -/
structure Verdict where
  mark : Mark
  /-- Whether all of them are of one constraint. -/
  alone : Bool
  deriving DecidableEq

/-- The verdict of a group of marks of one rank, of which `first` is the first. -/
def verdict (rank : Nat) (first : Mark) (group : List Mark) : Except ScoringError Verdict :=
  let names := (SortedSet.ofList (group.map (·.constraint))).toList
  if names.length = 1 then .ok ⟨first, true⟩
  else if group.any fun m => m.isViolation != first.isViolation then .error (.rankTie rank names)
  else .ok ⟨first, false⟩

/-- The verdict of the marks of the highest rank, if there are marks. -/
def decide? (r : Ranks) (marks : SortedSet Mark) : Except ScoringError (Option Verdict) :=
  match r.topMarks none marks.toList with
  | .error e => .error e
  | .ok (some (rank, first :: group)) => (verdict rank first (first :: group)).map some
  | .ok _ => .ok none

/-- The penalty if the highest rank is violated, or else zero. -/
def harmony {H : Type} [Scale H] (r : Ranks) (marks : SortedSet Mark) : Except ScoringError H :=
  (r.decide? marks).map fun v => if v.any (·.mark.isViolation) then Harmony.penalty else 0

/-- The constraint that decides alone. -/
def decisive? (r : Ranks) (marks : SortedSet Mark) : Except ScoringError (Option String) :=
  (r.decide? marks).map fun v => (v.filter (·.alone)).map (·.mark.constraint)

end Ranks

namespace Semantics

variable {H : Type} [Scale H]

/-- Harmonic Grammar or Optimality Theory. -/
def name : Semantics H → String
  | weighted _ => "HG"
  | ranked _ => "OT"

def subnodeHarmony : Semantics H → SortedSet Mark → Except ScoringError H
  | weighted w => w.harmony
  | ranked r => r.harmony

/-- The constraint that made a subnode ill-formed, as far as one did. -/
def decisive? : Semantics H → SortedSet Mark → Except ScoringError (Option String)
  | weighted w => w.decisive?
  | ranked r => r.decisive?

/-- Fails with the first name that has no weight or rank. -/
def ensureCovers : Semantics H → List String → Except ScoringError Unit
  | weighted w => w.ensureCovers
  | ranked r => r.ensureCovers

omit [Scale H] in
/-- All that a reader of logs sees of the semantics. -/
def inspect : Semantics H → String
  | weighted w => "Hg(HgStat \x7b weights: " ++ w.inspect ++ " \x7d)"
  | ranked r => "Ot(OtStat \x7b ranks: " ++ r.inspect ++ " \x7d)"

end Semantics

end Violable
