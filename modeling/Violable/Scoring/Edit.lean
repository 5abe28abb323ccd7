import Violable.Scoring.Weights

/-!
# Editing a table of weights

A table of weights can be edited in place: it is built anew from a list of pairs, or a weight is set
or removed. An edit answers with the weight that was there before, or it is refused. What an edit
has done to the table before it is refused is not undone, so a weight is tested first, and a list of
pairs is put in a table of its own, which takes the place of the old one when all of it is in.
-/

namespace Violable

/-- What can be asked of a table of weights. -/
inductive Edit (H : Type) where
  | build (pairs : List (String × H))
  | insert (name : String) (weight : H)
  | remove (name : String)

namespace Edit

variable {H α : Type}

/-- The steps of an edit, which may end with a refusal. -/
abbrev Steps (H α : Type) := ExceptT (InvalidWeight H) (StateM (Weights H)) α

/-- The answer to some steps and the table after them. -/
def Steps.on (steps : Steps H α) (w : Weights H) : Except (InvalidWeight H) α × Weights H :=
  steps.run.run w

variable [Scale H]

/-- Sets a weight, and gives the one that was there before. -/
def set (name : String) (x : H) : Steps H (Option H) := do
  unless Weights.isValid x do throw ⟨name, x⟩
  let w ← get
  MonadStateOf.set (⟨w.table.insert name x⟩ : Weights H)
  return w.get? name

/-- Sets the weights of a list, one after another. -/
def setAll : List (String × H) → Steps H Unit
  | [] => return
  | (name, x) :: pairs => do
    let _ ← set name x
    setAll pairs

/-- The steps of an edit. -/
def steps : Edit H → Steps H (Option H)
  | build pairs => do
    match (setAll pairs).on .empty with
    | (.ok (), w) =>
      MonadStateOf.set w
      return none
    | (.error e, _) => throw e
  | insert name x => set name x
  | remove name => modifyGet (·.erase name)

/-- The answer to an edit and the table after it. -/
def apply (e : Edit H) (w : Weights H) : Except (InvalidWeight H) (Option H) × Weights H :=
  e.steps.on w

/-- The table after edits one after another, whether refused or not. -/
def applyAll (edits : List (Edit H)) (w : Weights H) : Weights H :=
  edits.foldl (fun w e => (e.apply w).2) w

end Edit

end Violable
