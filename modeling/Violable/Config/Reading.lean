import Violable.Config.Basic
import Violable.Config.Toml
import Violable.Config.Yaml

/-!
# Reading configurations

A configuration is read from a record of any format. A field may be left out unless the text says
that it is needed, fields that are not known are passed over, and no field may be given twice.
-/

namespace Violable.Config

/-- The field of a record with the given name, if it has one. It must not have two. -/
def field? {δ : Type} (record : List (String × δ)) (name : String) : Option (Option δ) :=
  match record.filter (·.1 == name) with
  | [] => some none
  | [(_, v)] => some (some v)
  | _ => none

namespace Data

/-- A weight may be written as a whole number. -/
def weight? : Data → Option Float
  | natural n => some (Decimal.nearest n 0)
  | integer n =>
    let x := Decimal.nearest n.natAbs 0
    some (if n < 0 then -x else x)
  | float x => some x
  | _ => none

/-- Of several weights of one constraint the last is meant. -/
def weights? (d : Data) : Option (HarmonyTable Float) :=
  match d with
  | mapping entries => do
    let pairs ← entries.mapM fun e => do return (← e.1.text?, ← e.2.weight?)
    return .weights (.ofList pairs)
  | _ => none

def ranking? (d : Data) : Option (HarmonyTable Float) := do
  return .ranking (← (← d.items?).mapM text?)

/-- The name of the one field that a table of a semantics needs, and how it is read. -/
def tableField? (semantics : String) : Option (String × (Data → Option (HarmonyTable Float))) :=
  if semantics = "hg" then some ("weights", weights?)
  else if semantics = "ot" then some ("ranking", ranking?)
  else none

/-- The name of a field. The first of them may also be called by its number, zero. -/
def fieldName? (first : String) : Data → Option String
  | text s => some s
  | natural 0 => some first
  | natural n => some (toString n)
  | _ => none

end Data

section Records

variable {m : Type → Type} [Monad m] [MonadLiftT Option m] {δ : Type} [Format m δ]

/-- A list of texts. -/
def texts? (d : δ) : m (List String) := do (← Format.items? d).mapM Format.text?

/-- The classes of an alphabet. Of several with one name the last is meant. -/
def classes? (d : δ) : m (SortedMap String (List String)) := do
  let pairs ← (← Format.entries? d).mapM fun e => do return (e.1, ← texts? e.2)
  return .ofList pairs

/-- The value of a field, or a value in its place if the field is missing. -/
def fieldOr {α : Type} (record : List (String × δ)) (name : String) (missing : α)
    (read : δ → m α) : m α := do
  match ← field? record name with
  | some d => read d
  | none => return missing

/-- A field whose value may say that there is none. -/
def optional? {α : Type} (read : δ → m α) (d : δ) : m (Option α) := do
  match ← Format.optional? d with
  | some d => return some (← read d)
  | none => return none

/-- A field that must not be missing. -/
def needed {α : Type} (record : List (String × δ)) (name : String) (read : δ → m α) : m α := do
  read (← (field? record name).join)

/-- An alphabet, which needs its symbols. -/
def alphabet? (d : δ) : m Alphabet := do
  let r ← Format.record? ["symbols", "bos", "eos", "classes"] d
  let symbols ← needed r "symbols" texts?
  let bos ← fieldOr r "bos" Alphabet.defaultBos Format.text?
  let eos ← fieldOr r "eos" Alphabet.defaultEos Format.text?
  let classes ← fieldOr r "classes" ∅ classes?
  return { symbols, bos, eos, classes }

def evaluation? (d : δ) : m EvaluationOptions := do
  let r ← Format.record? ["parallel", "ignore_boundaries", "max_length"] d
  let parallel ← fieldOr r "parallel" false Format.flag?
  let ignoreBoundaries ← fieldOr r "ignore_boundaries" false Format.flag?
  let maxLength ← fieldOr r "max_length" none (optional? Format.count?)
  return { parallel, ignoreBoundaries, maxLength }

/-- A table with its semantics, which is a field of its own. The fields may be listed without
their names, in which case the semantics comes first. -/
def harmony? (d : δ) : m (HarmonyTable Float) := do
  match ← Format.contents? d with
  | .mapping entries =>
    let isType (e : Data × δ) : Bool := e.1.text? == some "type"
    let [(_, type)] := entries.filter isType | (none : Option _)
    let (first, read) ← Data.tableField? (← Format.text? type)
    let others ← (entries.filter (! isType ·)).mapM fun e => do
      return (← Data.fieldName? first e.1, ← Format.data? e.2)
    read (← (field? others first).join)
  | .sequence [type, table] =>
    let (_, read) ← Data.tableField? (← Format.text? type)
    read (← Format.data? table)
  | _ => (none : Option _)

/-- A configuration, which needs its harmony. -/
def ofRecord? (d : δ) : m (Config Float) := do
  let r ← Format.record? ["name", "harmony", "alphabet", "evaluation"] d
  let name ← fieldOr r "name" none (optional? Format.text?)
  let harmony ← needed r "harmony" harmony?
  let alphabet ← fieldOr r "alphabet" none (optional? alphabet?)
  let evaluation ← fieldOr r "evaluation" .usual evaluation?
  return { name, harmony, alphabet, evaluation }

end Records

/-- The configuration in a text of the TOML format. -/
def ofToml? (s : String) : Option (Config Float) := do
  ofRecord? (Toml.Value.table (← Toml.read? s))

/-- The configuration in a text of the YAML format. References can be followed as often as a
hundred times for each part of the text. -/
def ofYaml? (s : String) : Option (Config Float) := do
  let document ← Yaml.read? s
  (ofRecord? document).run' (100 * document.node.size)

end Violable.Config
