import Violable.Config.Reading

/-!
# Loading configurations

A configuration in a file is read in the format that the name of the file tells, and it is
validated.
-/

namespace Violable.Config

/-- Why a file gives no configuration. -/
inductive LoadError where
  | missing
  | notUnicode
  | toml
  | yaml
  | fault (fault : Fault Float)

/-- What the error says. What is wrong with the text of a format is not said. -/
def LoadError.message? : LoadError → Option String
  | missing => some "IO error: No such file or directory (os error 2)"
  | notUnicode => some "IO error: stream did not contain valid UTF-8"
  | toml => none
  | yaml => none
  | fault f => some f.message

/-- The part of a file's name after its last dot, which must not be the first character. -/
def fileExtension? (name : String) : Option String :=
  let reversed := name.toList.reverse
  let last := reversed.takeWhile (· ≠ '.')
  match reversed.drop last.length with
  | [] => none
  | [_] => none
  | _ => some (.ofList last.reverse)

/-- Whether a file is in the YAML format. All others are in the TOML format. -/
def isYamlFile (name : String) : Bool :=
  fileExtension? name == some "yaml" || fileExtension? name == some "yml"

/-- The configuration in a text, in the format of a file with that name. -/
def ofText (name text : String) : Except LoadError (Config Float) :=
  if isYamlFile name then
    match ofYaml? text with
    | some c => .ok c
    | none => .error .yaml
  else
    match ofToml? text with
    | some c => .ok c
    | none => .error .toml

/-- The configuration in a file, which may be missing. -/
def load (name : String) (contents : Option ByteArray) : Except LoadError (Config Float) := do
  let some bytes := contents | .error .missing
  let some text := String.fromUTF8? bytes | .error .notUnicode
  let c ← ofText name text
  match c.validate with
  | .error f => .error (.fault f)
  | .ok () => return c

end Violable.Config
