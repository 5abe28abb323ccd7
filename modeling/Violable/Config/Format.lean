import Violable.Config.Data

/-!
# Formats of configurations

Configurations are written in several formats, which differ in what they take for a text, a
number, or a record. A format is what a value of it can be read as. Each reading fails where the
value is of another kind. A format reads in a monad of its own, as reading one value may bear on
reading the next.
-/

namespace Violable.Config

/-- What a collection holds. The keys of a mapping are data. -/
inductive Contents (δ : Type) where
  | sequence (items : List δ)
  | mapping (entries : List (Data × δ))

class Format (m : outParam (Type → Type)) (δ : Type) where
  text? : δ → m String
  flag? : δ → m Bool
  count? : δ → m Nat
  items? : δ → m (List δ)
  /-- Keys with values, where a key may be repeated. -/
  entries? : δ → m (List (String × δ))
  /-- The fields of a record. They have names, or else the order in which they are listed. -/
  record? : List String → δ → m (List (String × δ))
  /-- A value that may be left out, which the format may also say with a value. -/
  optional? : δ → m (Option δ)
  /-- What is in a collection of which the kind is open. -/
  contents? : δ → m (Contents δ)
  /-- The data inside of such a collection. -/
  data? : δ → m Data

end Violable.Config
