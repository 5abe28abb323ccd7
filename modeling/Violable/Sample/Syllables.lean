import Violable.Acceptor.Arc
import Violable.Alphabet
import Violable.Constraint

/-!
# Syllables

Strings of stops, nasals and vowels are judged by four constraints on the shape of syllables. Two
configurations weigh and rank the same battery so that they differ on nasals at the end of words.
-/

namespace Violable.Syllables

/-- The symbol that comes before the label of an arc. -/
def before (t : Arc) : Option String := t.src.last?

/-- Whether an arc reads a symbol of a class after another one of it. -/
def repeats (a : Alphabet) (name : String) (t : Arc) : Bool :=
  (before t).any (a.inClass name) && a.inClass name t.label

/-- Whether an arc ends a string after a symbol that passes a test. -/
def endsAfter (a : Alphabet) (test : String → Bool) (t : Arc) : Bool :=
  t.label == a.eos && (before t).any test

/-- Against two consonants or two vowels in a row. -/
def structureOf (a : Alphabet) : Constraint Arc :=
  ⟨"SyllStruc", .root, fun t => if repeats a "consonant" t || repeats a "vowel" t then -1 else 0⟩

/-- Against a vowel at the beginning of a word. -/
def onset (a : Alphabet) : Constraint Arc :=
  ⟨"Onset", .root, fun t => if before t = some a.bos ∧ a.inClass "vowel" t.label then -1 else 0⟩

/-- Against a consonant at the end of a word. -/
def noCoda (a : Alphabet) : Constraint Arc :=
  ⟨"NoCoda", .root, fun t => if endsAfter a (a.inClass "consonant") t then -1 else 0⟩

/-- For a nasal at the end of a word. -/
def preferNasal (a : Alphabet) : Constraint Arc :=
  ⟨"PreferNasal", .root, fun t => if endsAfter a (· == "N") t then 1 else 0⟩

def battery (a : Alphabet) : Battery Arc := [structureOf a, onset a, noCoda a, preferNasal a]

/-- A stop, a nasal and a vowel. -/
def alphabet : Alphabet := .ofSymbols ["T", "N", "V"]

/-- The configuration with weights. -/
def weighted : String := "# CV syllables under Harmonic Grammar.
name = \"syllables-hg\"

[harmony]
type = \"hg\"

[harmony.weights]
SyllStruc = 10.0
Onset = 3.0
NoCoda = 2.0
PreferNasal = 3.0

[alphabet]
symbols = [\"T\", \"N\", \"V\"]

[alphabet.classes]
consonant = [\"T\", \"N\"]
vowel = [\"V\"]

[evaluation]
parallel = true
max_length = 8
"

/-- The configuration with ranks. -/
def ranked : String := "# The same constraints under strict domination.
name: syllables-ot
harmony:
  type: ot
  ranking: [SyllStruc, Onset, NoCoda, PreferNasal]
alphabet:
  symbols: [T, N, V]
  classes:
    consonant: [T, N]
    vowel: [V]
evaluation:
  max_length: 8
"

end Violable.Syllables
