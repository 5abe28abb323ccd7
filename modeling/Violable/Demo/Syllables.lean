import Violable.Acceptor.Language
import Violable.Acceptor.Trim
import Violable.Acceptor.Window
import Violable.Config.Load
import Violable.Demo.Basic
import Violable.Sample.Syllables

/-!
# A demonstration of syllables

All strings of three symbols are pruned under weights and under ranks. Weights let the preference
for a final nasal outweigh the ban on final consonants, and ranks do not.
-/

namespace Violable.Demo

/-- The states and arcs of an acceptor. -/
def sizeLine (m : Acceptor) : String :=
  toString m.states.size ++ " states, " ++ toString m.arcs.size ++ " transitions"

/-- The words that a configuration in a file leaves. -/
def words (stamp file text : String) : Demo (SortedSet String) := do
  let config ← check (·.message?.getD "") (Config.load file (some text.toUTF8))
  let alphabet := config.alphabet.getD Syllables.alphabet
  let g ← check SetupError.message (Grammar.ofConfig (Syllables.battery alphabet) config)
  let all := Acceptor.ofWindows alphabet 1
  let name := g.name.getD "grammar"
  say (name ++ ": Gen has " ++ sizeLine all)
  let p ← check ScoringError.message (g.prune all)
  report stamp (g.pruneEvents all)
  say (name ++ ": Lang has " ++ sizeLine p.candidate ++ " (" ++ p.result.text ++ ")")
  return p.candidate.accepted (g.maxLength.getD 6)

def sayWords (words : List String) : Demo Unit := sayAll (words.map ("  " ++ ·))

def syllables (stamp : String) : Demo Unit := do
  title "CV Syllable Phonotactics"
  let weighted ← words stamp "hg.toml" Syllables.weighted
  let ranked ← words stamp "ot.yaml" Syllables.ranked
  sayAll ["", "HG words:"]
  sayWords weighted.toList
  sayAll ["", "OT words:"]
  sayWords ranked.toList
  let others := weighted.toList.filter (· ∉ ranked)
  sayAll ["", "Accepted under HG only: " ++ toString others.length]
  sayWords others
  if ranked.toList.any (· ∉ weighted) then
    throw "Configuration error: OT accepted a word HG rejected"
  if others.isEmpty then throw "Configuration error: HG and OT accepted the same words"

end Violable.Demo
