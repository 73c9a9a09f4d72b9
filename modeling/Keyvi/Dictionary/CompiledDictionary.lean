import Mathlib
import Keyvi.Dictionary.DictionaryCompiler
import Keyvi.Dictionary.SecondaryKeyDictionary
import Keyvi.Fsa.DictionaryTraversal
import Keyvi.Fsa.GeneratorDictionary
import Keyvi.Fsa.ZipDictionaries

/-!
# Looking up what was compiled

The exact lookups of `dictionary.h` on an automaton that holds entries, and on one that the generator
has made of what a compiler feeds it.
-/

namespace Keyvi.Dictionary

open Fsa Automata SortedRuns

/-! ## Exact lookups -/

section Lookups

variable {a : Automata} {entries : List (Key × Nat)}

end Lookups

/-! ## From `Add` to the lookup -/

section Merging

variable {sort : List KeyValue → List KeyValue} {chunks : List (List KeyValue)}

end Merging

end Keyvi.Dictionary
