import PatternAutomata.Parser.Run
import PatternAutomata.Scanner.Basic

/-!
# Compiling a pattern

From a pattern text to its automaton.
-/
namespace PatternAutomata

/-- The automaton of a pattern. -/
def compile (config : Config) (pattern : String) : Except Error Automaton :=
  (parse Scanner.source config.sizeLimit (Scanner.ofText config pattern)).1

end PatternAutomata
