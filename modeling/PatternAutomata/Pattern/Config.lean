import PatternAutomata.Encoding

/-!
# Options

What the meaning of a pattern depends on besides its text, and how large its parts may grow.
-/
namespace PatternAutomata

/-- The options under which a pattern is read and compiled. -/
structure Config where
  /-- How characters become bytes. -/
  encoding : Encoding := .utf8
  /-- Whether letters and classes also stand for their case folds. Quoted texts never do. -/
  caseInsensitive : Bool := false
  /-- How deep parentheses may nest. -/
  nestLimit : Nat := 250
  /-- How many code points a class may cover. -/
  classLimit : Nat := 10000
  /-- The largest bound of a count. -/
  repetitionLimit : Nat := 1000
  /-- How many states an automaton may have. -/
  sizeLimit : Nat := 1000000
deriving DecidableEq, Repr

end PatternAutomata
