import PatternAutomata.Pattern.Error
import PatternAutomata.Term

/-!
# Operands

What the parser keeps for the part of a pattern that it has read: a term, as long as nothing was
done with it, or an automaton.
-/
namespace PatternAutomata

/-- The meaning of a part of a pattern. -/
inductive Operand where
  | term (t : Term)
  | automaton (a : Automaton)
deriving DecidableEq

namespace Operand

/-- Whether the operand is an automaton already. -/
def isBuilt : Operand → Bool
  | .term _ => false
  | .automaton _ => true

/-- The automaton of an operand; a count has none. -/
def toAutomaton (e : Encoding) : Operand → Except Error Automaton
  | .automaton a => .ok a
  | .term t =>
    match t.toAutomaton? e with
    | some a => .ok a
    | none => .error (.broken .bareCount)

/-- The automaton of an operand, put behind `a`. Texts and single characters are appended piece by
piece, everything else is built first and concatenated then. -/
def appendTo (a : Automaton) (e : Encoding) : Operand → Except Error Automaton
  | .term (.choice alternatives false) => .ok (a.appendTexts alternatives e)
  | .term .dot => .ok (a.appendCharacter e)
  | operand =>
    match operand.toAutomaton e with
    | .ok b => .ok (a.concat b)
    | .error err => .error err

end Operand

end PatternAutomata
