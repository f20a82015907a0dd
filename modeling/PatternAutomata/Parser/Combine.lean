import PatternAutomata.Automaton.Repetition
import PatternAutomata.Parser.Detail

/-!
# The meaning of a rule

What a rule makes of the meanings of the symbols that it reduces.
-/
namespace PatternAutomata

/-- The meaning of a symbol, which has to be there. -/
def needed : Option Operand → Except Error Operand
  | some v => .ok v
  | none => .error (.internal .missingValue)

/-- The bounds of a repetition, which an operand has to give. -/
def repetitionBounds : Operand → Except Error (Nat × Bound)
  | .term (.count least most) => .ok (least, most)
  | other => .error (.internal (.notCount other.detail))

/-- Refuse more than `limit` states. -/
def guardSize (limit states : Nat) : Except Error Unit :=
  if limit < states then .error (.tooLarge limit) else .ok ()

/-- Repeat an operand, unless the estimate says that the result would be too large. -/
def repeatOperand (limit : Nat) (e : Encoding) (item count : Operand) :
    Except Error Automaton := do
  let (least, most) ← repetitionBounds count
  let a ← item.toAutomaton e
  guardSize limit (Automaton.repetitionEstimate a.size least most)
  return a.repeatBetween least most

/-- The meaning of a rule, from the meanings of its symbols in their order. Deterministic automata
on the way keep to `limit` states. -/
def combine (limit : Nat) (e : Encoding) (rule : Rule) (values : List (Option Operand)) :
    Except Error Operand :=
  match rule, values with
  | .emptySequence, [] => .ok (.automaton .emptyText)
  | .pattern, [v] => do
    let v ← needed v
    return .automaton (← v.toAutomaton e)
  | .firstAlternative, [v] | .firstConjunct, [v] | .plain, [v] | .once, [v] | .letters, [v]
  | .dot, [v] | .caret, [v] | .dollar, [v] => needed v
  | .nextAlternative, [l, _, r] => do
    let l ← needed l
    let r ← needed r
    return .automaton ((← l.toAutomaton e).union (← r.toAutomaton e))
  | .nextConjunct, [l, _, r] => do
    let l ← needed l
    let r ← needed r
    let both := (← l.toAutomaton e).intersectUpTo (← r.toAutomaton e) limit
    return .automaton (← both.mapError .ofBuild)
  | .negated, [_, v] => do
    let v ← needed v
    let others := (← v.toAutomaton e).complementUpTo limit
    return .automaton (← others.mapError .ofBuild)
  | .nextItem, [v, item] => do
    let v ← needed v
    let item ← needed item
    return .automaton (← item.appendTo (← v.toAutomaton e) e)
  | .counted, [item, count] => do
    let item ← needed item
    let count ← needed count
    return .automaton (← repeatOperand limit e item count)
  | .group, [_, v, _] => do
    let v ← needed v
    return .automaton (← v.toAutomaton e)
  | rule, _ => .error (.internal (.shortStack rule))

end PatternAutomata
