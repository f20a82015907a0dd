import PatternAutomata.Parser.Operand
import PatternAutomata.Text.Quoted

/-!
# Operands in detail

An operand that stands where something else is needed is written out in full, every part of it with
its name.
-/
namespace PatternAutomata

namespace Text

/-- A character in single quotation marks. A double mark shows there as it is, a single one does
not. -/
def quoteSingle (c : Char) : String :=
  let shown := if c = '\x27' then ['\\', '\x27'] else if c = '\x22' then [c] else quoteChar c
  String.ofList ('\x27' :: shown ++ ['\x27'])

/-- A list of details, in order. -/
def listDetail (items : List String) : String := "[" ++ ", ".intercalate items ++ "]"

/-- A set of details, in the order given. -/
def setDetail (items : List String) : String := "\x7b" ++ ", ".intercalate items ++ "\x7d"

/-- A name, and behind it what it is applied to. -/
def applicationDetail (name argument : String) : String := name ++ "(" ++ argument ++ ")"

/-- A name, and behind it the fields with their names. -/
def recordDetail (name : String) (fields : List (String × String)) : String :=
  let parts := fields.map fun (field, value) => field ++ ": " ++ value
  name ++ " \x7b " ++ ", ".intercalate parts ++ " \x7d"

end Text

open Text

/-- An anchor by its name. -/
def Anchor.detail : Anchor → String
  | .textStart => "Begin"
  | .textEnd => "End"

/-- A label in detail. -/
def Label.detail : Label → String
  | .bytes lo hi => recordDetail "Range" [("start", toString lo.toNat), ("end", toString hi.toNat)]
  | .anchor a => applicationDetail "Mark" a.detail

/-- A transition in detail. -/
def Transition.detail (t : Transition) : String :=
  recordDetail "Transition" [("label", t.label.detail), ("target", toString t.target)]

/-- A state in detail. -/
def State.detail (s : State) : String :=
  recordDetail "State" [("transitions", listDetail (s.transitions.map (·.detail))),
    ("epsilons", listDetail (s.epsilons.map toString))]

/-- An automaton in detail. Its accepting numbers are listed in ascending order, though any order
would do. -/
def Automaton.detail (a : Automaton) : String :=
  recordDetail "Fsm" [("states", listDetail (a.states.toList.map (·.detail))),
    ("start", toString a.start), ("accepting", setDetail (a.accepting.toList.map toString))]

/-- A bound in detail. -/
def Bound.detail : Bound → String
  | .finite n => applicationDetail "Finite" (toString n)
  | .infinity => "Infinity"

/-- A term in detail. -/
def Term.detail : Term → String
  | .choice alternatives negated =>
    recordDetail "CharacterRange"
      [("alternatives", setDetail (alternatives.toList.map fun text =>
          listDetail (text.map quoteSingle))),
        ("negated", toString negated)]
  | .dot => "Dot"
  | .anchor a => a.detail
  | .count least most =>
    recordDetail "RepetitionCount" [("min", toString least), ("max", most.detail)]

/-- An operand in detail. -/
def Operand.detail : Operand → String
  | .term t => applicationDetail "Term" t.detail
  | .automaton a => applicationDetail "Automaton" a.detail

example : (Operand.automaton .emptyText).detail =
    "Automaton(Fsm \x7b states: [State \x7b transitions: [], epsilons: [] \x7d], start: 0, " ++
      "accepting: \x7b0\x7d \x7d)" := by decide +kernel

end PatternAutomata
