import PatternAutomata.Automaton.Reach

/-!
# Acceptance

Whole texts only: anchors at the start of the text are crossed before its first byte, anchors at
the end after its last, and on the empty text both are crossed in any order.
-/
namespace PatternAutomata.Automaton

/-- The states in which reading begins. -/
def initial (a : Automaton) (anchors : List Anchor) : StateSet :=
  a.growThrough (a.closure {a.start}) anchors

/-- The anchors that may be crossed before a text is read. -/
def openingAnchors (text : List UInt8) : List Anchor :=
  if text.isEmpty then [.textStart, .textEnd] else [.textStart]

/-- The closed set after reading `b`. -/
def advance (a : Automaton) (set : StateSet) (b : UInt8) : StateSet :=
  a.closure (a.readByte set b)

/-- Whether a set that has read the whole text accepts it. -/
def acceptsAtEnd (a : Automaton) (set : StateSet) : Bool :=
  a.meetsAccepting (a.growThrough set [.textEnd])

/-- Whether the automaton accepts the whole text. -/
def accepts (a : Automaton) (text : List UInt8) : Bool :=
  a.acceptsAtEnd (text.foldl a.advance (a.initial (openingAnchors text)))

end PatternAutomata.Automaton
