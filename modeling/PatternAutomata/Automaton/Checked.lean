import PatternAutomata.Automaton.Boolean
import PatternAutomata.Automaton.Literal
import PatternAutomata.Automaton.Repetition

/-!
# Operations on automata with loose ends

A number that belongs to no state is harmless until something is looked up under it. Each operation
here answers as its namesake without the question mark, except that it gives nothing when it would
have to look at a state that does not exist. On well-formed automata the two agree.
-/
namespace PatternAutomata.Automaton

/-- A transition starts at a state. -/
def addEdge? (a : Automaton) (source : Nat) (label : Label) (target : Nat) :
    Option Automaton :=
  if source < a.size then some (a.addEdge source label target) else none

/-- An epsilon edge starts at a state. -/
def addEpsilon? (a : Automaton) (source target : Nat) : Option Automaton :=
  if source < a.size then some (a.addEpsilon source target) else none

/-- Closing a set looks at all members of the closure. -/
def closure? (a : Automaton) (set : StateSet) : Option StateSet :=
  let closed := a.closure set
  if a.leaves closed then none else some closed

/-- Reading a byte looks at all members of the set. -/
def readByte? (a : Automaton) (set : StateSet) (b : UInt8) : Option StateSet :=
  if a.leaves set then none else some (a.readByte set b)

/-- Crossing an anchor looks at all members of the set. -/
def crossAnchor? (a : Automaton) (set : StateSet) (m : Anchor) : Option StateSet :=
  if a.leaves set then none else some (a.crossAnchor set m)

/-- Growing a set looks at all members of the result, unless no anchor is given. -/
def growThrough? (a : Automaton) (set : StateSet) (anchors : List Anchor) : Option StateSet :=
  let grown := a.growThrough set anchors
  if !anchors.isEmpty && a.leaves grown then none else some grown

/-- Reading a text looks at the members of every set on the way. -/
def accepts? (a : Automaton) (text : List UInt8) : Option Bool := do
  let closed ← a.closure? {a.start}
  let first ← a.growThrough? closed (openingAnchors text)
  let last ← text.foldlM (fun set b => (a.readByte? set b).bind a.closure?) first
  let crossed ← a.growThrough? last [.textEnd]
  return a.meetsAccepting crossed

/-- Concatenation looks at the accepting states of `a` once the tables are joined. -/
def concat? (a b : Automaton) : Option Automaton :=
  if a.accepting.toList.all (· < a.size + b.size) then some (a.concat b) else none

/-- The closure looks at the accepting states once the hub is there. -/
def star? (a : Automaton) : Option Automaton :=
  if a.accepting.toList.all (· < a.size + 1) then some a.star else none

/-- A power looks at what its concatenations look at. -/
def power? (a : Automaton) (n : Nat) : Option Automaton :=
  (List.replicate n a).foldlM concat? emptyText

/-- A bounded repetition looks at what the operations on its way look at. -/
def repeatBetween? (a : Automaton) (least : Nat) (most : Bound) : Option Automaton :=
  match least, most with
  | 0, .finite 1 => some a.optional
  | 0, .infinity => a.star?
  | 1, .infinity => do a.concat? (← a.star?)
  | m, .infinity => do (← a.power? m).concat? (← a.star?)
  | m, .finite n => do
    let required ← a.power? m
    if n = m then return required
    required.concat? (← a.optional.power? (n - m))

/-- Pruning looks at every state and every number. -/
def prune? (a : Automaton) : Option Automaton :=
  if a.WellFormed then some a.prune else none

end PatternAutomata.Automaton
