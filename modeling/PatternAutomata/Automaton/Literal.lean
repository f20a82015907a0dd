import PatternAutomata.Automaton.Algebra

/-!
# Literal pieces

Small automata that stand for given texts: a trie of byte strings, a choice between sequences of
byte ranges, a single anchor.
-/
namespace PatternAutomata

/-- A finite set of byte strings, in lexicographic order. -/
abbrev ByteStrings := Std.ExtTreeSet (List UInt8)

namespace Automaton

/-- The first state reached from `id` by a transition on exactly `b`. -/
def child? (a : Automaton) (id : Nat) (b : UInt8) : Option Nat :=
  ((a.transitionsOf id).find? (·.label.isByte b)).map (·.target)

/-- Follow a string from state `id`, with a new state wherever no transition on the next byte
exists. The second component is the state at its end. -/
def spell (a : Automaton) (id : Nat) : List UInt8 → Automaton × Nat
  | [] => (a, id)
  | b :: bs =>
    match a.child? id b with
    | some next => a.spell next bs
    | none =>
      let next := a.size
      (a.newState.addEdge id (.byte b) next).spell next bs

/-- Accept one more string, spelled from the start. -/
def addString (a : Automaton) (string : List UInt8) : Automaton :=
  let spelled := a.spell 0 string
  spelled.1.markAccepting spelled.2 true

/-- The trie of the strings: common beginnings share their states. -/
def trie (strings : ByteStrings) : Automaton := strings.toList.foldl addString nothing

/-- A path of byte ranges from state `id` to state 1. -/
def addRanges (a : Automaton) (id : Nat) : List (UInt8 × UInt8) → Automaton
  | [] => a.addEpsilon id 1
  | [(lo, hi)] => a.addEdge id (.bytes lo hi) 1
  | (lo, hi) :: ranges =>
    let next := a.size
    (a.newState.addEdge id (.bytes lo hi) next).addRanges next ranges

/-- Accepts the texts of one of the sequences: one byte for each range, in order. State 0 is the
start, and state 1 the end that all sequences share. -/
def choice (sequences : List (List (UInt8 × UInt8))) : Automaton :=
  sequences.foldl (fun a ranges => a.addRanges 0 ranges) ⟨#[{}, {}], 0, {1}⟩

/-- Crosses one anchor. -/
def crossing (m : Anchor) : Automaton :=
  ⟨#[{ transitions := [⟨.anchor m, 1⟩] }, {}], 0, {1}⟩

/-- Concatenate the choice between the strings. No string at all makes the result accept nothing. -/
def appendTrie (a : Automaton) (strings : ByteStrings) : Automaton := a.concat (trie strings)

/-- Concatenate the choice between the byte-range sequences. -/
def appendChoice (a : Automaton) (sequences : List (List (UInt8 × UInt8))) : Automaton :=
  a.concat (choice sequences)

/-- Concatenate an anchor. -/
def appendAnchor (a : Automaton) (m : Anchor) : Automaton := a.concat (crossing m)

end Automaton

end PatternAutomata
