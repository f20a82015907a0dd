import PatternAutomata.Automaton.Acceptance
import PatternAutomata.Automaton.Numbering

/-!
# Subset construction

The deterministic automaton whose states stand for sets of states. Anchors are resolved against the
boundaries of the text, so the result reads bytes only: anchors at the start are crossed before the
first byte, anchors at the end when acceptance is decided.
-/
namespace PatternAutomata.Automaton

/-- Whether the set has a member that is no state. -/
def leaves (a : Automaton) (set : StateSet) : Bool := set.toList.any (a.size ≤ ·)

/-- The byte numbers at which the successors of a set may change, ascending. -/
def cuts (a : Automaton) (set : StateSet) : List Nat :=
  let bounds := set.toList.flatMap fun id =>
    (a.transitionsOf id).flatMap fun t =>
      match t.label with
      | .bytes lo hi => [lo.toNat, hi.toNat + 1]
      | .anchor _ => []
  (Std.ExtTreeSet.ofList bounds).toList.filter fun c => 0 < c && c < byteCount

/-- The stretches of bytes between cuts, as first byte and length. -/
def stretches (first : Nat) : List Nat → List (Nat × Nat)
  | [] => [(first, byteCount - first)]
  | c :: cs => (first, c - first) :: stretches c cs

/-- The successors of a set on all bytes, computed once for each stretch. -/
def successorRow (a : Automaton) (set : StateSet) : List (StateSet × Nat) :=
  (stretches 0 (a.cuts set)).map fun s => (a.advance set (UInt8.ofNat s.1), s.2)

/-- Whether a set accepts where the text ends; nothing when that meets a missing state. -/
def verdictAtEnd (a : Automaton) (set : StateSet) : Option Bool :=
  let crossed := a.growThrough set [.textEnd]
  if a.leaves crossed then none else some (a.meetsAccepting crossed)

/-- Sets of states with their successors. -/
def subsets (a : Automaton) : KeySpace StateSet where
  code := fun set => set.toList
  row := a.successorRow
  dangling := a.leaves
  verdict := a.verdictAtEnd

/-- The deterministic automaton for the texts of `a`, unless it has more than `limit` states.

The start stands apart from every other state, even one with the same set: on the empty text both
kinds of anchors apply to it. -/
def determinizeUpTo (a : Automaton) (limit : Nat) : Except BuildError Automaton :=
  let first := a.initial [.textStart]
  let onEmpty := a.growThrough first [.textStart, .textEnd]
  if a.leaves onEmpty then .error .missingState
  else Numbering.run a.subsets limit ⟨#[(first, a.meetsAccepting onEmpty)], ∅⟩

/-- More states than the subset construction can need: one for each set, and the start. -/
def subsetBound (a : Automaton) : Nat := Nat.pow 2 a.size + 1

/-- The deterministic automaton for the texts of `a`. -/
def determinize (a : Automaton) : Automaton :=
  match a.determinizeUpTo a.subsetBound with
  | .ok d => d
  | .error _ => nothing

end PatternAutomata.Automaton
