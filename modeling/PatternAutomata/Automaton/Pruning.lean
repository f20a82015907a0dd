import Std.Data.TreeMap
import PatternAutomata.Automaton.Reach

/-!
# Pruning

A state is useful when it lies on a way from the start to an accepting state. Pruning keeps the
useful states in their order and closes the gaps in their numbers.
-/
namespace PatternAutomata

/-- The state with its targets renumbered. An edge whose target gets no number goes. -/
def State.renumber (number : Nat → Option Nat) (s : State) : State where
  transitions := s.transitions.filterMap fun t => (number t.target).map (⟨t.label, ·⟩)
  epsilons := s.epsilons.filterMap number

namespace Automaton

/-- For every state, the states with an edge to it. -/
def predecessors (a : Automaton) : Array (List Nat) :=
  (List.range a.size).foldl
    (fun table id => (a.targetsOf id).foldl (fun table t => table.modify t (id :: ·)) table)
    (Array.replicate a.size [])

/-- The states that the start reaches. -/
def reachable (a : Automaton) : StateSet := reach a.size a.targetsOf {a.start}

/-- The states that reach an accepting one. -/
def live (a : Automaton) : StateSet :=
  let table := a.predecessors
  reach a.size (fun id => table[id]?.getD []) a.accepting

/-- The numbers of the useful states, ascending. -/
def usefulStates (a : Automaton) : List Nat :=
  let forward := a.reachable
  let backward := a.live
  (List.range a.size).filter fun id => forward.contains id && backward.contains id

/-- Keep the listed states, numbered by their places in the list. -/
def restrict (a : Automaton) (kept : List Nat) (start : Nat) : Automaton :=
  let numbers := Std.TreeMap.ofList kept.zipIdx
  { states := (kept.filterMap (a.states[·]?)).toArray.map (·.renumber (numbers[·]?))
    start := start
    accepting := Std.ExtTreeSet.ofList (a.accepting.toList.filterMap (numbers[·]?)) }

/-- Drop every state that is not useful. When the start is none of the useful ones, nothing is
accepted and `nothing` remains. -/
def prune (a : Automaton) : Automaton :=
  let kept := a.usefulStates
  match kept.idxOf? a.start with
  | some start => a.restrict kept start
  | none => nothing

end Automaton

end PatternAutomata
