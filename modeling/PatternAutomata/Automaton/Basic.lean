import Std.Data.ExtTreeSet
import PatternAutomata.Automaton.Label

/-!
# Finite automata over bytes and anchors

An automaton is a table of numbered states, a start number and a set of accepting numbers. A
number need not belong to a state: targets, the start and accepting numbers past the end of the
table are kept as they are, and `WellFormed` says that there are none.
-/
namespace PatternAutomata

/-- A finite set of state numbers. Two sets with the same members are equal. -/
abbrev StateSet := Std.ExtTreeSet Nat

/-- A labelled edge to a state. -/
structure Transition where
  label : Label
  target : Nat
deriving DecidableEq, Repr

/-- A state: its labelled transitions and its epsilon edges, both in the order of their making. -/
structure State where
  transitions : List Transition := []
  epsilons : List Nat := []
deriving DecidableEq, Repr

namespace State

/-- The state with one more transition, at the end. -/
def addEdge (s : State) (label : Label) (target : Nat) : State :=
  { s with transitions := s.transitions ++ [⟨label, target⟩] }

/-- The state with an epsilon edge to `target`, which is never listed twice. -/
def addEpsilon (s : State) (target : Nat) : State :=
  if target ∈ s.epsilons then s else { s with epsilons := s.epsilons ++ [target] }

/-- The state with every target moved up by `offset`. -/
def shift (offset : Nat) (s : State) : State where
  transitions := s.transitions.map fun t => { t with target := t.target + offset }
  epsilons := s.epsilons.map (· + offset)

/-- The targets of all edges, labelled ones first. -/
def targets (s : State) : List Nat := s.transitions.map (·.target) ++ s.epsilons

theorem mem_epsilons_addEpsilon {s : State} {t u : Nat} :
    u ∈ (s.addEpsilon t).epsilons ↔ u ∈ s.epsilons ∨ u = t := by
  unfold addEpsilon
  split
  · next h => exact ⟨.inl, fun h' => h'.elim id fun e => e ▸ h⟩
  · simp

@[simp] theorem transitions_addEpsilon (s : State) (t : Nat) :
    (s.addEpsilon t).transitions = s.transitions := by
  unfold addEpsilon; split <;> rfl

@[simp] theorem epsilons_addEdge (s : State) (l : Label) (t : Nat) :
    (s.addEdge l t).epsilons = s.epsilons := rfl

end State

/-- A nondeterministic automaton with epsilon edges and anchors. -/
structure Automaton where
  states : Array State
  start : Nat
  accepting : StateSet
deriving DecidableEq

namespace Automaton

/-- The number of states. -/
def size (a : Automaton) : Nat := a.states.size

/-- The automaton that accepts nothing: one state without edges. -/
def nothing : Automaton := ⟨#[{}], 0, ∅⟩

/-- The automaton that accepts exactly the empty text. -/
def emptyText : Automaton := ⟨#[{}], 0, {0}⟩

/-- The automaton with one more state; its number is the former `size`. -/
def newState (a : Automaton) : Automaton := { a with states := a.states.push {} }

/-- Add a labelled transition out of state `source`; without that state nothing changes. -/
def addEdge (a : Automaton) (source : Nat) (label : Label) (target : Nat) : Automaton :=
  { a with states := a.states.modify source (·.addEdge label target) }

/-- Add an epsilon edge out of state `source`; without that state nothing changes. -/
def addEpsilon (a : Automaton) (source target : Nat) : Automaton :=
  { a with states := a.states.modify source (·.addEpsilon target) }

/-- Choose another start. -/
def startAt (a : Automaton) (id : Nat) : Automaton := { a with start := id }

/-- Put a number among the accepting ones, or take it out. -/
def markAccepting (a : Automaton) (id : Nat) (on : Bool) : Automaton :=
  { a with accepting := if on then a.accepting.insert id else a.accepting.erase id }

/-- The labelled transitions of state `id`, none when there is no such state. -/
def transitionsOf (a : Automaton) (id : Nat) : List Transition :=
  match a.states[id]? with
  | some s => s.transitions
  | none => []

/-- The epsilon edges of state `id`, none when there is no such state. -/
def epsilonsOf (a : Automaton) (id : Nat) : List Nat :=
  match a.states[id]? with
  | some s => s.epsilons
  | none => []

/-- All edges of state `id`, none when there is no such state. -/
def targetsOf (a : Automaton) (id : Nat) : List Nat :=
  match a.states[id]? with
  | some s => s.targets
  | none => []

/-- Whether some state has an epsilon edge. -/
def usesEpsilons (a : Automaton) : Bool := a.states.any fun s => !s.epsilons.isEmpty

/-- Whether a member of `set` is accepting. -/
def meetsAccepting (a : Automaton) (set : StateSet) : Bool :=
  set.toList.any (a.accepting.contains ·)

/-- The start, every target and every accepting number belong to a state. -/
def WellFormed (a : Automaton) : Prop :=
  a.start < a.size ∧ (∀ s ∈ a.states.toList, ∀ t ∈ s.targets, t < a.size) ∧
    ∀ id ∈ a.accepting.toList, id < a.size

instance (a : Automaton) : Decidable a.WellFormed :=
  inferInstanceAs (Decidable (_ ∧ _ ∧ _))

@[simp] theorem meetsAccepting_eq_true {a : Automaton} {set : StateSet} :
    a.meetsAccepting set = true ↔ ∃ id ∈ set, id ∈ a.accepting := by
  simp [meetsAccepting]

@[simp] theorem size_newState (a : Automaton) : a.newState.size = a.size + 1 := by
  simp [newState, size]

@[simp] theorem size_addEdge (a : Automaton) (i : Nat) (l : Label) (t : Nat) :
    (a.addEdge i l t).size = a.size := by simp [addEdge, size]

@[simp] theorem size_addEpsilon (a : Automaton) (i t : Nat) : (a.addEpsilon i t).size = a.size := by
  simp [addEpsilon, size]

@[simp] theorem size_startAt (a : Automaton) (i : Nat) : (a.startAt i).size = a.size := rfl

@[simp] theorem size_markAccepting (a : Automaton) (i : Nat) (on : Bool) :
    (a.markAccepting i on).size = a.size := rfl

end Automaton

end PatternAutomata
