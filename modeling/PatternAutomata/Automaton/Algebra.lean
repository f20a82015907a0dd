import PatternAutomata.Automaton.Basic

/-!
# Union, concatenation and closure

The operands' tables are copied side by side and joined by epsilon edges; numbers of the later
operand move up by the size of what stands before it.
-/
namespace PatternAutomata

/-- The set with every number moved up by `offset`. -/
def StateSet.shift (offset : Nat) (set : StateSet) : StateSet :=
  Std.ExtTreeSet.ofList (set.toList.map (· + offset))

@[simp] theorem StateSet.mem_shift {offset : Nat} {set : StateSet} {id : Nat} :
    id ∈ set.shift offset ↔ ∃ i ∈ set, i + offset = id := by
  simp [StateSet.shift]

namespace Automaton

/-- Add an epsilon edge to `target` out of every state listed. -/
def addEpsilons (a : Automaton) (sources : List Nat) (target : Nat) : Automaton :=
  sources.foldl (fun a id => a.addEpsilon id target) a

@[simp] theorem size_addEpsilons (a : Automaton) (sources : List Nat) (target : Nat) :
    (a.addEpsilons sources target).size = a.size := by
  induction sources generalizing a with
  | nil => rfl
  | cons s ss ih => exact (ih (a.addEpsilon s target)).trans (size_addEpsilon a s target)

/-- Accepts what `a` or `b` accepts. State 0 is new and leads to both starts. -/
def union (a b : Automaton) : Automaton where
  states :=
    #[(({} : State).addEpsilon (a.start + 1)).addEpsilon (b.start + (1 + a.size))]
      ++ a.states.map (·.shift 1) ++ b.states.map (·.shift (1 + a.size))
  start := 0
  accepting := a.accepting.shift 1 ∪ b.accepting.shift (1 + a.size)

/-- Accepts a text of `a` followed by a text of `b`. The accepting states of `a` lead to the start
of `b` and accept no longer. -/
def concat : Automaton → Automaton → Automaton
  | ⟨states, start, accepting⟩, b =>
    let offset := states.size
    let joined : Automaton :=
      ⟨states ++ b.states.map (·.shift offset), start, b.accepting.shift offset⟩
    joined.addEpsilons accepting.toList (b.start + offset)

/-- Accepts any number of texts of `a` in a row, none included. A new state, start and accepting at
once, leads to the old start, and the accepting states lead back to it. -/
def star (a : Automaton) : Automaton :=
  let hub := a.size
  let looped := (a.newState.addEpsilon hub a.start).addEpsilons a.accepting.toList hub
  (looped.markAccepting hub true).startAt hub

/-- Accepts exactly `n` texts of `a` in a row. -/
def power (a : Automaton) (n : Nat) : Automaton :=
  (List.replicate n a).foldl concat emptyText

/-- Accepts what `a` accepts, and the empty text. -/
def optional (a : Automaton) : Automaton := a.union emptyText

@[simp] theorem size_union (a b : Automaton) : (a.union b).size = 1 + a.size + b.size := by
  simp [union, size]; omega

@[simp] theorem size_concat (a b : Automaton) : (a.concat b).size = a.size + b.size := by
  obtain ⟨states, start, accepting⟩ := a
  simp only [concat, size_addEpsilons]
  simp [size]

@[simp] theorem size_star (a : Automaton) : a.star.size = a.size + 1 := by
  simp [star]

@[simp] theorem size_power (a : Automaton) (n : Nat) : (a.power n).size = 1 + n * a.size := by
  have h (acc : Automaton) :
      ((List.replicate n a).foldl concat acc).size = acc.size + n * a.size := by
    induction n generalizing acc with
    | zero => simp
    | succ n ih => simp [List.replicate_succ, ih, Nat.succ_mul]; omega
  exact h emptyText

@[simp] theorem size_optional (a : Automaton) : a.optional.size = a.size + 2 := by
  simp only [optional, size_union]
  simp [emptyText, size]; omega

end Automaton

end PatternAutomata
