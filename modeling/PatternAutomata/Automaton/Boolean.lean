import PatternAutomata.Automaton.Pruning
import PatternAutomata.Automaton.Subset

/-!
# Complement and intersection

Both work on deterministic automata: the complement flips their acceptance, the intersection pairs
their states.
-/
namespace PatternAutomata.Automaton

/-- Flip the acceptance of every state. -/
def flip (a : Automaton) : Automaton :=
  { a with
    accepting := Std.ExtTreeSet.ofList
      ((List.range a.size).filter fun i => !a.accepting.contains i) }

/-- Accepts the byte strings that `a` does not accept. -/
def complementUpTo (a : Automaton) (limit : Nat) : Except BuildError Automaton :=
  (a.determinizeUpTo limit).map flip

/-- Put the complement in the place of `a`. Where the budget does not suffice, `a` stays. -/
def complementInPlace (a : Automaton) (limit : Nat) : Except BuildError Unit × Automaton :=
  match a.complementUpTo limit with
  | .ok d => (.ok (), d)
  | .error err => (.error err, a)

/-- Accepts the byte strings that `a` does not accept, without a budget. -/
def complement (a : Automaton) : Automaton := a.determinize.flip

/-- Pairs of states of two deterministic automata. A pair accepts when both members do. -/
def pairs (a b : Automaton) : KeySpace (Nat × Nat) :=
  let left := a.rowTable
  let right := b.rowTable
  { code := fun k => [k.1, k.2]
    row := fun k => runsOf ((left[k.1]?.getD []).zip (right[k.2]?.getD []))
    dangling := fun _ => false
    verdict := fun k => some (a.accepting.contains k.1 && b.accepting.contains k.2) }

/-- The product of two deterministic automata. -/
def productUpTo (a b : Automaton) (limit : Nat) : Except BuildError Automaton :=
  let first := (a.start, b.start)
  let verdict := a.accepting.contains a.start && b.accepting.contains b.start
  let space := pairs a b
  Numbering.run space limit ⟨#[(first, verdict)], Std.TreeMap.ofList [(space.code first, 0)]⟩

/-- Accepts what both `a` and `b` accept, unless one of the deterministic automata on the way has
more than `limit` states. -/
def intersectUpTo (a b : Automaton) (limit : Nat) : Except BuildError Automaton :=
  match a.determinizeUpTo limit with
  | .error e => .error e
  | .ok da =>
    match b.determinizeUpTo limit with
    | .error e => .error e
    | .ok db => (productUpTo da db limit).map prune

/-- More states than any automaton on the way to an intersection can need. -/
def productBound (a b : Automaton) : Nat := a.subsetBound * b.subsetBound

/-- Accepts what both `a` and `b` accept. -/
def intersect (a b : Automaton) : Automaton :=
  match a.intersectUpTo b (a.productBound b) with
  | .ok d => d
  | .error _ => nothing

end PatternAutomata.Automaton
