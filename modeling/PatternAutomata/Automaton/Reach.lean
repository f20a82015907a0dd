import PatternAutomata.Automaton.Basic

/-!
# Reachable states

`reach` collects what a stack search meets along given edges. From it come the epsilon closure of a
set, the sets after one byte or one anchor, and the growth of a set through anchors.
-/
namespace PatternAutomata

/-- How many numbers below `n` are not in `seen`. It bounds what a search can still meet. -/
def unseen (n : Nat) (seen : StateSet) : Nat := (List.range n).countP (· ∉ seen)

theorem countP_notMem_insert_le (xs : List Nat) (seen : StateSet) (t : Nat) :
    xs.countP (· ∉ seen.insert t) ≤ xs.countP (· ∉ seen) := by
  refine List.countP_mono_left fun i _ => ?_
  simp only [decide_eq_true_eq, Std.ExtTreeSet.mem_insert]
  exact fun h hi => h (.inr hi)

theorem unseen_insert_le (n : Nat) (seen : StateSet) (t : Nat) :
    unseen n (seen.insert t) ≤ unseen n seen := countP_notMem_insert_le _ seen t

theorem unseen_insert_lt {n : Nat} {seen : StateSet} {t : Nat} (h : t < n) (hs : t ∉ seen) :
    unseen n (seen.insert t) < unseen n seen := by
  obtain ⟨l, r, hlr⟩ := List.append_of_mem (List.mem_range.mpr h)
  have hl := countP_notMem_insert_le l seen t
  have hr := countP_notMem_insert_le r seen t
  simp only [unseen, hlr, List.countP_append, List.countP_cons]
  simp [hs] at hl hr ⊢
  omega

/-- Put the targets that are new into `seen`, and those below `n` among them on the stack. -/
def enter (n : Nat) : List Nat → List Nat → StateSet → List Nat × StateSet
  | [], stack, seen => (stack, seen)
  | t :: ts, stack, seen =>
    if t ∈ seen then enter n ts stack seen
    else enter n ts (if t < n then t :: stack else stack) (seen.insert t)

theorem enter_le (n : Nat) (ts stack : List Nat) (seen : StateSet) :
    unseen n (enter n ts stack seen).2 + (enter n ts stack seen).1.length
      ≤ unseen n seen + stack.length := by
  induction ts generalizing stack seen with
  | nil => simp [enter]
  | cons t ts ih =>
    unfold enter
    split
    · exact ih stack seen
    · next hs =>
      refine Nat.le_trans (ih _ _) ?_
      split
      · next hn =>
        have := unseen_insert_lt hn hs
        simp only [List.length_cons]
        omega
      · exact Nat.add_le_add_right (unseen_insert_le n seen t) _

/-- Follow `next` from every number on the stack until nothing new is met. Numbers from `n` on are
collected and not followed. -/
def explore (n : Nat) (next : Nat → List Nat) : List Nat → StateSet → StateSet
  | [], seen => seen
  | id :: stack, seen =>
    let entered := enter n (next id) stack seen
    explore n next entered.1 entered.2
termination_by stack seen => unseen n seen + stack.length
decreasing_by
  have := enter_le n (next id) stack seen
  simp only [List.length_cons]
  omega

/-- Everything met from `seeds` along `next`, the seeds included. -/
def reach (n : Nat) (next : Nat → List Nat) (seeds : StateSet) : StateSet :=
  explore n next seeds.toList seeds

namespace Automaton

/-- The set together with everything its members reach along epsilon edges. -/
def closure (a : Automaton) (set : StateSet) : StateSet := reach a.size a.epsilonsOf set

/-- The targets of all transitions out of `set` whose label satisfies `p`. -/
def follow (a : Automaton) (p : Label → Bool) (set : StateSet) : StateSet :=
  Std.ExtTreeSet.ofList <| set.toList.flatMap fun id =>
    (a.transitionsOf id).filterMap fun t => if p t.label then some t.target else none

/-- The set after reading `b`, before closure. -/
def readByte (a : Automaton) (set : StateSet) (b : UInt8) : StateSet := a.follow (·.reads b) set

/-- The set after crossing an anchor, before closure. -/
def crossAnchor (a : Automaton) (set : StateSet) (m : Anchor) : StateSet :=
  a.follow (· = .anchor m) set

/-- The epsilon edges of state `id` and its transitions over one of the given anchors. -/
def silentOf (a : Automaton) (anchors : List Anchor) (id : Nat) : List Nat :=
  a.epsilonsOf id ++ (a.transitionsOf id).filterMap fun t =>
    match t.label with
    | .anchor m => if m ∈ anchors then some t.target else none
    | .bytes _ _ => none

/-- Grow a set through the given anchors, and through epsilon edges behind them. Epsilon edges of
the set itself are not followed, so the set is usually a closure. -/
def growThrough (a : Automaton) (set : StateSet) (anchors : List Anchor) : StateSet :=
  let crossed := a.follow (fun l => anchors.any fun m => l = .anchor m) set
  if crossed.isEmpty then set else set ∪ reach a.size (a.silentOf anchors) crossed

theorem mem_follow {a : Automaton} {p : Label → Bool} {set : StateSet} {id : Nat} :
    id ∈ a.follow p set ↔ ∃ s ∈ set, ∃ t ∈ a.transitionsOf s, p t.label = true ∧ t.target = id := by
  simp [follow]

theorem mem_readByte {a : Automaton} {set : StateSet} {b : UInt8} {id : Nat} :
    id ∈ a.readByte set b ↔
      ∃ s ∈ set, ∃ t ∈ a.transitionsOf s, t.label.reads b = true ∧ t.target = id := mem_follow

theorem mem_crossAnchor {a : Automaton} {set : StateSet} {m : Anchor} {id : Nat} :
    id ∈ a.crossAnchor set m ↔
      ∃ s ∈ set, ∃ t ∈ a.transitionsOf s, t.label = .anchor m ∧ t.target = id := by
  simp [crossAnchor, mem_follow]

end Automaton

end PatternAutomata
