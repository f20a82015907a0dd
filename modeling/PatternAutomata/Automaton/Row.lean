import PatternAutomata.Automaton.Basic

/-!
# Rows

A row of a deterministic automaton gives one target for each of the 256 bytes. It is written as
transitions on the longest ranges of bytes that share a target, and read back from them.
-/
namespace PatternAutomata

/-- The number of bytes. -/
def byteCount : Nat := 256

/-- All bytes, ascending. -/
def allBytes : List UInt8 := (List.range byteCount).map UInt8.ofNat

section
variable {α : Type} [DecidableEq α]

/-- Put an element in front of a list in run-length form. -/
def consRun (x : α) : List (α × Nat) → List (α × Nat)
  | [] => [(x, 1)]
  | (y, n) :: rs => if x = y then (y, n + 1) :: rs else (x, 1) :: (y, n) :: rs

/-- A list in run-length form: its elements with the number of times each stands in a row. -/
def runsOf (xs : List α) : List (α × Nat) := xs.foldr consRun []

/-- The list that a run-length form stands for. -/
def expandRuns (rs : List (α × Nat)) : List α := rs.flatMap fun r => List.replicate r.2 r.1

@[simp] theorem expandRuns_consRun (x : α) (rs : List (α × Nat)) :
    expandRuns (consRun x rs) = x :: expandRuns rs := by
  cases rs with
  | nil => rfl
  | cons r rs =>
    obtain ⟨y, n⟩ := r
    by_cases h : x = y <;> simp [consRun, h, expandRuns, List.replicate_succ]

@[simp] theorem expandRuns_runsOf (xs : List α) : expandRuns (runsOf xs) = xs := by
  induction xs with
  | nil => rfl
  | cons x xs ih =>
    change expandRuns (consRun x (runsOf xs)) = _
    rw [expandRuns_consRun, ih]

end

/-- The transitions of runs that begin at byte number `first`. -/
def transitionsFrom (first : Nat) : List (Nat × Nat) → List Transition
  | [] => []
  | (target, n) :: rs =>
    ⟨.bytes (UInt8.ofNat first) (UInt8.ofNat (first + n - 1)), target⟩ ::
      transitionsFrom (first + n) rs

/-- The transitions that write a row, one for each run of bytes with the same target. -/
def rowTransitions (row : List Nat) : List Transition := transitionsFrom 0 (runsOf row)

/-- The target of a byte: that of the last transition that reads it, 0 when none does. -/
def targetOn (transitions : List Transition) (b : UInt8) : Nat :=
  match transitions.reverse.find? (·.label.reads b) with
  | some t => t.target
  | none => 0

/-- The row that a state's transitions stand for. -/
def rowOf (transitions : List Transition) : List Nat := allBytes.map (targetOn transitions)

/-- The rows of all states. -/
def Automaton.rowTable (a : Automaton) : Array (List Nat) :=
  a.states.map fun s => rowOf s.transitions

end PatternAutomata
