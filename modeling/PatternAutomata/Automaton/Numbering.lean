import Std.Data.TreeMap
import PatternAutomata.Automaton.Row

/-!
# Numbering a deterministic automaton

A deterministic automaton is first met as a space of keys, such as sets of states or pairs of
states, with a row of successor keys each. Numbering walks such a space breadth first from one key,
bytes ascending, gives every new key the next number, and stops when a budget of states is spent.
-/
namespace PatternAutomata

/-- Why a construction was given up. -/
inductive BuildError where
  /-- The result would have more states than the budget allows. -/
  | tooManyStates (limit : Nat)
  /-- The construction had to look at a state that does not exist. -/
  | missingState
deriving DecidableEq, Repr

/-- The wording of a construction error. -/
def BuildError.message : BuildError → String
  | .tooManyStates limit => "automaton exceeds the limit of " ++ toString limit ++ " states"
  | .missingState => "automaton refers to a state that does not exist"

/-- The keys of a deterministic automaton. -/
structure KeySpace (κ : Type) where
  /-- Tells keys apart. -/
  code : κ → List Nat
  /-- The successor keys of the 256 bytes in run-length form. -/
  row : κ → List (κ × Nat)
  /-- Whether the key refers to states that do not exist. -/
  dangling : κ → Bool
  /-- Whether the key accepts; nothing when that depends on states that do not exist. -/
  verdict : κ → Option Bool

/-- The keys numbered so far with their verdicts, and the numbers by which to recognize them. -/
structure Numbering (κ : Type) where
  keys : Array (κ × Bool)
  numbers : Std.TreeMap (List Nat) Nat

namespace Numbering
variable {κ : Type}

/-- The number of a key; a new key gets the next one if the budget allows. -/
def visit (space : KeySpace κ) (limit : Nat) (s : Numbering κ) (key : κ) :
    Except BuildError (Nat × Numbering κ) :=
  if space.dangling key then .error .missingState
  else
    let code := space.code key
    match s.numbers[code]? with
    | some number => .ok (number, s)
    | none =>
      if limit ≤ s.keys.size then .error (.tooManyStates limit)
      else
        match space.verdict key with
        | none => .error .missingState
        | some verdict =>
          let number := s.keys.size
          .ok (number, ⟨s.keys.push (key, verdict), s.numbers.insert code number⟩)

/-- The numbers of a row of keys, first to last. -/
def visitRow (space : KeySpace κ) (limit : Nat) :
    List (κ × Nat) → Numbering κ → Except BuildError (List (Nat × Nat) × Numbering κ)
  | [], s => .ok ([], s)
  | (key, n) :: row, s =>
    match s.visit space limit key with
    | .error e => .error e
    | .ok (number, s) =>
      match visitRow space limit row s with
      | .error e => .error e
      | .ok (numbers, s) => .ok ((number, n) :: numbers, s)

theorem size_visit {space : KeySpace κ} {limit : Nat} {s s' : Numbering κ} {key : κ} {number : Nat}
    (h : s.visit space limit key = .ok (number, s')) :
    max limit s'.keys.size = max limit s.keys.size := by
  unfold visit at h
  split at h
  · simp at h
  · dsimp only at h
    split at h
    · obtain ⟨-, rfl⟩ := Prod.mk.inj (Except.ok.inj h); rfl
    · split at h
      · simp at h
      · split at h
        · simp at h
        · obtain ⟨-, rfl⟩ := Prod.mk.inj (Except.ok.inj h)
          simp only [Array.size_push]
          omega

theorem size_visitRow {space : KeySpace κ} {limit : Nat} {row : List (κ × Nat)}
    {s s' : Numbering κ} {numbers : List (Nat × Nat)}
    (h : visitRow space limit row s = .ok (numbers, s')) :
    max limit s'.keys.size = max limit s.keys.size := by
  induction row generalizing s s' numbers with
  | nil => obtain ⟨-, rfl⟩ := Prod.mk.inj (Except.ok.inj h); rfl
  | cons k row ih =>
    obtain ⟨key, n⟩ := k
    simp only [visitRow] at h
    split at h
    · simp at h
    · next number s₁ h₁ =>
      split at h
      · simp at h
      · next ns s₂ h₂ =>
        obtain ⟨-, rfl⟩ := Prod.mk.inj (Except.ok.inj h)
        exact (ih h₂).trans (size_visit h₁)

/-- Write the rows of all keys from number `i` on, those found on the way included. -/
def writeRows (space : KeySpace κ) (limit : Nat) (i : Nat) (s : Numbering κ)
    (states : Array State) : Except BuildError (Array (κ × Bool) × Array State) :=
  if h : i < s.keys.size then
    match hs : visitRow space limit (space.row s.keys[i].1) s with
    | .error e => .error e
    | .ok (row, s') =>
      writeRows space limit (i + 1) s'
        (states.push { transitions := rowTransitions (expandRuns row) })
  else .ok (s.keys, states)
termination_by max limit s.keys.size - i
decreasing_by
  have := size_visitRow hs
  omega

/-- The automaton of a numbering: state 0 is the start, and verdicts decide acceptance. -/
def toAutomaton (keys : Array (κ × Bool)) (states : Array State) : Automaton where
  states := states
  start := 0
  accepting := Std.ExtTreeSet.ofList <|
    (List.range keys.size).filter fun i => (keys[i]?.map (·.2)).getD false

/-- The deterministic automaton of a key space from `start` on. -/
def run (space : KeySpace κ) (limit : Nat) (start : Numbering κ) : Except BuildError Automaton :=
  match writeRows space limit 0 start #[] with
  | .error e => .error e
  | .ok (keys, states) => .ok (toAutomaton keys states)

end Numbering

end PatternAutomata
