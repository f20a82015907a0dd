import PatternAutomata.Proofs.Automaton.Lookup
import PatternAutomata.Proofs.Automaton.Representation

/-!
# Rows written byte by byte

A row can be written by a walk over the byte numbers that goes one step past the last byte. The walk
keeps the number at which the run in hand begins, and where the run ends it adds one transition.
What it adds to a state are the transitions of the runs.
-/
namespace PatternAutomata

section
variable {α : Type} [DecidableEq α] {x : α} {xs : List α}

theorem runsOf_cons (x : α) (xs : List α) : runsOf (x :: xs) = consRun x (runsOf xs) := rfl

theorem head?_runsOf (xs : List α) : (runsOf xs).head?.map (·.1) = xs.head? := by
  rw [← head?_expandRuns fun _ => pos_of_mem_runsOf, expandRuns_runsOf]

theorem consRun_of_ne {rs : List (α × Nat)} (h : rs.head?.map (·.1) ≠ some x) :
    consRun x rs = (x, 1) :: rs := by
  cases rs with
  | nil => rfl
  | cons r rs =>
    have hne : x ≠ r.1 := fun hx => h (by rw [hx]; rfl)
    exact if_neg hne

/-- A run goes as far as its element is repeated. -/
theorem runsOf_replicate_append {n : Nat} (hn : 0 < n) (hx : xs.head? ≠ some x) :
    runsOf (List.replicate n x ++ xs) = (x, n) :: runsOf xs := by
  obtain ⟨m, rfl⟩ := Nat.exists_eq_succ_of_ne_zero (Nat.ne_of_gt hn)
  clear hn
  induction m with
  | zero =>
    rw [List.replicate_succ, List.replicate_zero, List.singleton_append, runsOf_cons]
    exact consRun_of_ne (by rwa [head?_runsOf])
  | succ m ih => rw [List.replicate_succ, List.cons_append, runsOf_cons, ih, consRun, if_pos rfl]

end

namespace Automaton
variable {a : Automaton} {i x y run byte : Nat} {row : List Nat}

/-! ## Several transitions out of one state -/

/-- Add transitions out of one state, in their order. -/
def addEdges (a : Automaton) (source : Nat) (ts : List Transition) : Automaton :=
  ts.foldl (fun a t => a.addEdge source t.label t.target) a

@[simp] theorem addEdges_nil (a : Automaton) (i : Nat) : a.addEdges i [] = a := rfl

theorem addEdges_cons (a : Automaton) (i : Nat) (t : Transition) (ts : List Transition) :
    a.addEdges i (t :: ts) = (a.addEdge i t.label t.target).addEdges i ts := rfl

theorem getElem?_states_addEdges (a : Automaton) (i : Nat) (ts : List Transition) (k : Nat) :
    (a.addEdges i ts).states[k]? =
      if i = k then a.states[k]?.map fun s => { s with transitions := s.transitions ++ ts }
      else a.states[k]? := by
  induction ts generalizing a with
  | nil => simp
  | cons t ts ih =>
    rw [addEdges_cons, ih, addEdge, Array.getElem?_modify]
    split <;> simp [Option.map_map, Function.comp_def, State.addEdge]

/-- A state without edges gets the transitions, and nothing else changes. -/
theorem addEdges_of_fresh (h : a.states[i]? = some {}) (ts : List Transition) : a.addEdges i ts =
    { a with states := a.states.setIfInBounds i { transitions := ts } } := by
  have hrest (b : Automaton) :
      (b.addEdges i ts).start = b.start ∧ (b.addEdges i ts).accepting = b.accepting := by
    induction ts generalizing b with
    | nil => exact ⟨rfl, rfl⟩
    | cons t ts ih => exact ih (b.addEdge i t.label t.target)
  have hstates : (a.addEdges i ts).states = a.states.setIfInBounds i { transitions := ts } := by
    apply Array.ext_getElem?
    intro k
    have hi : i < a.states.size := (Array.getElem?_eq_some_iff.mp h).1
    rw [getElem?_states_addEdges, Array.getElem?_setIfInBounds]
    split
    · next hk =>
      rw [← hk, h]
      rfl
    · rfl
  rw [← hstates, ← (hrest a).1, ← (hrest a).2]

/-! ## The walk -/

/-- Whether the run that begins at `run` ends before `byte`: there are no more bytes, or the target
changes. -/
def runEnds? (row : List Nat) (run byte : Nat) : Option Bool :=
  if byte = byteCount then some true
  else do return (← row[byte]?) ≠ (← row[run]?)

/-- One byte further. A run that ends is written as a transition, and the next one begins. -/
def addRun? (source : Nat) (row : List Nat) (s : Automaton × Nat) (byte : Nat) :
    Option (Automaton × Nat) := do
  if ← runEnds? row s.2 byte then
    let label := .bytes (UInt8.ofNat s.2) (UInt8.ofNat (byte - 1))
    return (← s.1.addEdge? source label (← row[s.2]?), byte)
  else return s

/-- Write a row out of state `source`, byte by byte and one step past the last byte. -/
def addRow? (a : Automaton) (source : Nat) (row : List Nat) : Option Automaton :=
  ((List.range' 1 byteCount).foldlM (addRun? source row) (a, 0)).map (·.1)

theorem addRun?_of_eq (hbyte : byte ≠ byteCount) (hrun : row[run]? = some x)
    (hx : row[byte]? = some x) : addRun? i row (a, run) byte = some (a, run) := by
  simp [addRun?, runEnds?, hbyte, hrun, hx]

theorem addRun?_of_ne (hi : i < a.size) (hrun : row[run]? = some x) (hy : row[byte]? = some y)
    (hne : y ≠ x) : addRun? i row (a, run) byte =
      some (a.addEdge i (.bytes (UInt8.ofNat run) (UInt8.ofNat (byte - 1))) x, byte) := by
  by_cases hbyte : byte = byteCount <;>
    simp [addRun?, runEnds?, hbyte, hrun, hy, hne, addEdge?_eq hi]

theorem addRun?_byteCount (hi : i < a.size) (hrun : row[run]? = some x) :
    addRun? i row (a, run) byteCount =
      some (a.addEdge i (.bytes (UInt8.ofNat run) (UInt8.ofNat (byteCount - 1))) x, byteCount) := by
  simp [addRun?, runEnds?, hrun, addEdge?_eq hi]

/-- With a run in hand, the walk over the rest of the row writes this run and those behind it. -/
theorem foldlM_addRun? (before : List Nat) {rest : List Nat} {n : Nat} (hi : i < a.size)
    (hrow : row = before ++ (List.replicate n x ++ rest)) (hlen : row.length = byteCount)
    (hn : 0 < n) :
    (List.range' (before.length + n) (rest.length + 1)).foldlM (addRun? i row) (a, before.length) =
      some (a.addEdges i (transitionsFrom before.length (runsOf (List.replicate n x ++ rest))),
        byteCount) := by
  have hx : row[before.length]? = some x := by simp [hrow, hn]
  induction rest generalizing a before n x with
  | nil =>
    have hend : before.length + n = byteCount := by simpa [hrow] using hlen
    have hruns : runsOf (List.replicate n x ++ []) = (x, n) :: runsOf [] :=
      runsOf_replicate_append hn (by simp)
    rw [hruns, List.length_nil, Nat.zero_add, List.range'_one, List.foldlM_cons, hend,
      addRun?_byteCount hi hx, ← hend]
    rfl
  | cons y rest ih =>
    have hy : row[before.length + n]? = some y := by simp [hrow]
    have hbyte : before.length + n ≠ byteCount := by
      rw [← hlen, hrow]
      simp
    rw [List.length_cons, List.range'_succ, List.foldlM_cons]
    by_cases hxy : y = x
    · -- the run in hand goes on
      subst hxy
      have hlonger : List.replicate n y ++ y :: rest = List.replicate (n + 1) y ++ rest := by
        rw [List.replicate_succ', List.append_assoc, List.singleton_append]
      rw [hlonger] at hrow ⊢
      rw [addRun?_of_eq hbyte hx hy]
      exact ih before hi hrow (Nat.succ_pos n) hx
    · -- the run in hand is written, and a run of one byte is the next one in hand
      have hruns : runsOf (List.replicate n x ++ y :: rest) = (x, n) :: runsOf (y :: rest) :=
        runsOf_replicate_append hn (by simpa using hxy)
      have hrow' : row = (before ++ List.replicate n x) ++ (List.replicate 1 y ++ rest) := by
        simpa using hrow
      have hrest := ih (a := a.addEdge i (.bytes (UInt8.ofNat before.length)
        (UInt8.ofNat (before.length + n - 1))) x) (before ++ List.replicate n x)
        (by simpa using hi) hrow' Nat.one_pos (by simpa using hy)
      rw [List.length_append, List.length_replicate] at hrest
      rw [addRun?_of_ne hi hx hy hxy, hruns]
      exact hrest

theorem addRow?_eq (hi : i < a.size) (hrow : row.length = byteCount) :
    a.addRow? i row = some (a.addEdges i (rowTransitions row)) := by
  cases row with
  | nil => simp [byteCount] at hrow
  | cons x rest =>
    have hlen : rest.length + 1 = byteCount := hrow
    rw [addRow?, ← hlen]
    exact congrArg (Option.map (·.1)) (foldlM_addRun? [] hi rfl hrow Nat.one_pos)

end Automaton

end PatternAutomata
