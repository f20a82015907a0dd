import PatternAutomata.Automaton.Boolean
import PatternAutomata.Proofs.Automaton.Path
import PatternAutomata.Proofs.Automaton.Row

/-!
# Complete deterministic automata

In such an automaton every byte leads from each state to exactly one state, and there are no other
edges. A piece of a text is then matched wherever it stands, or nowhere.
-/
namespace PatternAutomata.Automaton
open Meaning (strings)

theorem mem_accepting_flip {d : Automaton} {f : Nat} :
    f ∈ d.flip.accepting ↔ f < d.size ∧ f ∉ d.accepting := by
  simp only [flip, Std.ExtTreeSet.mem_ofList, List.contains_iff_mem, List.mem_filter,
    List.mem_range, Bool.not_eq_true', ← Bool.not_eq_true, Std.ExtTreeSet.contains_iff_mem]

theorem WellFormed.flip {d : Automaton} (h : d.WellFormed) : d.flip.WellFormed :=
  wellFormed_iff.mpr
    ⟨h.start_lt, fun _ _ _ he => h.target_lt he, fun _ hf => (mem_accepting_flip.mp hf).1⟩

/-- On each byte `next` gives the one state that follows, and there are no edges but these. -/
structure Complete (d : Automaton) (next : Nat → UInt8 → Nat) : Prop where
  wellFormed : d.WellFormed
  edge_bytes : ∀ i x j, d.Edge i x j → ∃ lo hi, x = some (.bytes lo hi)
  edge_iff : ∀ i c j, i < d.size →
    ((∃ l, d.Edge i (some l) j ∧ l.reads c = true) ↔ next i c = j)

namespace Complete
variable {d : Automaton} {next : Nat → UInt8 → Nat}

theorem next_lt (h : Complete d next) {i : Nat} (c : UInt8) (hi : i < d.size) :
    next i c < d.size := by
  obtain ⟨l, he, -⟩ := (h.edge_iff i c _ hi).mpr rfl
  exact h.wellFormed.target_lt he

theorem path_iff (h : Complete d next) {b e : Bool} {i k : Nat} {w : List UInt8}
    (hi : i < d.size) : Path d.Edge e b i w k ↔ w.foldl next i = k := by
  constructor
  · intro hp
    induction hp with
    | refl => rfl
    | silent he hx =>
      obtain ⟨lo, hi, rfl⟩ := h.edge_bytes _ _ _ he
      simp [crossable] at hx
    | byte he hl _ ih =>
      obtain rfl := (h.edge_iff _ _ _ hi).mp ⟨_, he, hl⟩
      exact ih (h.next_lt _ hi)
  · rintro rfl
    induction w generalizing i b with
    | nil => exact .refl b i
    | cons c w ih =>
      obtain ⟨l, he, hl⟩ := (h.edge_iff i c _ hi).mpr rfl
      exact .byte he hl (ih (h.next_lt c hi))

/-- Only the bytes decide what is matched. -/
theorem meaning_eq (h : Complete d next) :
    d.meaning = strings fun w => w.foldl next d.start ∈ d.accepting := by
  apply Meaning.ext
  intro b w e
  unfold meaning strings
  constructor
  · rintro ⟨f, hf, hp⟩
    obtain rfl := (h.path_iff h.wellFormed.start_lt).mp hp
    exact hf
  · intro hf
    exact ⟨_, hf, (h.path_iff h.wellFormed.start_lt).mpr rfl⟩

theorem foldl_lt (h : Complete d next) {i : Nat} (hi : i < d.size) (w : List UInt8) :
    w.foldl next i < d.size := by
  induction w generalizing i with
  | nil => exact hi
  | cons c w ih => exact ih (h.next_lt c hi)

theorem flip (h : Complete d next) : Complete d.flip next where
  wellFormed := h.wellFormed.flip
  edge_bytes := h.edge_bytes
  edge_iff := h.edge_iff

theorem meaning_flip (h : Complete d next) :
    d.flip.meaning = strings fun w => ¬ d.meaning.whole w := by
  rw [h.flip.meaning_eq]
  apply Meaning.ext
  intro b w e
  rw [h.meaning_eq]
  exact mem_accepting_flip.trans (and_iff_right (h.foldl_lt h.wellFormed.start_lt w))

end Complete

end PatternAutomata.Automaton
