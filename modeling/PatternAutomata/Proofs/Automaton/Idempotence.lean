import PatternAutomata.Proofs.Automaton.Shape

/-!
# Determinizing twice

In a complete automaton a text leads to a single state, so the sets of the subset construction have
one member each, and they are met in the order of these members. An automaton whose states are in
breadth-first order already, and to whose start no edge leads, comes out as it went in.
-/
namespace PatternAutomata.Automaton
variable {a d : Automaton} {next : Nat → UInt8 → Nat} {i : Nat} {u w : List UInt8}

theorem flip_flip (h : d.WellFormed) : d.flip.flip = d := by
  have haccepting : d.flip.flip.accepting = d.accepting := by
    apply Std.ExtTreeSet.ext_mem
    intro f
    rw [mem_accepting_flip, mem_accepting_flip, size_flip]
    constructor
    · rintro ⟨hlt, hf⟩
      exact Decidable.not_not.mp fun hnot => hf ⟨hlt, hnot⟩
    · intro hf
      exact ⟨h.accepting_lt hf, fun hnot => hnot.2 hf⟩
  calc d.flip.flip = ⟨d.states, d.start, d.flip.flip.accepting⟩ := rfl
    _ = d := by rw [haccepting]

namespace Complete

theorem mem_reading (h : d.Complete next) : i ∈ d.reading w ↔ w.foldl next d.start = i :=
  Automaton.mem_reading.trans (h.path_iff h.wellFormed.start_lt)

/-- Sets tell the same texts apart as their single members. -/
theorem reading_eq_iff (h : d.Complete next) :
    d.reading u = d.reading w ↔ u.foldl next d.start = w.foldl next d.start := by
  constructor
  · intro heq
    have hu : u.foldl next d.start ∈ d.reading u := h.mem_reading.mpr rfl
    rw [heq] at hu
    exact (h.mem_reading.mp hu).symm
  · intro heq
    apply Std.ExtTreeSet.ext_mem
    intro i
    rw [h.mem_reading, h.mem_reading, heq]

end Complete

/-- Where only the empty text leads to the start, the deterministic automaton of an automaton in
breadth-first order is the automaton itself. -/
theorem BreadthFirst.determinize_eq (h : d.BreadthFirst next)
    (hapart : ∀ i c, i < d.size → 1 ≤ next i c) : d.determinize = d := by
  have hd := h.complete.wellFormed
  obtain ⟨next', sets, h', hkeyed⟩ := exists_breadthFirst_determinize hd
  have hnil (v : List UInt8) : v.foldl next 0 = 0 ↔ v = [] := by
    refine ⟨fun hv => ?_, fun hv => by rw [hv, List.foldl_nil]⟩
    refine Decidable.byContradiction fun hne => ?_
    have := h.le_foldl hapart hne
    omega
  have hsame (u w : List UInt8) :
      u.foldl next 0 = w.foldl next 0 ↔ u.foldl next' 0 = w.foldl next' 0 := by
    have hsets := h.complete.reading_eq_iff (u := u) (w := w)
    rw [h.start_eq] at hsets
    rw [hkeyed.foldl_eq_iff_of_apart h', ← hsets]
    refine ⟨fun heq => ⟨?_, heq⟩, And.right⟩
    rw [← hnil u, ← hnil w, hsets.mp heq]
  obtain ⟨_, -, hmeaning⟩ := determinize_spec hd
  refine (h.ext h' hsame fun w => ?_).symm
  rw [hmeaning]
  rfl

section
variable (h : a.WellFormed)
include h

theorem determinize_determinize : a.determinize.determinize = a.determinize := by
  obtain ⟨next, sets, horder, hkeyed⟩ := exists_breadthFirst_determinize h
  exact horder.determinize_eq hkeyed.lead_le

theorem complement_complement : a.complement.complement = a.determinize := by
  obtain ⟨next, sets, horder, hkeyed⟩ := exists_breadthFirst_determinize h
  have hflip : a.determinize.flip.determinize = a.determinize.flip :=
    horder.flip.determinize_eq hkeyed.flip.lead_le
  rw [complement, complement, hflip, flip_flip horder.complete.wellFormed]

/-- Determinizing again changes nothing, and neither does complementing twice once an automaton is
deterministic. Any budget that suffices for the first time suffices for the second. -/
theorem determinize_twice : a.determinize.determinize = a.determinize ∧
    a.complement.complement = a.determinize ∧
    ∀ limit, a.determinize.size ≤ limit →
      a.determinize.determinizeUpTo limit = .ok a.determinize ∧
      a.complementInPlace limit = (.ok (), a.complement) ∧
      a.complement.complementInPlace limit = (.ok (), a.determinize) := by
  have hagain := determinize_determinize h
  have htwice := complement_complement h
  refine ⟨hagain, htwice, fun limit hfits => ⟨?_, complementInPlace_eq h hfits, ?_⟩⟩
  · rw [determinizeUpTo_eq_ok h.determinize (hagain.symm ▸ hfits), hagain]
  · have hsize : a.complement.determinize.size = a.determinize.size :=
      (size_flip _).symm.trans (congrArg size htwice)
    rw [complementInPlace_eq h.complement (hsize.symm ▸ hfits), htwice]

end

/-- Two of the three states go to the same states and both accept, but they stay apart. -/
theorem determinize_twice_anchoredLoop : anchoredLoop.WellFormed ∧
    anchoredLoop.determinize.size = 3 ∧
    anchoredLoop.determinize.determinize = anchoredLoop.determinize ∧
    anchoredLoop.complement.complement = anchoredLoop.determinize ∧
    anchoredLoop.complement.complementInPlace 3 = (.ok (), anchoredLoop.determinize) := by
  have h : anchoredLoop.WellFormed := by decide
  have hsize : anchoredLoop.determinize.size = 3 := by decide +kernel
  obtain ⟨hagain, htwice, hbudget⟩ := determinize_twice h
  exact ⟨h, hsize, hagain, htwice, (hbudget 3 (Nat.le_of_eq hsize)).2.2⟩

end PatternAutomata.Automaton
