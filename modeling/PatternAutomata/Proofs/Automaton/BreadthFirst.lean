import Mathlib.Data.Nat.Init
import PatternAutomata.Proofs.Automaton.Deterministic

/-!
# Numbers in breadth-first order

The rows of a deterministic automaton, read one after the other and each of them by ascending bytes,
mention all states but the start. In breadth-first order the states are numbered as they are
mentioned for the first time. Nothing is left open by this order: two automata numbered like this
are the same, if they tell the same texts apart and accept the same texts.
-/
namespace PatternAutomata

/-! ## Places in the rows -/

/-- Whether one place in the rows, given by the number of a row and a byte, comes before another: on
an earlier row, or on the same row under a smaller byte. -/
def Before (p q : Nat × UInt8) : Prop := p.1 < q.1 ∨ p.1 = q.1 ∧ p.2 < q.2

theorem eq_or_before (p q : Nat × UInt8) : p = q ∨ Before p q ∨ Before q p := by
  obtain ⟨i, c⟩ := p
  obtain ⟨j, c'⟩ := q
  simp only [Before, Prod.mk.injEq, UInt8.lt_iff_toNat_lt, ← UInt8.toNat_inj]
  omega

theorem Before.fst_le {p q : Nat × UInt8} (h : Before p q) : p.1 ≤ q.1 := by
  rcases h with h | ⟨h, -⟩
  · exact Nat.le_of_lt h
  · exact Nat.le_of_eq h

/-- Whether a number is mentioned at a place, and nowhere before it. -/
def FirstMet (next : Nat → UInt8 → Nat) (j : Nat) (p : Nat × UInt8) : Prop :=
  next p.1 p.2 = j ∧ ∀ q, Before q p → next q.1 q.2 ≠ j

/-! ## Automata in breadth-first order -/

namespace Automaton
variable {κ : Type} {step : κ → UInt8 → κ} {lead : Nat} {d d' : Automaton}
  {next next' : Nat → UInt8 → Nat} {first : κ} {key : Nat → κ} {i j : Nat} {u w : List UInt8}

/-- A complete automaton that starts at 0, whose states are written row by row and numbered in
breadth-first order: every other state is mentioned on the row of a smaller number, and up to there
only smaller numbers are. -/
structure BreadthFirst (d : Automaton) (next : Nat → UInt8 → Nat) : Prop where
  complete : d.Complete next
  start_eq : d.start = 0
  row_eq : ∀ i < d.size, d.states[i]? =
    some { transitions := rowTransitions (allBytes.map (next i)) }
  discovered : ∀ j, 0 < j → j < d.size → ∃ p : Nat × UInt8, p.1 < j ∧ next p.1 p.2 = j ∧
    ∀ q, Before q p → next q.1 q.2 < j

/-- The states stand for keys: the start for `first`, and what follows a state for what follows its
key. From `lead` on, no two states stand for the same key. Nothing leads to the states before. -/
structure Keyed (d : Automaton) (next : Nat → UInt8 → Nat) (step : κ → UInt8 → κ) (first : κ)
    (lead : Nat) (key : Nat → κ) : Prop where
  key_foldl : ∀ w : List UInt8, key (w.foldl next 0) = w.foldl step first
  key_inj : ∀ i j, lead ≤ i → i < d.size → lead ≤ j → j < d.size → key i = key j → i = j
  lead_le : ∀ i c, i < d.size → lead ≤ next i c

namespace BreadthFirst

theorem flip (h : d.BreadthFirst next) : d.flip.BreadthFirst next where
  complete := h.complete.flip
  start_eq := h.start_eq
  row_eq := h.row_eq
  discovered := h.discovered

theorem size_pos (h : d.BreadthFirst next) : 0 < d.size :=
  Nat.zero_lt_of_lt h.complete.wellFormed.start_lt

theorem foldl_lt (h : d.BreadthFirst next) (w : List UInt8) : w.foldl next 0 < d.size :=
  h.complete.foldl_lt h.size_pos w

theorem whole_iff (h : d.BreadthFirst next) (w : List UInt8) :
    d.meaning.whole w ↔ w.foldl next 0 ∈ d.accepting := by
  rw [h.complete.meaning_eq, h.start_eq]
  rfl

/-- Texts that are not empty lead where edges lead. -/
theorem le_foldl (h : d.BreadthFirst next) (hlead : ∀ i c, i < d.size → lead ≤ next i c)
    (hw : w ≠ []) : lead ≤ w.foldl next 0 := by
  rw [← List.dropLast_concat_getLast hw, List.foldl_append]
  exact hlead _ _ (h.foldl_lt _)

/-- Some text leads to each state. -/
theorem exists_text (h : d.BreadthFirst next) (hj : j < d.size) :
    ∃ w : List UInt8, w.foldl next 0 = j := by
  induction j using Nat.strong_induction_on with
  | h j ih =>
    rcases Nat.eq_zero_or_pos j with rfl | hpos
    · exact ⟨[], rfl⟩
    · obtain ⟨⟨i, c⟩, hi, rfl, -⟩ := h.discovered j hpos hj
      obtain ⟨w, rfl⟩ := ih i hi (Nat.lt_trans hi hj)
      exact ⟨w ++ [c], by rw [List.foldl_append]; rfl⟩

/-- A place that mentions a number first, is the one at which it was discovered. -/
theorem firstMet_iff (h : d.BreadthFirst next) (hpos : 0 < j) (hj : j < d.size)
    (p : Nat × UInt8) : FirstMet next j p ↔
      next p.1 p.2 = j ∧ ∀ q, Before q p → next q.1 q.2 < j := by
  constructor
  · rintro ⟨hp, hbefore⟩
    obtain ⟨q, -, hq, hsmaller⟩ := h.discovered j hpos hj
    rcases eq_or_before p q with rfl | hpq | hqp
    · exact ⟨hp, hsmaller⟩
    · exact absurd hp (Nat.ne_of_lt (hsmaller p hpq))
    · exact absurd hq (hbefore q hqp)
  · rintro ⟨hp, hsmaller⟩
    exact ⟨hp, fun q hq => Nat.ne_of_lt (hsmaller q hq)⟩

/-- Smaller numbers are discovered earlier. -/
theorem before_of_lt (h : d.BreadthFirst next) {k : Nat} {p q : Nat × UInt8} (hpos : 0 < j)
    (hjk : j < k) (hk : k < d.size) (hp : FirstMet next j p) (hq : FirstMet next k q) :
    Before p q := by
  have hp' := (h.firstMet_iff hpos (Nat.lt_trans hjk hk) p).mp hp
  rcases eq_or_before p q with rfl | hpq | hqp
  · exact absurd (hp.1.symm.trans hq.1) (Nat.ne_of_lt hjk)
  · exact hpq
  · have := hp'.2 q hqp
    rw [hq.1] at this
    omega

/-! ### Texts that are told apart -/

/-- Some text leads to the state in both automata. -/
def Shared (next next' : Nat → UInt8 → Nat) (j : Nat) : Prop :=
  ∃ w : List UInt8, w.foldl next 0 = j ∧ w.foldl next' 0 = j

theorem Shared.symm (h : Shared next next' j) : Shared next' next j := by
  obtain ⟨w, hw, hw'⟩ := h
  exact ⟨w, hw', hw⟩

section
variable (h : d.BreadthFirst next) (h' : d'.BreadthFirst next')
  (hsame : ∀ u w : List UInt8,
    u.foldl next 0 = w.foldl next 0 ↔ u.foldl next' 0 = w.foldl next' 0)
include hsame

/-- From a shared state the same byte leads to the same state, if one of the two states to which it
leads is shared. -/
theorem Shared.next_eq (hi : Shared next next' i) {c : UInt8}
    (hj : Shared next next' (next' i c)) : next i c = next' i c := by
  obtain ⟨u, hu, hu'⟩ := hi
  obtain ⟨w, hw, hw'⟩ := hj
  have heq : (u ++ [c]).foldl next' 0 = w.foldl next' 0 := by
    rw [List.foldl_append, hu', hw']
    rfl
  have := (hsame _ _).mpr heq
  rwa [List.foldl_append, hu, hw] at this

include h h'

/-- If all smaller states are shared, the place at which `j` is discovered leads to `j` in the other
automaton as well: to a smaller number it cannot lead, and if it led to a larger one, `j` would have
been discovered before. -/
theorem next_eq_of_discovered (hj : 0 < j)
    (hsmaller : ∀ k < j, k < d.size ∨ k < d'.size → Shared next next' k) {c : UInt8} (hi : i < j)
    (hshared : Shared next next' i) (hnext : next i c = j)
    (hbefore : ∀ q, Before q (i, c) → next q.1 q.2 < j) : next' i c = j := by
  have hlt' : next' i c < d'.size := by
    obtain ⟨u, -, rfl⟩ := hshared
    exact h'.complete.next_lt c (h'.foldl_lt u)
  rcases Nat.lt_trichotomy (next' i c) j with hless | heq | hmore
  · rw [← hshared.next_eq hsame (hsmaller _ hless (.inr hlt')), hnext]
  · exact heq
  · obtain ⟨q, hq, hqj, hbefore'⟩ := h'.discovered j hj (Nat.lt_trans hmore hlt')
    rcases eq_or_before (i, c) q with rfl | hpq | hqp
    · exact hqj
    · exact absurd (hbefore' _ hpq) (Nat.not_lt_of_gt hmore)
    · have hless := hbefore q hqp
      have hqd' : q.1 < d'.size := Nat.lt_trans hq (Nat.lt_trans hmore hlt')
      have hqshared := hsmaller q.1 hq (.inr hqd')
      have hqlt : next q.1 q.2 < d.size := by
        obtain ⟨u, hu, -⟩ := hqshared
        rw [← hu]
        exact h.complete.next_lt q.2 (h.foldl_lt u)
      have heq := hqshared.symm.next_eq (fun u w => (hsame u w).symm)
        (hsmaller _ hless (.inl hqlt)).symm
      omega

theorem shared_of_lt (hsmaller : ∀ k < j, k < d.size ∨ k < d'.size → Shared next next' k)
    (hj : j < d.size) : Shared next next' j := by
  rcases Nat.eq_zero_or_pos j with rfl | hpos
  · exact ⟨[], rfl, rfl⟩
  · obtain ⟨⟨i, c⟩, hi, hnext, hbefore⟩ := h.discovered j hpos hj
    have hshared : Shared next next' i := hsmaller i hi (.inl (Nat.lt_trans hi hj))
    have hnext' := next_eq_of_discovered h h' hsame hpos hsmaller hi hshared hnext hbefore
    obtain ⟨u, hu, hu'⟩ := hshared
    refine ⟨u ++ [c], ?_, ?_⟩
    · rw [List.foldl_append, hu]
      exact hnext
    · rw [List.foldl_append, hu']
      exact hnext'

theorem shared (hj : j < d.size ∨ j < d'.size) : Shared next next' j := by
  induction j using Nat.strong_induction_on with
  | h j ih =>
    cases hj with
    | inl hj => exact shared_of_lt h h' hsame ih hj
    | inr hj =>
      exact (shared_of_lt h' h (fun u w => (hsame u w).symm)
        (fun k hk hlt => (ih k hk hlt.symm).symm) hj).symm

theorem size_le : d.size ≤ d'.size := by
  refine Nat.le_of_not_lt fun hlt => ?_
  obtain ⟨w, -, hw⟩ := shared h h' hsame (.inl hlt)
  exact absurd (h'.foldl_lt w) (Nat.not_lt.mpr (Nat.le_of_eq hw.symm))

theorem size_eq : d.size = d'.size :=
  Nat.le_antisymm (size_le h h' hsame) (size_le h' h fun u w => (hsame u w).symm)

theorem states_eq : d.states = d'.states := by
  have hsize := size_eq h h' hsame
  apply Array.ext_getElem?
  intro i
  by_cases hi : i < d.size
  · have hnext : next i = next' i := by
      funext c
      have hlt' : next' i c < d'.size := h'.complete.next_lt c (hsize ▸ hi)
      exact (shared h h' hsame (.inl hi)).next_eq hsame (shared h h' hsame (.inr hlt'))
    rw [h.row_eq i hi, h'.row_eq i (hsize ▸ hi), hnext]
  · have hi' : ¬ i < d'.size := hsize ▸ hi
    rw [Array.getElem?_eq_none (Nat.not_lt.mp hi), Array.getElem?_eq_none (Nat.not_lt.mp hi')]

theorem accepting_eq (hmeaning : ∀ w, d.meaning.whole w ↔ d'.meaning.whole w) :
    d.accepting = d'.accepting := by
  apply Std.ExtTreeSet.ext_mem
  intro f
  by_cases hf : f < d.size
  · obtain ⟨w, rfl, hw⟩ := shared h h' hsame (.inl hf)
    rw [← h.whole_iff, hmeaning, h'.whole_iff, hw]
  · have hf' : ¬ f < d'.size := size_eq h h' hsame ▸ hf
    exact iff_of_false (fun hmem => hf (h.complete.wellFormed.accepting_lt hmem))
      fun hmem => hf' (h'.complete.wellFormed.accepting_lt hmem)

/-- Automata in breadth-first order are equal if they tell the same texts apart and accept the same
texts. -/
theorem ext (hmeaning : ∀ w, d.meaning.whole w ↔ d'.meaning.whole w) : d = d' :=
  calc d = ⟨d.states, d.start, d.accepting⟩ := rfl
    _ = ⟨d'.states, d'.start, d'.accepting⟩ := by
      rw [states_eq h h' hsame, accepting_eq h h' hsame hmeaning, h.start_eq, h'.start_eq]
    _ = d' := rfl

end

end BreadthFirst

/-! ### Keys that are told apart -/

namespace Keyed

theorem flip (hkey : d.Keyed next step first lead key) : d.flip.Keyed next step first lead key where
  key_foldl := hkey.key_foldl
  key_inj := hkey.key_inj
  lead_le := hkey.lead_le

/-- Where the first key is recognized, keys tell the same texts apart as states. -/
theorem foldl_eq_iff (hkey : d.Keyed next step first 0 key) (h : d.BreadthFirst next) :
    u.foldl next 0 = w.foldl next 0 ↔ u.foldl step first = w.foldl step first := by
  rw [← hkey.key_foldl, ← hkey.key_foldl]
  refine ⟨fun heq => by rw [heq], fun heq => ?_⟩
  exact hkey.key_inj _ _ (Nat.zero_le _) (h.foldl_lt u) (Nat.zero_le _) (h.foldl_lt w) heq

/-- Where the start stands apart, only the empty text leads to it. Other texts are told apart by
their keys. -/
theorem foldl_eq_iff_of_apart (hkey : d.Keyed next step first 1 key) (h : d.BreadthFirst next) :
    u.foldl next 0 = w.foldl next 0 ↔
      (u = [] ↔ w = []) ∧ u.foldl step first = w.foldl step first := by
  by_cases hu : u = []
  · by_cases hw : w = []
    · simp [hu, hw]
    · have := h.le_foldl hkey.lead_le hw
      refine iff_of_false (fun heq => ?_) (fun hboth => hw (hboth.1.mp hu))
      rw [hu, List.foldl_nil] at heq
      omega
  · have hlu := h.le_foldl hkey.lead_le hu
    by_cases hw : w = []
    · refine iff_of_false (fun heq => ?_) (fun hboth => hu (hboth.1.mpr hw))
      rw [hw, List.foldl_nil] at heq
      omega
    · rw [iff_true_intro (iff_of_false hu hw), true_and, ← hkey.key_foldl, ← hkey.key_foldl]
      refine ⟨fun heq => by rw [heq], fun heq => ?_⟩
      exact hkey.key_inj _ _ hlu (h.foldl_lt u) (h.le_foldl hkey.lead_le hw) (h.foldl_lt w) heq

end Keyed

end Automaton

end PatternAutomata
