import Mathlib.Order.Bounds.Basic
import PatternAutomata.Proofs.Automaton.Lookup

/-!
# Least closed sets

The closure of a set is the least set above it that no epsilon edge leaves. In the same way the
growth of a closed set through anchors is the least one that neither epsilon edges nor edges with
these anchors leave. It can also be had in rounds, each of which crosses the anchors from the
members that were there before it. When a round adds nothing, nothing is missing.
-/
namespace PatternAutomata

/-- The members of a set of states. -/
def StateSet.members (set : StateSet) : Set Nat := {i | i ∈ set}

namespace StateSet
variable {s t : StateSet}

theorem card_toList (s : StateSet) : s.toList.toFinset.card = s.size := by
  have hnodup : s.toList.Nodup := Std.ExtTreeSet.distinct_toList.imp fun hne heq =>
    hne (Std.LawfulEqCmp.compare_eq_iff_eq.mpr heq)
  rw [List.toFinset_card_of_nodup hnodup, Std.ExtTreeSet.length_toList]

theorem toFinset_subset (h : ∀ i ∈ s, i ∈ t) : s.toList.toFinset ⊆ t.toList.toFinset := by
  intro i hi
  rw [List.mem_toFinset, Std.ExtTreeSet.mem_toList] at hi ⊢
  exact h i hi

theorem size_le_of_subset (h : ∀ i ∈ s, i ∈ t) : s.size ≤ t.size := by
  rw [← card_toList, ← card_toList]
  exact Finset.card_le_card (toFinset_subset h)

/-- A part of a set that is not smaller than it is the whole set. -/
theorem eq_of_size_le (h : ∀ i ∈ s, i ∈ t) (hsize : t.size ≤ s.size) : s = t := by
  rw [← card_toList, ← card_toList] at hsize
  have heq := Finset.eq_of_subset_of_card_le (toFinset_subset h) hsize
  apply Std.ExtTreeSet.ext_mem
  intro i
  simpa using Finset.ext_iff.mp heq i

theorem size_le_of_lt {n : Nat} (h : ∀ i ∈ s, i < n) : s.size ≤ n := by
  have hsub : s.toList.toFinset ⊆ Finset.range n := by
    intro i hi
    rw [List.mem_toFinset, Std.ExtTreeSet.mem_toList] at hi
    exact Finset.mem_range.mpr (h i hi)
  have := Finset.card_le_card hsub
  rwa [card_toList, Finset.card_range] at this

end StateSet

namespace Automaton
open Relation (ReflTransGen)
variable {a : Automaton} {set result final : StateSet} {anchors anchors' : List Anchor} {i j : Nat}

/-- Whether epsilon edges, and edges with one of the given anchors, lead from members to members. -/
def ClosedUnder (a : Automaton) (anchors : List Anchor) (t : Set Nat) : Prop :=
  ∀ i ∈ t, ∀ j, (a.Edge i none j ∨ ∃ m ∈ anchors, a.Edge i (some (.anchor m)) j) → j ∈ t

/-- One round: whatever the anchors lead to from the set is closed and put in. -/
def growOnce (a : Automaton) (anchors : List Anchor) (set : StateSet) : StateSet :=
  anchors.foldl (fun grown m => grown ∪ a.closure (a.crossAnchor set m)) set

/-- Rounds from a set end with another one: a round that leaves the size as it is is the last. -/
inductive RoundsTo (a : Automaton) (anchors : List Anchor) : StateSet → StateSet → Prop
  | last {set : StateSet} (h : (a.growOnce anchors set).size = set.size) :
    RoundsTo a anchors set set
  | next {set final : StateSet} (h : (a.growOnce anchors set).size ≠ set.size)
    (rest : RoundsTo a anchors (a.growOnce anchors set) final) : RoundsTo a anchors set final

/-! ## What can be reached is the least closed set -/

theorem silent_iff : Silent a.Edge (anchors.contains .textStart) (anchors.contains .textEnd) i j ↔
    a.Edge i none j ∨ ∃ m ∈ anchors, a.Edge i (some (.anchor m)) j := by
  constructor
  · rintro ⟨x, he, hx⟩
    match x with
    | none => exact .inl he
    | some (.bytes _ _) => simp [crossable] at hx
    | some (.anchor m) =>
      refine .inr ⟨m, ?_, he⟩
      cases m <;> simpa [crossable] using hx
  · rintro (he | ⟨m, hm, he⟩)
    · exact ⟨none, he, rfl⟩
    · refine ⟨some (.anchor m), he, ?_⟩
      cases m <;> simpa [crossable] using hm

/-- What is reached from a set is the least set above it that is closed. -/
theorem isLeast_of_mem_iff (h : ∀ i, i ∈ result ↔ ∃ s ∈ set, ReflTransGen
      (Silent a.Edge (anchors.contains .textStart) (anchors.contains .textEnd)) s i) :
    IsLeast {t | set.members ⊆ t ∧ a.ClosedUnder anchors t} result.members := by
  refine ⟨⟨fun i hi => (h i).mpr ⟨i, hi, .refl⟩, fun i hi j hij => ?_⟩, fun t ht i hi => ?_⟩
  · obtain ⟨s, hs, hsi⟩ := (h i).mp hi
    exact (h j).mpr ⟨s, hs, hsi.tail (silent_iff.mpr hij)⟩
  · obtain ⟨hset, hclosed⟩ := ht
    obtain ⟨s, hs, hsi⟩ := (h i).mp hi
    induction hsi with
    | refl => exact hset hs
    | tail hsk hkj ih => exact hclosed _ (ih ((h _).mpr ⟨s, hs, hsk⟩)) _ (silent_iff.mp hkj)

theorem isLeast_closure (a : Automaton) (set : StateSet) :
    IsLeast {t | set.members ⊆ t ∧ a.ClosedUnder [] t} (a.closure set).members :=
  isLeast_of_mem_iff fun _ => mem_closure

theorem isLeast_growThrough (hset : a.Closed set) (anchors : List Anchor) :
    IsLeast {t | set.members ⊆ t ∧ a.ClosedUnder anchors t} (a.growThrough set anchors).members :=
  isLeast_of_mem_iff fun _ => mem_growThrough hset

/-- Sets with the same members are the same, so there is only one least set. -/
theorem eq_of_isLeast {p : Set (Set Nat)} {s t : StateSet} (hs : IsLeast p s.members)
    (ht : IsLeast p t.members) : s = t :=
  Std.ExtTreeSet.ext_mem fun i => Set.ext_iff.mp (hs.unique ht) i

theorem ClosedUnder.congr (h : ∀ m, m ∈ anchors' ↔ m ∈ anchors) :
    a.ClosedUnder anchors' = a.ClosedUnder anchors := by
  funext t
  simp only [ClosedUnder, h]

/-- A set that is closed already does not grow. -/
theorem growThrough_of_closedUnder (h : a.ClosedUnder anchors set.members) :
    a.growThrough set anchors = set := by
  have hset : a.Closed set := fun i hi j hij => h i hi j (.inl hij)
  refine eq_of_isLeast (isLeast_growThrough hset anchors) ⟨⟨subset_rfl, h⟩, ?_⟩
  exact fun t ht => ht.1

/-! ## Rounds -/

theorem mem_growOnce : i ∈ a.growOnce anchors set ↔
    i ∈ set ∨ ∃ m ∈ anchors, i ∈ a.closure (a.crossAnchor set m) := by
  have hfold (grown : StateSet) :
      i ∈ anchors.foldl (fun grown m => grown ∪ a.closure (a.crossAnchor set m)) grown ↔
        i ∈ grown ∨ ∃ m ∈ anchors, i ∈ a.closure (a.crossAnchor set m) := by
    induction anchors generalizing grown with
    | nil => simp
    | cons m ms ih =>
      rw [List.foldl_cons, ih, Std.ExtTreeSet.mem_union_iff, or_assoc]
      simp
  exact hfold set

theorem subset_growOnce (a : Automaton) (anchors : List Anchor) :
    ∀ i ∈ set, i ∈ a.growOnce anchors set := fun _ hi => mem_growOnce.mpr (.inl hi)

theorem closed_growOnce (hset : a.Closed set) (anchors : List Anchor) :
    a.Closed (a.growOnce anchors set) := by
  intro i hi j hij
  rcases mem_growOnce.mp hi with hi | ⟨m, hm, hi⟩
  · exact subset_growOnce a anchors j (hset i hi j hij)
  · exact mem_growOnce.mpr (.inr ⟨m, hm, closed_closure a _ i hi j hij⟩)

/-- A round stays inside every closed set that it begins in. -/
theorem growOnce_subset {t : Set Nat} (ht : a.ClosedUnder anchors t) (hset : set.members ⊆ t) :
    (a.growOnce anchors set).members ⊆ t := by
  intro i hi
  rcases mem_growOnce.mp hi with hi | ⟨m, hm, hi⟩
  · exact hset hi
  · refine (isLeast_closure a (a.crossAnchor set m)).2 ⟨fun k hk => ?_, ?_⟩ hi
    · obtain ⟨s, hs, ⟨l, k⟩, he, rfl, rfl⟩ := mem_crossAnchor.mp hk
      exact ht s (hset hs) k (.inr ⟨m, hm, mem_transitionsOf.mp he⟩)
    · intro k hk j hkj
      rcases hkj with hkj | ⟨_, hm', -⟩
      · exact ht k hk j (.inl hkj)
      · simp at hm'

theorem growThrough_growOnce (hset : a.Closed set) :
    a.growThrough (a.growOnce anchors set) anchors = a.growThrough set anchors := by
  have hgrown := isLeast_growThrough hset anchors
  refine eq_of_isLeast (isLeast_growThrough (closed_growOnce hset anchors) anchors)
    ⟨⟨growOnce_subset hgrown.1.2 hgrown.1.1, hgrown.1.2⟩, fun t ht => hgrown.2 ⟨?_, ht.2⟩⟩
  exact fun i hi => ht.1 (subset_growOnce a anchors i hi)

/-- A round that does not make the set larger finds nothing to add. -/
theorem closedUnder_of_size_eq (hset : a.Closed set)
    (h : (a.growOnce anchors set).size = set.size) : a.ClosedUnder anchors set.members := by
  have hsame : set = a.growOnce anchors set :=
    StateSet.eq_of_size_le (subset_growOnce a anchors) (Nat.le_of_eq h)
  rintro i hi j (hij | ⟨m, hm, hij⟩)
  · exact hset i hi j hij
  · have hcrossed : j ∈ a.crossAnchor set m :=
      mem_crossAnchor.mpr ⟨i, hi, ⟨.anchor m, j⟩, mem_transitionsOf.mpr hij, rfl, rfl⟩
    change j ∈ set
    rw [hsame]
    exact mem_growOnce.mpr (.inr ⟨m, hm, mem_closure.mpr ⟨j, hcrossed, .refl⟩⟩)

theorem RoundsTo.eq_growThrough (h : a.RoundsTo anchors set final) (hset : a.Closed set) :
    final = a.growThrough set anchors := by
  induction h with
  | last h => exact (growThrough_of_closedUnder (closedUnder_of_size_eq hset h)).symm
  | next _ _ ih => exact (ih (closed_growOnce hset anchors)).trans (growThrough_growOnce hset)

section
variable (h : a.WellFormed)
include h

theorem within_growOnce (hset : a.Within set) (anchors : List Anchor) :
    a.Within (a.growOnce anchors set) := by
  refine growOnce_subset (t := {i | i < a.size}) (fun i hi j hij => ?_) hset
  rcases hij with hij | ⟨_, -, hij⟩
  · exact h.target_lt hij
  · exact h.target_lt hij

/-- Rounds come to an end, as every round but the last one puts in another state. -/
theorem exists_roundsTo (hset : a.Within set) (anchors : List Anchor) :
    ∃ final, a.RoundsTo anchors set final := by
  induction hleft : a.size - set.size using Nat.strong_induction_on generalizing set with
  | _ n ih =>
    by_cases hsize : (a.growOnce anchors set).size = set.size
    · exact ⟨set, .last hsize⟩
    · have hgrown := within_growOnce h hset anchors
      have hle : set.size ≤ (a.growOnce anchors set).size :=
        StateSet.size_le_of_subset (subset_growOnce a anchors)
      have hbound := StateSet.size_le_of_lt hgrown
      obtain ⟨final, hfinal⟩ := ih _ (by omega) hgrown rfl
      exact ⟨final, .next hsize hfinal⟩

theorem roundsTo_iff (hset : a.Proper set) :
    a.RoundsTo anchors set final ↔ final = a.growThrough set anchors := by
  obtain ⟨grown, hgrown⟩ := exists_roundsTo h hset.within anchors
  refine ⟨fun hfinal => hfinal.eq_growThrough hset.closed, ?_⟩
  rintro rfl
  rwa [← hgrown.eq_growThrough hset.closed]

end

/-- Closing a set, and growing a closed one, finds every state that it looks up, and gives the least
set that is closed under the edges in question. Rounds come to the same. The order of the anchors
and their repetitions do not matter, and a second time changes nothing. -/
theorem closures_least (h : a.WellFormed) (hset : a.Within set) :
    (∃ closed, a.closure? set = some closed ∧
      IsLeast {t | set.members ⊆ t ∧ a.ClosedUnder [] t} closed.members) ∧
    (a.ClosedUnder [] set.members → ∀ anchors, ∃ grown, a.growThrough? set anchors = some grown ∧
      IsLeast {t | set.members ⊆ t ∧ a.ClosedUnder anchors t} grown.members ∧
      (∀ final, a.RoundsTo anchors set final ↔ final = grown) ∧
      (∀ anchors', (∀ m, m ∈ anchors' ↔ m ∈ anchors) → a.growThrough? set anchors' = some grown) ∧
      a.growThrough? grown anchors = some grown) := by
  refine ⟨⟨_, closure?_eq h hset, isLeast_closure a set⟩, fun hclosed anchors => ?_⟩
  have hproper : a.Proper set := ⟨hset, fun i hi j hij => hclosed i hi j (.inl hij)⟩
  have hleast := isLeast_growThrough hproper.closed anchors
  refine ⟨_, growThrough?_eq h hproper anchors, hleast, fun final => roundsTo_iff h hproper,
    fun anchors' hsame => ?_, ?_⟩
  · have hleast' := isLeast_growThrough hproper.closed anchors'
    rw [ClosedUnder.congr hsame] at hleast'
    rw [growThrough?_eq h hproper, eq_of_isLeast hleast' hleast]
  · have hgrown : a.Proper (a.growThrough set anchors) :=
      ⟨within_growThrough h hset hproper.closed, closed_growThrough hproper.closed⟩
    rw [growThrough?_eq h hgrown, growThrough_of_closedUnder hleast.1.2]

/-- A ring of four states: an anchor of each kind, and an epsilon edge behind either. -/
def anchorRing : Automaton where
  states := #[⟨[⟨.anchor .textStart, 1⟩], []⟩, ⟨[], [2]⟩, ⟨[⟨.anchor .textEnd, 3⟩], []⟩, ⟨[], [0]⟩]
  start := 0
  accepting := {3}

/-- Two rounds go round the ring, and a third one adds nothing. -/
theorem closures_least_anchorRing :
    let set := anchorRing.closure {3}
    let anchors := [.textEnd, .textStart, .textEnd]
    anchorRing.WellFormed ∧ anchorRing.Within set ∧ anchorRing.ClosedUnder [] set.members ∧
      set.toList = [0, 3] ∧
      (anchorRing.growOnce anchors set).toList = [0, 1, 2, 3] ∧
      ∃ grown, anchorRing.growThrough? set anchors = some grown ∧
        IsLeast {t | set.members ⊆ t ∧ anchorRing.ClosedUnder anchors t} grown.members ∧
        (∀ final, anchorRing.RoundsTo anchors set final ↔ final = grown) ∧
        anchorRing.growThrough? set [.textStart, .textEnd] = some grown := by
  intro set anchors
  have hwell : anchorRing.WellFormed := by decide
  have hset : anchorRing.Within set := within_closure hwell (by simp [Within, anchorRing, size])
  have hclosed := (isLeast_closure anchorRing {3}).1.2
  obtain ⟨grown, hgrown, hleast, hrounds, hsame, -⟩ :=
    (closures_least hwell hset).2 hclosed anchors
  exact ⟨hwell, hset, hclosed, by decide +kernel, by decide +kernel, grown, hgrown, hleast, hrounds,
    hsame _ (by simp [anchors])⟩

end Automaton

end PatternAutomata
