import Mathlib.Data.List.Nodup
import PatternAutomata.Proofs.Automaton.Laws
import PatternAutomata.Term

/-!
# No epsilon edge twice

Epsilon edges are added one at a time, and never to a target that is listed already. Copies move all
targets up by the same number, pruning renumbers them one to one, and deterministic automata have
none. So no operation ever lists an epsilon target twice.
-/
namespace PatternAutomata

namespace State
variable {s : State}

theorem nodup_addEpsilon (h : s.epsilons.Nodup) (t : Nat) : (s.addEpsilon t).epsilons.Nodup := by
  by_cases ht : t ∈ s.epsilons
  · simpa [addEpsilon, ht] using h
  · simpa [addEpsilon, ht] using h.concat ht

theorem nodup_shift (h : s.epsilons.Nodup) (n : Nat) : (s.shift n).epsilons.Nodup :=
  h.map fun _ _ hij => Nat.add_right_cancel hij

theorem nodup_renumber {number : Nat → Option Nat} (h : s.epsilons.Nodup)
    (hnumber : ∀ i j m, number i = some m → number j = some m → i = j) :
    (s.renumber number).epsilons.Nodup :=
  h.filterMap hnumber

end State

namespace Automaton

/-- No state lists an epsilon target twice. -/
def Tidy (a : Automaton) : Prop := ∀ s ∈ a.states.toList, s.epsilons.Nodup

instance (a : Automaton) : Decidable a.Tidy := inferInstanceAs (Decidable (∀ _ ∈ _, _))

theorem tidy_emptyText : emptyText.Tidy := by decide

theorem tidy_nothing : nothing.Tidy := by decide

theorem Tabular.tidy {d : Automaton} (h : d.Tabular) : d.Tidy := by
  intro s hs
  obtain ⟨row, -, rfl⟩ := h s hs
  exact List.nodup_nil

namespace Tidy
variable {a b : Automaton} {i : Nat}

/-! ## Single edges -/

/-- A change of one state keeps the others as they are. -/
theorem modify {f : State → State} (h : a.Tidy)
    (hf : ∀ s : State, s.epsilons.Nodup → (f s).epsilons.Nodup) :
    Tidy { a with states := a.states.modify i f } := by
  intro s hs
  obtain ⟨k, hk⟩ := Array.mem_iff_getElem?.mp (Array.mem_toList_iff.mp hs)
  have hold (s : State) (hs : a.states[k]? = some s) : s.epsilons.Nodup :=
    h s (Array.mem_toList_iff.mpr (Array.mem_of_getElem? hs))
  rw [Array.getElem?_modify] at hk
  by_cases hik : i = k
  · rw [if_pos hik] at hk
    obtain ⟨s₀, hs₀, rfl⟩ := Option.map_eq_some_iff.mp hk
    exact hf s₀ (hold s₀ hs₀)
  · rw [if_neg hik] at hk
    exact hold s hk

theorem addEdge (h : a.Tidy) (i : Nat) (l : Label) (j : Nat) : (a.addEdge i l j).Tidy :=
  h.modify fun _ hs => hs

theorem addEpsilon (h : a.Tidy) (i j : Nat) : (a.addEpsilon i j).Tidy :=
  h.modify fun _ hs => State.nodup_addEpsilon hs j

theorem addEpsilons (h : a.Tidy) (sources : List Nat) (j : Nat) :
    (a.addEpsilons sources j).Tidy := by
  induction sources generalizing a with
  | nil => exact h
  | cons s sources ih => exact ih (h.addEpsilon s j)

theorem newState (h : a.Tidy) : a.newState.Tidy := by
  intro s hs
  have hmem : s ∈ a.states ∨ s = {} := by simpa [Automaton.newState] using hs
  cases hmem with
  | inl hs => exact h s (Array.mem_toList_iff.mpr hs)
  | inr hs =>
    rw [hs]
    exact List.nodup_nil

theorem startAt (h : a.Tidy) (i : Nat) : (a.startAt i).Tidy := h

theorem markAccepting (h : a.Tidy) (i : Nat) (on : Bool) : (a.markAccepting i on).Tidy := h

/-! ## Copies side by side -/

theorem of_mem_shift (h : a.Tidy) {n : Nat} {s : State} (hs : s ∈ a.states.map (·.shift n)) :
    s.epsilons.Nodup := by
  obtain ⟨s₀, hs₀, rfl⟩ := Array.mem_map.mp hs
  exact State.nodup_shift (h s₀ (Array.mem_toList_iff.mpr hs₀)) n

theorem union (ha : a.Tidy) (hb : b.Tidy) : (a.union b).Tidy := by
  intro s hs
  rw [Array.mem_toList_iff, Automaton.union, Array.mem_append, Array.mem_append] at hs
  rcases hs with (hs | hs) | hs
  · obtain rfl : s = (({} : State).addEpsilon (a.start + 1)).addEpsilon (b.start + (1 + a.size)) :=
      by simpa using hs
    exact State.nodup_addEpsilon (State.nodup_addEpsilon List.nodup_nil _) _
  · exact ha.of_mem_shift hs
  · exact hb.of_mem_shift hs

theorem concat (ha : a.Tidy) (hb : b.Tidy) : (a.concat b).Tidy := by
  refine addEpsilons (fun s hs => ?_) _ _
  rcases Array.mem_append.mp (Array.mem_toList_iff.mp hs) with hs | hs
  · exact ha s (Array.mem_toList_iff.mpr hs)
  · exact hb.of_mem_shift hs

theorem star (h : a.Tidy) : a.star.Tidy :=
  (h.newState.addEpsilon a.size a.start).addEpsilons a.accepting.toList a.size

theorem power (h : a.Tidy) (n : Nat) : (a.power n).Tidy := by
  induction n with
  | zero => exact tidy_emptyText
  | succ n ih =>
    rw [power_succ]
    exact ih.concat h

theorem optional (h : a.Tidy) : a.optional.Tidy := h.union tidy_emptyText

theorem of_decomposition (h : a.Tidy) {c : Automaton} {least : Nat} {most : Bound}
    (hc : Decomposition a least most c) : c.Tidy := by
  cases hc with
  | optional => exact h.optional
  | star => exact h.star
  | plus => exact h.concat h.star
  | atLeast => exact (h.power _).concat h.star
  | exactly => exact h.power _
  | between => exact (h.power _).concat (h.optional.power _)

theorem repeatBetween (h : a.Tidy) (least : Nat) (most : Bound) :
    (a.repeatBetween least most).Tidy :=
  h.of_decomposition (decomposition_repeatBetween a least most)

/-! ## Literal pieces -/

theorem spell (h : a.Tidy) (i : Nat) (bytes : List UInt8) : (a.spell i bytes).1.Tidy := by
  induction bytes generalizing a i with
  | nil => exact h
  | cons c bytes ih =>
    rw [Automaton.spell]
    split
    · exact ih h _
    · exact ih (h.newState.addEdge _ _ _) _

theorem trie (strings : ByteStrings) : (trie strings).Tidy := by
  have hfold (list : List (List UInt8)) {a : Automaton} (h : a.Tidy) :
      (list.foldl addString a).Tidy := by
    induction list generalizing a with
    | nil => exact h
    | cons string list ih => exact ih ((h.spell 0 string).markAccepting _ true)
  exact hfold _ tidy_nothing

theorem addRanges (h : a.Tidy) (i : Nat) (ranges : List (UInt8 × UInt8)) :
    (a.addRanges i ranges).Tidy := by
  induction ranges generalizing a i with
  | nil => exact h.addEpsilon i 1
  | cons range ranges ih =>
    cases ranges with
    | nil => exact h.addEdge i _ 1
    | cons next ranges => exact ih (h.newState.addEdge i _ _) _

theorem choice (sequences : List (List (UInt8 × UInt8))) : (choice sequences).Tidy := by
  have hfold (sequences : List (List (UInt8 × UInt8))) {a : Automaton} (h : a.Tidy) :
      (sequences.foldl (fun a ranges => a.addRanges 0 ranges) a).Tidy := by
    induction sequences generalizing a with
    | nil => exact h
    | cons ranges sequences ih => exact ih (h.addRanges 0 ranges)
  exact hfold sequences (by decide)

theorem crossing (m : Anchor) : (crossing m).Tidy := by
  cases m <;> decide

theorem appendTexts (h : a.Tidy) (texts : Texts) (e : Encoding) : (a.appendTexts texts e).Tidy := by
  unfold Automaton.appendTexts
  dsimp only
  split
  · exact tidy_nothing
  · exact h.concat (.trie _)

/-! ## Pruning and deterministic automata -/

/-- Two states that are kept have different numbers. -/
theorem restrict (h : a.Tidy) {kept : List Nat} (hkept : kept.Nodup) (start : Nat) :
    (a.restrict kept start).Tidy := by
  intro s hs
  obtain ⟨s₀, hs₀, rfl⟩ := Array.mem_map.mp (Array.mem_toList_iff.mp hs)
  obtain ⟨i, -, hi⟩ := List.mem_filterMap.mp (List.mem_toArray.mp hs₀)
  refine State.nodup_renumber (h s₀ (Array.mem_toList_iff.mpr (Array.mem_of_getElem? hi))) ?_
  intro j k m hj hk
  have hjm := (getElem?_numbers hkept).mp hj
  have hkm := (getElem?_numbers hkept).mp hk
  exact Option.some.inj (hjm.symm.trans hkm)

theorem prune (h : a.Tidy) : a.prune.Tidy := by
  rcases prune_cases a with ⟨start, -, hprune⟩ | ⟨-, hprune⟩
  · exact hprune ▸ h.restrict (nodup_usefulStates a) start
  · exact hprune ▸ tidy_nothing

theorem determinize (h : a.WellFormed) : a.determinize.Tidy :=
  (determinizeUpTo_tabular h (determinizeUpTo_subsetBound h)).tidy

theorem complement (h : a.WellFormed) : a.complement.Tidy :=
  (determinizeUpTo_tabular h (determinizeUpTo_subsetBound h)).flip.tidy

theorem intersect (ha : a.WellFormed) (hb : b.WellFormed) : (a.intersect b).Tidy := by
  obtain ⟨d, -, htable, heq, -⟩ :=
    exists_pairs_of_intersectUpTo ha hb (intersectUpTo_productBound ha hb)
  rw [heq]
  exact htable.tidy.prune

end Tidy

end Automaton

end PatternAutomata
