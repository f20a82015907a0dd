import Mathlib.Data.List.Sort
import PatternAutomata.Proofs.Automaton.Laws
import PatternAutomata.Proofs.Automaton.Lookup

/-!
# What pruning leaves

Pruning leaves the useful states and the edges between them, all in their order. Whatever lies on a
way from the start to an accepting state is useful itself, so that the ways are still there and the
states that are left are useful in what is left. Pruning once more finds nothing to drop.
-/
namespace PatternAutomata

theorem State.renumber_self {number : Nat → Option Nat} {s : State}
    (h : ∀ j ∈ s.targets, number j = some j) : s.renumber number = s := by
  have htransitions : s.transitions.filterMap
      (fun t => (number t.target).map (⟨t.label, ·⟩)) = s.transitions := by
    refine (List.filterMap_congr fun t ht => ?_).trans List.filterMap_some
    rw [h t.target (List.mem_append_left _ (List.mem_map_of_mem ht)), Option.map_some]
  have hepsilons : s.epsilons.filterMap number = s.epsilons := by
    refine (List.filterMap_congr fun j hj => ?_).trans List.filterMap_some
    exact h j (List.mem_append_right _ hj)
  rw [renumber, htransitions, hepsilons]

theorem State.renumber_eq {number : Nat → Option Nat} {kept : List Nat} {place : Nat → Nat}
    (h : ∀ j, number j = if j ∈ kept then some (place j) else none) (s : State) :
    s.renumber number =
      { transitions := (s.transitions.filter (·.target ∈ kept)).map fun t =>
          ⟨t.label, place t.target⟩
        epsilons := (s.epsilons.filter (· ∈ kept)).map place } := by
  simp only [renumber, funext h, ← List.filterMap_eq_map, List.filterMap_filter]
  congr 1
  · refine List.filterMap_congr fun t _ => ?_
    by_cases ht : t.target ∈ kept <;> simp [ht]
  · refine List.filterMap_congr fun j _ => ?_
    by_cases hj : j ∈ kept <;> simp [hj]

namespace Automaton
open Relation (ReflTransGen)
variable {a d : Automaton} {kept : List Nat} {i j m m' start : Nat}

/-- What is left of `a` when the states of a list are kept and all others are gone. A state that is
kept has its place in the list for its number. Of its edges those to kept states are left, in their
order. -/
structure Restriction (a : Automaton) (kept : List Nat) (d : Automaton) : Prop where
  size_eq : d.size = kept.length
  start_eq : kept[d.start]? = some a.start
  accepting_iff : ∀ m, m ∈ d.accepting ↔ ∃ f ∈ a.accepting, kept[m]? = some f
  transitions_eq : ∀ m i, kept[m]? = some i → d.transitionsOf m =
    ((a.transitionsOf i).filter (·.target ∈ kept)).map fun t => ⟨t.label, kept.idxOf t.target⟩
  epsilons_eq : ∀ m i, kept[m]? = some i → d.epsilonsOf m =
    ((a.epsilonsOf i).filter (· ∈ kept)).map kept.idxOf

/-! ## Keeping some states -/

theorem getElem?_numbers_eq (hkept : kept.Nodup) (i : Nat) :
    (Std.TreeMap.ofList kept.zipIdx)[i]? = if i ∈ kept then some (kept.idxOf i) else none := by
  split
  · next hi => exact (getElem?_numbers hkept).mpr (List.getElem?_idxOf hi)
  · next hi =>
    refine Option.eq_none_iff_forall_ne_some.mpr fun m hm => hi ?_
    exact List.mem_of_getElem? ((getElem?_numbers hkept).mp hm)

theorem restriction_restrict (hkept : kept.Nodup) (hlt : ∀ i ∈ kept, i < a.size)
    (hstart : kept[start]? = some a.start) : a.Restriction kept (a.restrict kept start) := by
  have hstate (m i : Nat) (hm : kept[m]? = some i) : ∃ s, a.states[i]? = some s ∧
      (a.restrict kept start).states[m]? =
        some (s.renumber ((Std.TreeMap.ofList kept.zipIdx)[·]?)) := by
    have hi := hlt i (List.mem_of_getElem? hm)
    refine ⟨a.states[i], Array.getElem?_eq_getElem hi, ?_⟩
    rw [getElem?_states_restrict hlt, hm, Option.bind_some, Array.getElem?_eq_getElem hi,
      Option.map_some]
  refine ⟨size_restrict start hlt, hstart, fun m => mem_accepting_restrict hkept, ?_, ?_⟩
  · intro m i hm
    obtain ⟨s, hs, hm⟩ := hstate m i hm
    simp only [transitionsOf, hs, hm, State.renumber_eq (getElem?_numbers_eq hkept)]
  · intro m i hm
    obtain ⟨s, hs, hm⟩ := hstate m i hm
    simp only [epsilonsOf, hs, hm, State.renumber_eq (getElem?_numbers_eq hkept)]

/-- Keeping all states changes nothing. -/
theorem restrict_range (h : d.WellFormed) : d.restrict (List.range d.size) d.start = d := by
  have hplace {i m : Nat} : (List.range d.size)[m]? = some i ↔ m = i ∧ i < d.size := by
    rw [List.getElem?_eq_some_iff]
    constructor
    · rintro ⟨hm, rfl⟩
      simpa using hm
    · rintro ⟨rfl, hi⟩
      exact ⟨by simpa using hi, List.getElem_range _⟩
  have hstates : (d.restrict (List.range d.size) d.start).states = d.states := by
    apply Array.ext_getElem?
    intro m
    rw [getElem?_states_restrict fun _ => List.mem_range.mp]
    by_cases hm : m < d.size
    · rw [hplace.mpr ⟨rfl, hm⟩, Option.bind_some]
      refine (Option.map_congr fun s hs => State.renumber_self fun j hj => ?_).trans Option.map_id'
      obtain ⟨x, hx⟩ := State.mem_targets.mp hj
      exact (getElem?_numbers List.nodup_range).mpr (hplace.mpr ⟨rfl, h.target_lt ⟨s, hs, hx⟩⟩)
    · rw [List.getElem?_eq_none (by simpa using hm), Array.getElem?_eq_none (Nat.not_lt.mp hm)]
      rfl
  have haccepting : (d.restrict (List.range d.size) d.start).accepting = d.accepting := by
    apply Std.ExtTreeSet.ext_mem
    intro m
    rw [mem_accepting_restrict List.nodup_range]
    simp only [hplace]
    constructor
    · rintro ⟨f, hf, rfl, -⟩
      exact hf
    · intro hm
      exact ⟨m, hm, rfl, h.accepting_lt hm⟩
  calc d.restrict (List.range d.size) d.start
      = ⟨(d.restrict (List.range d.size) d.start).states, d.start,
          (d.restrict (List.range d.size) d.start).accepting⟩ := rfl
    _ = d := by rw [hstates, haccepting]

/-! ## Useful states -/

/-- On a way from a useful state to a useful state there are useful states only, so it is still
there when the others are gone. -/
theorem linked_restrict (h : a.WellFormed) (hi : a.Useful i) (hj : a.Useful j)
    (hij : ReflTransGen a.Linked i j) (hm : a.usefulStates[m]? = some i)
    (hm' : a.usefulStates[m']? = some j) :
    ReflTransGen (a.restrict a.usefulStates start).Linked m m' := by
  induction hij using ReflTransGen.head_induction_on generalizing m with
  | refl =>
    obtain rfl : m = m' := by
      obtain ⟨hlt, -⟩ := List.getElem?_eq_some_iff.mp hm
      exact (List.getElem?_inj hlt (nodup_usefulStates a)).mp (hm.trans hm'.symm)
    exact .refl
  | @head i k hik hkj ih =>
    have hk : a.Useful k := by
      obtain ⟨-, f, hf, hjf⟩ := hj
      exact ⟨hi.1.tail hik, f, hf, hkj.trans hjf⟩
    obtain ⟨n, hn⟩ := List.getElem?_of_mem ((mem_usefulStates h).mpr hk)
    obtain ⟨x, he⟩ := hik
    exact .head ⟨x, edge_useful.mpr ⟨i, k, hm, hn, he⟩⟩ (ih hk hn)

/-- What is kept is as useful among the kept states as it was among all of them. -/
theorem useful_restrict (h : a.WellFormed) (hstart : a.usefulStates[start]? = some a.start)
    (hm : m < a.usefulStates.length) : (a.restrict a.usefulStates start).Useful m := by
  have hkept {n k : Nat} (hn : a.usefulStates[n]? = some k) : a.Useful k :=
    (mem_usefulStates h).mp (List.mem_of_getElem? hn)
  have hi := List.getElem?_eq_getElem hm
  have huseful := hkept hi
  obtain ⟨hreach, f, hf, hif⟩ := hkept hi
  have hfuseful : a.Useful f := ⟨hreach.trans hif, f, hf, .refl⟩
  obtain ⟨n, hn⟩ := List.getElem?_of_mem ((mem_usefulStates h).mpr hfuseful)
  refine ⟨linked_restrict h (hkept hstart) huseful hreach hstart hi, n, ?_, ?_⟩
  · exact (mem_accepting_restrict (nodup_usefulStates a)).mpr ⟨f, hf, hn⟩
  · exact linked_restrict h huseful hfuseful hif hi hn

/-- Where all states are useful, there is nothing to drop. -/
theorem prune_eq_self (h : d.WellFormed) (huseful : ∀ i < d.size, d.Useful i) : d.prune = d := by
  have hall : d.usefulStates = List.range d.size := by
    unfold usefulStates
    refine List.filter_eq_self.mpr fun i hi => ?_
    have hmem := (mem_usefulStates h).mpr (huseful i (List.mem_range.mp hi))
    exact (List.mem_filter.mp hmem).2
  rcases prune_cases d with ⟨start, hstart, hprune⟩ | ⟨hnone, -⟩
  · rw [hall] at hstart hprune
    obtain ⟨hlt, rfl⟩ : d.start < d.size ∧ start = d.start := by
      obtain ⟨hlt, heq⟩ := List.getElem?_eq_some_iff.mp hstart
      rw [List.getElem_range] at heq
      exact ⟨h.start_lt, heq⟩
    rw [hprune, restrict_range h]
  · exact absurd ((mem_usefulStates h).mpr (huseful d.start h.start_lt)) hnone

theorem prune_nothing : nothing.prune = nothing := by
  refine (prune_eq_nothing_iff wellFormed_nothing).mpr ?_
  simp [Useful, nothing]

/-- Pruning changes nothing of what is matched, and all that it does is to keep the useful states
and their edges in order. Either all that is left is useful, or nothing was. -/
theorem prune_law (h : a.WellFormed) :
    a.prune? = some a.prune ∧ (∀ b w e, a.prune.meaning b w e ↔ a.meaning b w e) ∧
      (a.prune = nothing ∧ (∀ i, ¬ a.Useful i) ∨
        (∀ i < a.prune.size, a.prune.Useful i) ∧ ∃ kept : List Nat, kept.Pairwise (· < ·) ∧
          (∀ i, i ∈ kept ↔ a.Useful i) ∧ a.Restriction kept a.prune) ∧
      a.prune.prune = a.prune := by
  refine ⟨prune?_eq h, fun b w e => by rw [meaning_prune h], ?_⟩
  rcases prune_cases a with ⟨start, hstart, hprune⟩ | ⟨hnone, hprune⟩
  · have hlt := lt_of_mem_usefulStates (a := a)
    have huseful : ∀ i < a.prune.size, a.prune.Useful i := by
      intro m hm
      rw [hprune, size_restrict start hlt] at hm
      exact hprune ▸ useful_restrict h hstart hm
    refine ⟨.inr ⟨huseful, a.usefulStates, ?_, fun i => mem_usefulStates h, ?_⟩,
      prune_eq_self (.prune a) huseful⟩
    · exact List.pairwise_lt_range.filter _
    · exact hprune ▸ restriction_restrict (nodup_usefulStates a) hlt hstart
  · have hnone' : ∀ i, ¬ a.Useful i := by
      rintro i ⟨hreach, f, hf, hif⟩
      exact hnone ((mem_usefulStates h).mpr ⟨.refl, f, hf, hreach.trans hif⟩)
    refine ⟨.inl ⟨hprune, hnone'⟩, ?_⟩
    rw [hprune]
    exact prune_nothing

/-- A state that only leads back to itself, an accepting state that nothing leads to and, around
the start, a cycle. -/
def tangled : Automaton where
  states := #[
    { transitions := [⟨.bytes 1 2, 3⟩, ⟨.anchor .textStart, 1⟩], epsilons := [4, 1] },
    { transitions := [⟨.bytes 0 255, 1⟩] },
    { epsilons := [2, 3] },
    { transitions := [⟨.bytes 9 9, 1⟩, ⟨.bytes 7 7, 4⟩], epsilons := [0] },
    { transitions := [⟨.anchor .textEnd, 3⟩] }]
  start := 3
  accepting := {2, 4}

theorem prune_tangled : tangled.WellFormed ∧ tangled.prune? = some tangled.prune ∧
    (∀ b w e, tangled.prune.meaning b w e ↔ tangled.meaning b w e) ∧
    (∀ i < tangled.prune.size, tangled.prune.Useful i) ∧
    tangled.Restriction [0, 3, 4] tangled.prune ∧ tangled.prune.prune = tangled.prune := by
  have h : tangled.WellFormed := by decide
  obtain ⟨hsome, hmeaning, ⟨hnothing, -⟩ | ⟨huseful, kept, hsorted, hmem, hleft⟩, htwice⟩ :=
    prune_law h
  · exact absurd hnothing (by decide +kernel)
  · have hkept : kept = [0, 3, 4] := by
      have hlist : tangled.usefulStates = [0, 3, 4] := by decide +kernel
      refine hsorted.eq_of_mem_iff (by decide) fun i => ?_
      rw [hmem, ← hlist, mem_usefulStates h]
    exact ⟨h, hsome, hmeaning, huseful, hkept ▸ hleft, htwice⟩

end Automaton

end PatternAutomata
