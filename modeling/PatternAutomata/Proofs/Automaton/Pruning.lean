import Mathlib.Data.List.Nodup
import PatternAutomata.Automaton.Pruning
import PatternAutomata.Proofs.Automaton.Algebra
import PatternAutomata.Proofs.Automaton.Reach

/-!
# Pruning keeps the meaning

Every state on a path from the start to an accepting state is useful, so the path is still there
when the other states are gone. Nothing is gained either, because kept states keep their edges only.
-/
namespace PatternAutomata.Automaton
open Relation (ReflTransGen)
variable {a : Automaton} {kept : List Nat} {i j m start : Nat} {x : Option Label}

/-- Whether an edge of any kind leads from one state to another. -/
def Linked (a : Automaton) (i j : Nat) : Prop := ∃ x, a.Edge i x j

/-! ## Useful states -/

theorem targetsOf_of_size_le (h : a.size ≤ i) : a.targetsOf i = [] := by
  unfold targetsOf
  rw [Array.getElem?_eq_none h]

theorem mem_reachable : i ∈ a.reachable ↔ ReflTransGen a.Linked a.start i := by
  have h : (fun k j => j ∈ a.targetsOf k) = a.Linked := by
    funext k j
    exact propext mem_targetsOf
  unfold reachable
  rw [mem_reach fun _ => targetsOf_of_size_le, h]
  simp

theorem mem_modify_cons {table : Array (List Nat)} {id t : Nat} :
    i ∈ (table.modify t (id :: ·))[j]?.getD [] ↔
      i ∈ table[j]?.getD [] ∨ j < table.size ∧ i = id ∧ j = t := by
  rw [Array.getElem?_modify]
  by_cases hj : j < table.size
  · by_cases ht : t = j
    · simp [ht, hj, or_comm]
    · have hne : j ≠ t := fun h => ht h.symm
      simp [ht, hj, hne]
  · simp [hj]

theorem size_foldl_modify {table : Array (List Nat)} {id : Nat} {ts : List Nat} :
    (ts.foldl (fun table t => table.modify t (id :: ·)) table).size = table.size := by
  induction ts generalizing table with
  | nil => rfl
  | cons t ts ih => rw [List.foldl_cons, ih, Array.size_modify]

theorem mem_foldl_modify {table : Array (List Nat)} {id : Nat} {ts : List Nat} :
    i ∈ (ts.foldl (fun table t => table.modify t (id :: ·)) table)[j]?.getD [] ↔
      i ∈ table[j]?.getD [] ∨ j < table.size ∧ i = id ∧ j ∈ ts := by
  induction ts generalizing table with
  | nil => simp
  | cons t ts ih =>
    rw [List.foldl_cons, ih, mem_modify_cons, Array.size_modify, List.mem_cons]
    tauto

/-- The table of predecessors holds the edges backwards. -/
theorem mem_predecessors :
    i ∈ a.predecessors[j]?.getD [] ↔ j < a.size ∧ a.Linked i j := by
  have h (ids : List Nat) (table : Array (List Nat)) :
      i ∈ (ids.foldl (fun table id =>
          (a.targetsOf id).foldl (fun table t => table.modify t (id :: ·)) table) table)[j]?.getD []
        ↔ i ∈ table[j]?.getD [] ∨ j < table.size ∧ i ∈ ids ∧ j ∈ a.targetsOf i := by
    induction ids generalizing table with
    | nil => simp
    | cons id ids ih =>
      rw [List.foldl_cons, ih, size_foldl_modify, mem_foldl_modify, List.mem_cons]
      constructor
      · rintro ((h | ⟨hj, rfl, h⟩) | ⟨hj, hi, h⟩)
        · exact .inl h
        · exact .inr ⟨hj, .inl rfl, h⟩
        · exact .inr ⟨hj, .inr hi, h⟩
      · rintro (h | ⟨hj, rfl | hi, h⟩)
        · exact .inl (.inl h)
        · exact .inl (.inr ⟨hj, rfl, h⟩)
        · exact .inr ⟨hj, hi, h⟩
  unfold predecessors
  rw [h, mem_targetsOf, Array.size_replicate, List.mem_range]
  constructor
  · rintro (h | ⟨hj, -, h⟩)
    · rw [Array.getElem?_replicate] at h
      split at h <;> simp at h
    · exact ⟨hj, h⟩
  · rintro ⟨hj, x, h⟩
    exact .inr ⟨hj, h.lt_size, x, h⟩

theorem mem_live (h : a.WellFormed) :
    i ∈ a.live ↔ ∃ f ∈ a.accepting, ReflTransGen a.Linked i f := by
  have hback : (fun k j => j ∈ a.predecessors[k]?.getD []) = Function.swap a.Linked := by
    funext k j
    refine propext (mem_predecessors.trans (and_iff_right_of_imp ?_))
    rintro ⟨x, he⟩
    exact h.target_lt he
  have hout (k : Nat) (hk : a.size ≤ k) : a.predecessors[k]?.getD [] = [] := by
    apply List.eq_nil_iff_forall_not_mem.mpr
    intro j hj
    exact absurd (mem_predecessors.mp hj).1 (Nat.not_lt.mpr hk)
  unfold live
  dsimp only
  rw [mem_reach hout, hback]
  refine exists_congr fun f => and_congr_right fun _ => ?_
  exact Relation.reflTransGen_swap

/-- A state is useful if it lies on a way from the start to an accepting state. -/
def Useful (a : Automaton) (i : Nat) : Prop :=
  ReflTransGen a.Linked a.start i ∧ ∃ f ∈ a.accepting, ReflTransGen a.Linked i f

theorem mem_usefulStates (h : a.WellFormed) : i ∈ a.usefulStates ↔ a.Useful i := by
  have hlt (hi : ReflTransGen a.Linked a.start i) : i < a.size := by
    cases hi with
    | refl => exact h.start_lt
    | tail _ hl =>
      obtain ⟨x, he⟩ := hl
      exact h.target_lt he
  unfold usefulStates Useful
  simp only [List.mem_filter, List.mem_range, Bool.and_eq_true, Std.ExtTreeSet.contains_iff_mem]
  rw [mem_reachable, mem_live h]
  exact and_iff_right_of_imp fun hi => hlt hi.1

theorem nodup_usefulStates (a : Automaton) : a.usefulStates.Nodup :=
  List.nodup_range.filter _

/-! ## Renumbering -/

theorem leads_renumber {number : Nat → Option Nat} {s : State} :
    (s.renumber number).Leads x m ↔ ∃ j, s.Leads x j ∧ number j = some m := by
  cases x with
  | none => simp [State.Leads, State.renumber]
  | some l =>
    simp only [State.Leads, State.renumber, List.mem_filterMap, Option.map_eq_some_iff,
      Transition.mk.injEq]
    constructor
    · rintro ⟨⟨_, j⟩, h, _, hm, rfl, rfl⟩
      exact ⟨j, h, hm⟩
    · rintro ⟨j, h, hm⟩
      exact ⟨⟨l, j⟩, h, m, hm, rfl, rfl⟩

theorem getElem?_filterMap {α β : Type} {f : α → Option β} {xs : List α}
    (h : ∀ x ∈ xs, (f x).isSome = true) (m : Nat) : (xs.filterMap f)[m]? = xs[m]?.bind f := by
  induction xs generalizing m with
  | nil => rfl
  | cons x xs ih =>
    obtain ⟨y, hy⟩ := Option.isSome_iff_exists.mp (h x List.mem_cons_self)
    rw [List.filterMap_cons_some hy]
    cases m with
    | zero => simp [hy]
    | succ m => exact ih (fun x hx => h x (List.mem_cons_of_mem _ hx)) m

/-- The new number of a state is its place among the kept ones. -/
theorem getElem?_numbers (hkept : kept.Nodup) :
    (Std.TreeMap.ofList kept.zipIdx)[i]? = some m ↔ kept[m]? = some i := by
  have hplace {m : Nat} (h : kept[m]? = some i) :
      (Std.TreeMap.ofList kept.zipIdx)[i]? = some m := by
    refine Std.TreeMap.getElem?_ofList_of_mem (Std.ReflCmp.compare_self) ?_
      (List.mk_mem_zipIdx_iff_getElem?.mpr h)
    have hfst : (kept.zipIdx.map (·.1)).Nodup := by simpa using hkept
    refine (List.pairwise_map.mp hfst).imp fun hne => ?_
    rwa [Std.LawfulEqCmp.compare_eq_iff_eq]
  refine ⟨fun h => ?_, hplace⟩
  by_cases hi : i ∈ kept
  · obtain ⟨m', hm'⟩ := List.getElem?_of_mem hi
    rw [hplace hm', Option.some.injEq] at h
    exact h ▸ hm'
  · have hnone : (Std.TreeMap.ofList kept.zipIdx)[i]? = none := by
      refine Std.TreeMap.getElem?_ofList_of_contains_eq_false ?_
      simpa using hi
    rw [hnone] at h
    simp at h

/-- The state of a number is the one kept at that place, with its targets renumbered. -/
theorem getElem?_states_restrict (hlt : ∀ i ∈ kept, i < a.size) (start m : Nat) :
    (a.restrict kept start).states[m]? =
      (kept[m]?.bind (a.states[·]?)).map (·.renumber ((Std.TreeMap.ofList kept.zipIdx)[·]?)) := by
  have hsome (i : Nat) (hi : i ∈ kept) : (a.states[i]?).isSome = true := by
    rw [Array.getElem?_eq_getElem (hlt i hi)]
    rfl
  unfold restrict
  dsimp only
  rw [Array.getElem?_map, List.getElem?_toArray, getElem?_filterMap hsome]

theorem edge_restrict (hkept : kept.Nodup) (hlt : ∀ i ∈ kept, i < a.size) {m' : Nat} :
    (a.restrict kept start).Edge m x m' ↔
      ∃ i j, kept[m]? = some i ∧ kept[m']? = some j ∧ a.Edge i x j := by
  unfold Edge edgesOf
  rw [getElem?_states_restrict hlt]
  simp only [Option.map_eq_some_iff, Option.bind_eq_some_iff]
  constructor
  · rintro ⟨_, ⟨st, ⟨i, hi, hst⟩, rfl⟩, hx⟩
    obtain ⟨j, hj, hm⟩ := leads_renumber.mp hx
    exact ⟨i, j, hi, (getElem?_numbers hkept).mp hm, st, hst, hj⟩
  · rintro ⟨i, j, hi, hj, st, hst, hx⟩
    exact ⟨_, ⟨st, ⟨i, hi, hst⟩, rfl⟩,
      leads_renumber.mpr ⟨j, hx, (getElem?_numbers hkept).mpr hj⟩⟩

theorem mem_accepting_restrict (hkept : kept.Nodup) :
    m ∈ (a.restrict kept start).accepting ↔ ∃ f ∈ a.accepting, kept[m]? = some f := by
  simp only [restrict, Std.ExtTreeSet.mem_ofList, List.contains_iff_mem, List.mem_filterMap,
    Std.ExtTreeSet.mem_toList, getElem?_numbers hkept]

theorem size_restrict (start : Nat) (hlt : ∀ i ∈ kept, i < a.size) :
    (a.restrict kept start).size = kept.length := by
  have h : (kept.filterMap (a.states[·]?)).length = kept.length := by
    apply List.filterMap_length_eq_length.mpr
    intro i hi
    rw [Array.getElem?_eq_getElem (hlt i hi)]
    rfl
  simpa [restrict, size] using h

/-! ## The law -/

theorem linked_of_path {b e : Bool} {w : List UInt8} (hp : Path a.Edge e b i w j) :
    ReflTransGen a.Linked i j := by
  induction hp with
  | refl => exact .refl
  | silent he _ _ ih => exact .head ⟨_, he⟩ ih
  | byte he _ _ ih => exact .head ⟨_, he⟩ ih

theorem lt_of_mem_usefulStates : ∀ i ∈ a.usefulStates, i < a.size := by
  intro i hi
  exact List.mem_range.mp (List.mem_filter.mp hi).1

theorem edge_useful {m' : Nat} : (a.restrict a.usefulStates start).Edge m x m' ↔
    ∃ i j, a.usefulStates[m]? = some i ∧ a.usefulStates[m']? = some j ∧ a.Edge i x j :=
  edge_restrict (nodup_usefulStates a) lt_of_mem_usefulStates

/-- Pruning keeps the useful states when the start is one of them, and leaves nothing otherwise. -/
theorem prune_cases (a : Automaton) :
    (∃ start, a.usefulStates[start]? = some a.start ∧
        a.prune = a.restrict a.usefulStates start) ∨
      a.start ∉ a.usefulStates ∧ a.prune = nothing := by
  unfold prune
  dsimp only
  split
  · next start hstart =>
    obtain ⟨hlt, heq, -⟩ := List.idxOf?_eq_some_iff.mp hstart
    exact .inl ⟨start, List.getElem?_eq_some_iff.mpr ⟨hlt, heq⟩, rfl⟩
  · next hnone => exact .inr ⟨List.idxOf?_eq_none_iff.mp hnone, rfl⟩

section
variable (h : a.WellFormed)
include h

/-- A path from a useful state to an accepting one meets useful states only. -/
theorem path_restrict {b e : Bool} {w : List UInt8} {f : Nat} (hf : f ∈ a.accepting)
    (hi : ReflTransGen a.Linked a.start i) (hm : a.usefulStates[m]? = some i)
    (hp : Path a.Edge e b i w f) : ∃ m', a.usefulStates[m']? = some f ∧
      Path (a.restrict a.usefulStates start).Edge e b m w m' := by
  induction hp generalizing m with
  | refl b i => exact ⟨m, hm, .refl b m⟩
  | silent he hx rest ih =>
    have hj := hi.tail ⟨_, he⟩
    obtain ⟨n, hn⟩ := List.getElem?_of_mem
      ((mem_usefulStates h).mpr ⟨hj, _, hf, linked_of_path rest⟩)
    obtain ⟨m', hm', hp⟩ := ih hf hj hn
    exact ⟨m', hm', .silent (edge_useful.mpr ⟨_, _, hm, hn, he⟩) hx hp⟩
  | byte he hl rest ih =>
    have hj := hi.tail ⟨_, he⟩
    obtain ⟨n, hn⟩ := List.getElem?_of_mem
      ((mem_usefulStates h).mpr ⟨hj, _, hf, linked_of_path rest⟩)
    obtain ⟨m', hm', hp⟩ := ih hf hj hn
    exact ⟨m', hm', .byte (edge_useful.mpr ⟨_, _, hm, hn, he⟩) hl hp⟩

theorem meaning_prune : a.prune.meaning = a.meaning := by
  rcases prune_cases a with ⟨start, hstart, hprune⟩ | ⟨hnone, hprune⟩
  · rw [hprune]
    apply Meaning.ext
    intro b w e
    constructor
    · rintro ⟨m, hm, hp⟩
      obtain ⟨f, hf, hmf⟩ := (mem_accepting_restrict (nodup_usefulStates a)).mp hm
      refine ⟨f, hf, ?_⟩
      have hback (m : Nat) (x : Option Label) (m' : Nat)
          (he : (a.restrict a.usefulStates start).Edge m x m') :
          a.Edge (a.usefulStates[m]?.getD 0) x (a.usefulStates[m']?.getD 0) := by
        obtain ⟨i, j, hi, hj, he⟩ := edge_useful.mp he
        simpa [hi, hj] using he
      simpa [hmf, hstart, restrict] using hp.map (fun m => a.usefulStates[m]?.getD 0) hback
    · rintro ⟨f, hf, hp⟩
      obtain ⟨m, hm, hp⟩ := path_restrict h hf .refl hstart hp
      exact ⟨m, (mem_accepting_restrict (nodup_usefulStates a)).mpr ⟨f, hf, hm⟩, hp⟩
  · rw [hprune, meaning_nothing]
    refine Meaning.ext fun b w e => ⟨False.elim, ?_⟩
    rintro ⟨f, hf, hp⟩
    exact hnone ((mem_usefulStates h).mpr ⟨.refl, f, hf, linked_of_path hp⟩)

end

theorem size_prune_le (h : a.WellFormed) : a.prune.size ≤ a.size := by
  rcases prune_cases a with ⟨start, -, hprune⟩ | ⟨-, hprune⟩
  · rw [hprune, size_restrict _ lt_of_mem_usefulStates]
    exact List.length_range (n := a.size) ▸ List.length_filter_le _ _
  · rw [hprune]
    exact Nat.lt_of_le_of_lt (Nat.zero_le _) h.start_lt

theorem WellFormed.prune (a : Automaton) : a.prune.WellFormed := by
  rcases prune_cases a with ⟨start, hstart, hprune⟩ | ⟨-, hprune⟩
  · have hsize := size_restrict start (lt_of_mem_usefulStates (a := a))
    have hlt {m i : Nat} (hm : a.usefulStates[m]? = some i) : m < a.usefulStates.length :=
      (List.getElem?_eq_some_iff.mp hm).1
    rw [hprune]
    refine wellFormed_iff.mpr ⟨?_, ?_, ?_⟩
    · rw [hsize]
      exact hlt hstart
    · intro m x m' he
      obtain ⟨i, j, -, hj, -⟩ := edge_useful.mp he
      rw [hsize]
      exact hlt hj
    · intro m hm
      obtain ⟨f, -, hm⟩ := (mem_accepting_restrict (nodup_usefulStates a)).mp hm
      rw [hsize]
      exact hlt hm
  · rw [hprune]
    exact wellFormed_nothing

end PatternAutomata.Automaton
