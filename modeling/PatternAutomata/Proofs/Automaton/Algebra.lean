import PatternAutomata.Proofs.Automaton.Path

/-!
# The meaning of union, concatenation and closure

Each operation is described by the edges of its result first. The laws follow by induction on paths:
a path of the result runs through the copies of the operands, and the joints say where it may change
from one to the other.
-/
namespace PatternAutomata

/-! ## Edges of tables -/

section
variable {table table' : Array State} {i j n s : Nat} {x : Option Label}

theorem edgesOf_append : edgesOf (table ++ table') i x j ↔
    edgesOf table i x j ∨ ∃ i', i' + table.size = i ∧ edgesOf table' i' x j := by
  unfold edgesOf
  rw [Array.getElem?_append]
  split
  · next h =>
    constructor
    · exact .inl
    · rintro (h' | ⟨i', hi, -⟩)
      · exact h'
      · omega
  · next h =>
    constructor
    · intro h'
      exact .inr ⟨i - table.size, by omega, h'⟩
    · rintro (⟨st, hs, -⟩ | ⟨i', rfl, h'⟩)
      · exact absurd (Array.getElem?_eq_some_iff.mp hs).1 h
      · simpa using h'

theorem edgesOf_shift :
    edgesOf (table.map (·.shift n)) i x j ↔ ∃ j', j' + n = j ∧ edgesOf table i x j' := by
  unfold edgesOf
  simp only [Array.getElem?_map, Option.map_eq_some_iff]
  constructor
  · rintro ⟨_, ⟨st, hs, rfl⟩, h⟩
    obtain ⟨j', h', hj⟩ := State.leads_shift.mp h
    exact ⟨j', hj, st, hs, h'⟩
  · rintro ⟨j', hj, st, hs, h⟩
    exact ⟨_, ⟨st, hs, rfl⟩, State.leads_shift.mpr ⟨j', h, hj⟩⟩

/-- Changing one state adds the edges that the change adds to it. -/
theorem edgesOf_modify {f : State → State} {new : Option Label → Nat → Prop}
    (hf : ∀ st x j, (f st).Leads x j ↔ st.Leads x j ∨ new x j) :
    edgesOf (table.modify s f) i x j ↔ edgesOf table i x j ∨ i = s ∧ s < table.size ∧ new x j := by
  unfold edgesOf
  rw [Array.getElem?_modify]
  by_cases his : s = i
  · subst his
    by_cases hlt : s < table.size
    · simp [hlt, hf]
    · simp [hlt]
  · have : i ≠ s := fun h => his h.symm
    simp [his, this]

end

namespace Automaton
variable {a b : Automaton} {i j s t : Nat} {x : Option Label}

@[simp] theorem edge_newState : a.newState.Edge i x j ↔ a.Edge i x j := by
  unfold Edge newState edgesOf
  simp only [Array.getElem?_push]
  split
  · next h => simp [h]
  · rfl

theorem edge_addEdge {l : Label} :
    (a.addEdge s l t).Edge i x j ↔ a.Edge i x j ∨ i = s ∧ s < a.size ∧ x = some l ∧ j = t :=
  edgesOf_modify fun _ _ _ => State.leads_addEdge

theorem edge_addEpsilon :
    (a.addEpsilon s t).Edge i x j ↔ a.Edge i x j ∨ i = s ∧ s < a.size ∧ x = none ∧ j = t :=
  edgesOf_modify fun _ _ _ => State.leads_addEpsilon

theorem edge_addEpsilons {sources : List Nat} : (a.addEpsilons sources t).Edge i x j ↔
    a.Edge i x j ∨ i ∈ sources ∧ i < a.size ∧ x = none ∧ j = t := by
  unfold addEpsilons
  induction sources generalizing a with
  | nil => simp
  | cons s sources ih =>
    rw [List.foldl_cons, ih, edge_addEpsilon, size_addEpsilon, List.mem_cons]
    constructor
    · rintro ((h | ⟨rfl, h⟩) | ⟨hi, h⟩)
      · exact .inl h
      · exact .inr ⟨.inl rfl, h⟩
      · exact .inr ⟨.inr hi, h⟩
    · rintro (h | ⟨rfl | hi, h⟩)
      · exact .inl (.inl h)
      · exact .inl (.inr ⟨rfl, h⟩)
      · exact .inr ⟨hi, h⟩

@[simp] theorem accepting_addEpsilons (a : Automaton) (sources : List Nat) (t : Nat) :
    (a.addEpsilons sources t).accepting = a.accepting := by
  unfold addEpsilons
  induction sources generalizing a with
  | nil => rfl
  | cons s sources ih => exact ih (a.addEpsilon s t)

@[simp] theorem start_addEpsilons (a : Automaton) (sources : List Nat) (t : Nat) :
    (a.addEpsilons sources t).start = a.start := by
  unfold addEpsilons
  induction sources generalizing a with
  | nil => rfl
  | cons s sources ih => exact ih (a.addEpsilon s t)

@[simp] theorem meaning_nothing : nothing.meaning = .nothing := by
  apply Meaning.ext
  intro b w e
  simp [meaning, nothing, Meaning.nothing]

@[simp] theorem not_edge_emptyText : ¬ emptyText.Edge i x j := by
  rintro ⟨s, hs, hx⟩
  cases i with
  | zero =>
    obtain rfl := Option.some.inj hs
    exact State.not_leads_empty x j hx
  | succ i => simp [emptyText] at hs

@[simp] theorem meaning_emptyText : emptyText.meaning = .empty := by
  apply Meaning.ext
  intro b w e
  constructor
  · rintro ⟨f, -, h⟩
    cases h with
    | refl => rfl
    | silent h => exact absurd h not_edge_emptyText
    | byte h => exact absurd h not_edge_emptyText
  · rintro rfl
    exact ⟨0, by simp [emptyText], .refl b 0⟩

theorem wellFormed_emptyText : emptyText.WellFormed := by decide

theorem wellFormed_nothing : nothing.WellFormed := by decide

/-! ## Union -/

theorem edge_union : (a.union b).Edge i x j ↔
    i = 0 ∧ x = none ∧ (j = a.start + 1 ∨ j = b.start + (1 + a.size)) ∨
      (∃ i' j', i' + 1 = i ∧ j' + 1 = j ∧ a.Edge i' x j') ∨
      ∃ i' j', i' + (1 + a.size) = i ∧ j' + (1 + a.size) = j ∧ b.Edge i' x j' := by
  have hub : edgesOf #[(({} : State).addEpsilon (a.start + 1)).addEpsilon
      (b.start + (1 + a.size))] i x j ↔
        i = 0 ∧ x = none ∧ (j = a.start + 1 ∨ j = b.start + (1 + a.size)) := by
    unfold edgesOf
    cases i with
    | zero => simp [State.leads_addEpsilon, and_or_left]
    | succ i => simp
  unfold Edge union
  rw [edgesOf_append, edgesOf_append, hub]
  simp only [edgesOf_shift, Array.size_append, Array.size_map, List.size_toArray, List.length_cons,
    List.length_nil, size]
  grind

@[simp] theorem start_union (a b : Automaton) : (a.union b).start = 0 := rfl

/-- State 0 leads to both starts and nowhere else. -/
theorem getElem?_union_hub (ha : a.WellFormed) (b : Automaton) : (a.union b).states[0]? =
    some { transitions := [], epsilons := [a.start + 1, b.start + (1 + a.size)] } := by
  have hne : b.start + (1 + a.size) ≠ a.start + 1 := by
    have := ha.start_lt
    omega
  simp only [union, Array.append_assoc]
  rw [Array.getElem?_append_left (Nat.one_pos : 0 < #[_].size)]
  simp [State.addEpsilon, hne]

/-- The table of the first operand is copied behind it. -/
theorem getElem?_union_left (b : Automaton) (hi : i < a.size) :
    (a.union b).states[i + 1]? = a.states[i]?.map (·.shift 1) := by
  simp only [size] at hi
  simp [union, Array.getElem?_append, hi]

/-- The table of the second operand comes last. -/
theorem getElem?_union_right (a b : Automaton) (i : Nat) :
    (a.union b).states[i + (1 + a.size)]? = b.states[i]?.map (·.shift (1 + a.size)) := by
  have hsize : (#[(({} : State).addEpsilon (a.start + 1)).addEpsilon (b.start + (1 + a.size))]
      ++ a.states.map (·.shift 1)).size = 1 + a.size := by simp [size, Nat.add_comm]
  rw [union, Array.getElem?_append_right (by omega), hsize, Nat.add_sub_cancel, Array.getElem?_map]

theorem edge_union_hub : (a.union b).Edge 0 x j ↔
    x = none ∧ (j = a.start + 1 ∨ j = b.start + (1 + a.size)) := by
  rw [edge_union]
  constructor
  · rintro (⟨-, h⟩ | ⟨_, _, h, -⟩ | ⟨_, _, h, -⟩)
    · exact h
    · omega
    · omega
  · intro h
    exact .inl ⟨rfl, h⟩

/-- The first copy in a union is closed under its edges. -/
theorem edge_union_left (ha : a.WellFormed) (hi : i < a.size) (h : (a.union b).Edge (i + 1) x j) :
    ∃ j', j' + 1 = j ∧ j' < a.size ∧ a.Edge i x j' := by
  rcases edge_union.mp h with ⟨h0, -⟩ | ⟨i', j', hi', hj, h'⟩ | ⟨i', j', hi', -, -⟩
  · omega
  · obtain rfl : i' = i := by omega
    exact ⟨j', hj, ha.target_lt h', h'⟩
  · omega

/-- So is the second one. -/
theorem edge_union_right (h : (a.union b).Edge (i + (1 + a.size)) x j) :
    ∃ j', j' + (1 + a.size) = j ∧ True ∧ b.Edge i x j' := by
  rcases edge_union.mp h with ⟨h0, -⟩ | ⟨i', j', hi', -, h'⟩ | ⟨i', j', hi', hj, h'⟩
  · omega
  · have := h'.lt_size
    omega
  · obtain rfl : i' = i := by omega
    exact ⟨j', hj, trivial, h'⟩

theorem mem_accepting_union {f : Nat} : f ∈ (a.union b).accepting ↔
    (∃ f' ∈ a.accepting, f' + 1 = f) ∨ ∃ f' ∈ b.accepting, f' + (1 + a.size) = f := by
  simp [union, Std.ExtTreeSet.mem_union_iff]

/-- A path out of the start of a union stays there, or goes on in one of the copies. -/
theorem path_union (ha : a.WellFormed) {e s : Bool} {w : List UInt8} {k : Nat} :
    Path (a.union b).Edge e s 0 w k ↔ k = 0 ∧ w = [] ∨
      (∃ k', k' + 1 = k ∧ k' < a.size ∧ Path a.Edge e s a.start w k') ∨
      ∃ k', k' + (1 + a.size) = k ∧ Path b.Edge e s b.start w k' := by
  constructor
  · intro h
    cases h with
    | refl => exact .inl ⟨rfl, rfl⟩
    | byte h => simp [edge_union_hub] at h
    | silent h hx rest =>
      obtain ⟨rfl, rfl | rfl⟩ := edge_union_hub.mp h
      · exact .inr (.inl (rest.of_map (· + 1) (· < a.size)
          (fun _ _ _ => edge_union_left ha) ha.start_lt))
      · obtain ⟨k', hk, -, hp⟩ := rest.of_map (· + (1 + a.size)) (fun _ => True)
          (fun _ _ _ _ => edge_union_right) trivial
        exact .inr (.inr ⟨k', hk, hp⟩)
  · rintro (⟨rfl, rfl⟩ | ⟨k', rfl, -, h⟩ | ⟨k', rfl, h⟩)
    · exact .refl s 0
    · refine .epsilon (edge_union_hub.mpr ⟨rfl, .inl rfl⟩) ?_
      exact h.map (· + 1) fun i x j h => edge_union.mpr (.inr (.inl ⟨i, j, rfl, rfl, h⟩))
    · refine .epsilon (edge_union_hub.mpr ⟨rfl, .inr rfl⟩) ?_
      exact h.map (· + (1 + a.size)) fun i x j h =>
        edge_union.mpr (.inr (.inr ⟨i, j, rfl, rfl, h⟩))

theorem meaning_union (ha : a.WellFormed) :
    (a.union b).meaning = a.meaning.either b.meaning := by
  apply Meaning.ext
  intro s w e
  constructor
  · rintro ⟨f, hf, h⟩
    rw [mem_accepting_union] at hf
    rcases (path_union ha).mp h with ⟨rfl, -⟩ | ⟨k, rfl, hlt, hk⟩ | ⟨k, rfl, hk⟩
    · rcases hf with ⟨f', -, h0⟩ | ⟨f', -, h0⟩ <;> omega
    · rcases hf with ⟨f', hf, h0⟩ | ⟨f', hf, h0⟩
      · obtain rfl : f' = k := by omega
        exact .inl ⟨f', hf, hk⟩
      · omega
    · rcases hf with ⟨f', hf, h0⟩ | ⟨f', hf, h0⟩
      · have := ha.accepting_lt hf
        omega
      · obtain rfl : f' = k := by omega
        exact .inr ⟨f', hf, hk⟩
  · rintro (⟨f, hf, h⟩ | ⟨f, hf, h⟩)
    · exact ⟨f + 1, mem_accepting_union.mpr (.inl ⟨f, hf, rfl⟩),
        (path_union ha).mpr (.inr (.inl ⟨f, rfl, ha.accepting_lt hf, h⟩))⟩
    · exact ⟨f + (1 + a.size), mem_accepting_union.mpr (.inr ⟨f, hf, rfl⟩),
        (path_union ha).mpr (.inr (.inr ⟨f, rfl, h⟩))⟩

theorem WellFormed.union (ha : a.WellFormed) (hb : b.WellFormed) : (a.union b).WellFormed := by
  rw [wellFormed_iff, size_union]
  refine ⟨by simp only [start_union]; omega, ?_, ?_⟩
  · intro i x j h
    have := ha.start_lt
    have := hb.start_lt
    rcases edge_union.mp h with ⟨-, -, rfl | rfl⟩ | ⟨i', j', -, rfl, h'⟩ | ⟨i', j', -, rfl, h'⟩
    · omega
    · omega
    · have := ha.target_lt h'
      omega
    · have := hb.target_lt h'
      omega
  · intro f hf
    rcases mem_accepting_union.mp hf with ⟨f', hf', rfl⟩ | ⟨f', hf', rfl⟩
    · have := ha.accepting_lt hf'
      omega
    · have := hb.accepting_lt hf'
      omega

/-! ## Concatenation -/

@[simp] theorem accepting_concat (a b : Automaton) :
    (a.concat b).accepting = b.accepting.shift a.size := by
  obtain ⟨states, start, accepting⟩ := a
  simp only [concat, accepting_addEpsilons, size]

@[simp] theorem start_concat (a b : Automaton) : (a.concat b).start = a.start := by
  obtain ⟨states, start, accepting⟩ := a
  simp only [concat, start_addEpsilons]

theorem edge_concat (ha : a.WellFormed) : (a.concat b).Edge i x j ↔
    a.Edge i x j ∨ (∃ i' j', i' + a.size = i ∧ j' + a.size = j ∧ b.Edge i' x j') ∨
      i ∈ a.accepting ∧ x = none ∧ j = b.start + a.size := by
  have hacc (h : i ∈ a.accepting) : i < a.size + b.size :=
    Nat.lt_of_lt_of_le (ha.accepting_lt h) (Nat.le_add_right _ _)
  obtain ⟨states, start, accepting⟩ := a
  simp only [concat, edge_addEpsilons, Std.ExtTreeSet.mem_toList]
  unfold Edge
  rw [edgesOf_append]
  simp only [edgesOf_shift, size, Array.size_append, Array.size_map] at hacc ⊢
  grind

/-- The copy of the second operand is closed under its edges. -/
theorem edge_concat_right (ha : a.WellFormed) (h : (a.concat b).Edge (i + a.size) x j) :
    ∃ j', j' + a.size = j ∧ True ∧ b.Edge i x j' := by
  rcases (edge_concat ha).mp h with h' | ⟨i', j', hi', hj, h'⟩ | ⟨hi, -⟩
  · have := h'.lt_size
    omega
  · obtain rfl : i' = i := by omega
    exact ⟨j', hj, trivial, h'⟩
  · have := ha.accepting_lt hi
    omega

/-- A path from the first operand into the second one crosses the joint once. -/
theorem path_concat_cross (ha : a.WellFormed) {s e : Bool} {w : List UInt8} {k f : Nat}
    (hi : i < a.size) (hk : f + a.size = k) (h : Path (a.concat b).Edge e s i w k) :
    ∃ u v, w = u ++ v ∧ (∃ m ∈ a.accepting, Path a.Edge (e && v.isEmpty) s i u m) ∧
      Path b.Edge e (s && u.isEmpty) b.start v f := by
  induction h with
  | refl s i => omega
  | silent h hx rest ih =>
    rcases (edge_concat ha).mp h with h' | ⟨i', j', hi', -⟩ | ⟨hacc, rfl, rfl⟩
    · obtain ⟨u, v, rfl, ⟨m, hm, hu⟩, hv⟩ := ih (ha.target_lt h') hk
      refine ⟨u, v, rfl, ⟨m, hm, .silent h' ?_ hu⟩, hv⟩
      rwa [Bool.and_assoc, Bool.and_comm (List.isEmpty v), ← isEmpty_append]
    · omega
    · obtain ⟨f', hf', -, hp⟩ := rest.of_map (· + a.size) (fun _ => True)
        (fun _ _ _ _ => edge_concat_right ha) trivial
      obtain rfl : f' = f := by omega
      exact ⟨[], _, rfl, ⟨_, hacc, .refl _ _⟩, by simpa using hp⟩
  | byte h hl rest ih =>
    rcases (edge_concat ha).mp h with h' | ⟨i', j', hi', -⟩ | ⟨-, h0, -⟩
    · obtain ⟨u, v, rfl, ⟨m, hm, hu⟩, hv⟩ := ih (ha.target_lt h') hk
      exact ⟨_ :: u, v, rfl, ⟨m, hm, .byte h' hl hu⟩, by simpa using hv⟩
    · omega
    · simp at h0

theorem meaning_concat (ha : a.WellFormed) :
    (a.concat b).meaning = a.meaning.seq b.meaning := by
  apply Meaning.ext
  intro s w e
  constructor
  · rintro ⟨k, hk, h⟩
    rw [accepting_concat, StateSet.mem_shift] at hk
    rw [start_concat] at h
    obtain ⟨f, hf, hk⟩ := hk
    obtain ⟨u, v, rfl, hu, hv⟩ := path_concat_cross ha ha.start_lt hk h
    exact ⟨u, v, rfl, hu, f, hf, hv⟩
  · rintro ⟨u, v, rfl, ⟨m, hm, hu⟩, f, hf, hv⟩
    refine ⟨f + a.size, ?_, ?_⟩
    · rw [accepting_concat, StateSet.mem_shift]
      exact ⟨f, hf, rfl⟩
    · rw [start_concat]
      refine (hu.mono fun i x j h => (edge_concat ha).mpr (.inl h)).trans ?_
      refine .epsilon ((edge_concat ha).mpr (.inr (.inr ⟨hm, rfl, rfl⟩))) ?_
      exact hv.map (· + a.size) fun i x j h =>
        (edge_concat ha).mpr (.inr (.inl ⟨i, j, rfl, rfl, h⟩))

theorem WellFormed.concat (ha : a.WellFormed) (hb : b.WellFormed) : (a.concat b).WellFormed := by
  rw [wellFormed_iff, size_concat, start_concat, accepting_concat]
  have hsa := ha.start_lt
  have hsb := hb.start_lt
  refine ⟨by omega, ?_, ?_⟩
  · intro i x j h
    rcases (edge_concat ha).mp h with h' | ⟨i', j', -, rfl, h'⟩ | ⟨-, -, rfl⟩
    · have := ha.target_lt h'
      omega
    · have := hb.target_lt h'
      omega
    · omega
  · intro f hf
    obtain ⟨f', hf', rfl⟩ := StateSet.mem_shift.mp hf
    have := hb.accepting_lt hf'
    omega

/-! ## Closure -/

theorem mem_accepting_star {f : Nat} : f ∈ a.star.accepting ↔ f = a.size ∨ f ∈ a.accepting := by
  have h : a.star.accepting = a.accepting.insert a.size := by
    simp only [star, startAt, markAccepting, if_true, accepting_addEpsilons]
    rfl
  rw [h, Std.ExtTreeSet.mem_insert, Std.LawfulEqCmp.compare_eq_iff_eq]
  exact or_congr_left eq_comm

@[simp] theorem start_star (a : Automaton) : a.star.start = a.size := rfl

theorem edge_star (ha : a.WellFormed) : a.star.Edge i x j ↔
    a.Edge i x j ∨ i = a.size ∧ x = none ∧ j = a.start ∨
      i ∈ a.accepting ∧ x = none ∧ j = a.size := by
  have hacc (h : i ∈ a.accepting) : i < a.size + 1 :=
    Nat.lt_succ_of_lt (ha.accepting_lt h)
  change ((a.newState.addEpsilon a.size a.start).addEpsilons a.accepting.toList
    a.size).Edge i x j ↔ _
  rw [edge_addEpsilons, edge_addEpsilon, edge_newState, size_addEpsilon, size_newState,
    Std.ExtTreeSet.mem_toList]
  grind

/-- What a closure spells from its hub is any number of pieces, and what it spells from inside the
operand is a piece that has begun and any number of further ones. -/
theorem path_star (ha : a.WellFormed) {s e : Bool} {w : List UInt8} {k : Nat}
    (hk : k = a.size ∨ k ∈ a.accepting) (h : Path a.star.Edge e s i w k) :
    (i = a.size → a.meaning.star s w e) ∧
      (i < a.size → ∃ u v, w = u ++ v ∧ (∃ m ∈ a.accepting, Path a.Edge (e && v.isEmpty) s i u m) ∧
        a.meaning.star (s && u.isEmpty) v e) := by
  induction h with
  | refl s i =>
    refine ⟨fun _ => ⟨0, rfl⟩, fun hi => ⟨[], [], rfl, ⟨i, ?_, .refl s i⟩, 0, rfl⟩⟩
    rcases hk with rfl | hk
    · omega
    · exact hk
  | silent h hx rest ih =>
    obtain ⟨hub, inside⟩ := ih hk
    rcases (edge_star ha).mp h with h' | ⟨rfl, rfl, rfl⟩ | ⟨hi, rfl, rfl⟩
    · have := h'.lt_size
      refine ⟨fun _ => by omega, fun _ => ?_⟩
      obtain ⟨u, v, rfl, ⟨m, hm, hu⟩, hv⟩ := inside (ha.target_lt h')
      refine ⟨u, v, rfl, ⟨m, hm, .silent h' ?_ hu⟩, hv⟩
      rwa [Bool.and_assoc, Bool.and_comm (List.isEmpty v), ← isEmpty_append]
    · refine ⟨fun _ => ?_, fun _ => by omega⟩
      rw [Meaning.star_eq]
      exact .inr (inside ha.start_lt)
    · have := ha.accepting_lt hi
      refine ⟨fun _ => by omega, fun _ => ?_⟩
      exact ⟨[], _, rfl, ⟨_, hi, .refl _ _⟩, by simpa using hub rfl⟩
  | byte h hl rest ih =>
    rcases (edge_star ha).mp h with h' | ⟨-, h0, -⟩ | ⟨-, h0, -⟩
    · have := h'.lt_size
      refine ⟨fun _ => by omega, fun _ => ?_⟩
      obtain ⟨u, v, rfl, ⟨m, hm, hu⟩, hv⟩ := (ih hk).2 (ha.target_lt h')
      exact ⟨_ :: u, v, rfl, ⟨m, hm, .byte h' hl hu⟩, by simpa using hv⟩
    · simp at h0
    · simp at h0

/-- Every further piece leads from the hub back to it. -/
theorem path_star_of_power (ha : a.WellFormed) {s e : Bool} {w : List UInt8} {m : Nat}
    (h : a.meaning.power m s w e) : Path a.star.Edge e s a.size w a.size := by
  induction m generalizing s w e with
  | zero =>
    obtain rfl := h
    exact .refl s a.size
  | succ m ih =>
    obtain ⟨u, v, rfl, hu, f, hf, hv⟩ := h
    refine (ih hu).trans (.epsilon ((edge_star ha).mpr (.inr (.inl ⟨rfl, rfl, rfl⟩))) ?_)
    have inside := hv.mono fun i x j h => (edge_star ha).mpr (.inl h)
    have back : Path a.star.Edge e ((s && u.isEmpty) && v.isEmpty) f [] a.size :=
      .epsilon ((edge_star ha).mpr (.inr (.inr ⟨hf, rfl, rfl⟩))) (.refl _ _)
    have whole := Path.trans (v := []) (by simpa using inside) back
    simpa using whole

theorem meaning_star (ha : a.WellFormed) : a.star.meaning = a.meaning.star := by
  apply Meaning.ext
  intro s w e
  constructor
  · rintro ⟨f, hf, h⟩
    exact (path_star ha (mem_accepting_star.mp hf) h).1 rfl
  · rintro ⟨m, h⟩
    exact ⟨a.size, mem_accepting_star.mpr (.inl rfl), path_star_of_power ha h⟩

theorem WellFormed.star (ha : a.WellFormed) : a.star.WellFormed := by
  rw [wellFormed_iff, size_star, start_star]
  refine ⟨Nat.lt_succ_self _, ?_, ?_⟩
  · intro i x j h
    rcases (edge_star ha).mp h with h | ⟨-, -, rfl⟩ | ⟨-, -, rfl⟩
    · exact Nat.lt_succ_of_lt (ha.target_lt h)
    · exact Nat.lt_succ_of_lt ha.start_lt
    · exact Nat.lt_succ_self _
  · intro f hf
    rcases mem_accepting_star.mp hf with rfl | hf
    · exact Nat.lt_succ_self _
    · exact Nat.lt_succ_of_lt (ha.accepting_lt hf)

end Automaton

end PatternAutomata
