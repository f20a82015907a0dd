import PatternAutomata.Proofs.Automaton.Boolean
import PatternAutomata.Proofs.Automaton.Literal

/-!
# Sets of states of a union

The subset construction meets one set of states for every text that can be read. In the union of a
trie with a complete deterministic automaton such a set has a state of the trie that only one text
leads to, or it has a single state of the other operand. So there are no more sets than states.
-/
namespace PatternAutomata.Automaton
open Relation (ReflTransGen)

variable {a b : Automaton} {set : StateSet} {i j k : Nat} {w : List UInt8}

/-! ## Reachable sets -/

theorem mem_of_silent (hset : a.Closed set) (hi : i ∈ set)
    (h : ReflTransGen (Silent a.Edge false false) i j) : j ∈ set := by
  induction h with
  | refl => exact hi
  | tail _ h ih => exact hset _ ih _ (mem_epsilonsOf.mp (silent_false_iff.mp h))

/-- From a closed set, reading keeps all states that paths lead to. -/
theorem mem_foldl_advance (hset : a.Closed set) :
    i ∈ w.foldl a.advance set ↔ ∃ s ∈ set, Path a.Edge false false s w i := by
  induction w generalizing set with
  | nil =>
    simp only [List.foldl_nil, path_nil_iff]
    constructor
    · intro hi
      exact ⟨i, hi, .refl⟩
    · rintro ⟨s, hs, h⟩
      exact mem_of_silent hset hs h
  | cons c w ih =>
    rw [List.foldl_cons, ih (closed_advance a set c)]
    constructor
    · rintro ⟨t, ht, h⟩
      obtain ⟨j, hj, hjt⟩ := mem_closure.mp ht
      obtain ⟨s, hs, l, he, hl⟩ := mem_readByte_iff.mp hj
      exact ⟨s, hs, .byte he hl (.of_silent hjt h)⟩
    · rintro ⟨s, hs, h⟩
      obtain ⟨j, l, j', hj, he, hl, h'⟩ := path_cons_iff.mp h
      have hread : j' ∈ a.readByte set c :=
        mem_readByte_iff.mpr ⟨j, mem_of_silent hset hs hj, l, he, hl⟩
      exact ⟨j', mem_closure.mpr ⟨j', hread, .refl⟩, h'⟩

/-- The states that a text leads to. -/
def reading (a : Automaton) (w : List UInt8) : StateSet :=
  w.foldl a.advance (a.initial [.textStart])

theorem mem_reading : i ∈ a.reading w ↔ Path a.Edge false true a.start w i := by
  have hinitial (s : Nat) : s ∈ a.initial [.textStart] ↔
      ReflTransGen (Silent a.Edge true false) a.start s := mem_initial
  cases w with
  | nil => rw [path_nil_iff, ← hinitial, reading, List.foldl_nil]
  | cons c w =>
    rw [reading, mem_foldl_advance (closed_initial a _)]
    constructor
    · rintro ⟨s, hs, h⟩
      exact .of_silent ((hinitial s).mp hs) (h.weaken fun _ => rfl)
    · intro h
      obtain ⟨j, l, j', hj, he, hl, h'⟩ := path_cons_iff.mp h
      exact ⟨j, (hinitial j).mpr hj, .byte he hl h'⟩

theorem proper_reading (h : a.WellFormed) (w : List UInt8) : a.Proper (a.reading w) := by
  rcases List.eq_nil_or_concat w with rfl | ⟨u, c, rfl⟩
  · exact proper_initial h _
  · rw [reading, List.concat_eq_append, List.foldl_append]
    exact proper_advance h _ _

/-- The subset construction has no more states than there are sets that texts lead to, and one. -/
theorem size_determinize_le (h : a.WellFormed) {bound : Nat}
    (hbound : ∀ sets : List StateSet, sets.Nodup → (∀ set ∈ sets, ∃ w, a.reading w = set) →
      sets.length ≤ bound) : a.determinize.size ≤ 1 + bound := by
  have hproper {set : StateSet} (hset : ∃ w, a.reading w = set) : a.Proper set := by
    obtain ⟨w, rfl⟩ := hset
    exact proper_reading h w
  have hlawful : a.subsets.Lawful a.advance fun set => ∃ w, a.reading w = set := by
    refine (lawful_subsets_any a).restrict (fun _ _ => trivial) ?_
    rintro _ ⟨w, rfl⟩ r hr
    obtain ⟨s, -, rfl⟩ := List.mem_map.mp hr
    exact ⟨w ++ [UInt8.ofNat s.1], by simp [reading]⟩
  have hgrounded : a.subsets.Grounded (fun set => ∃ w, a.reading w = set) bound :=
    { not_dangling := fun set hset => (grounded_subsets h).not_dangling set (hproper hset)
      verdict_some := fun set hset => (grounded_subsets h).verdict_some set (hproper hset)
      length_le := hbound }
  have hrun := determinizeUpTo_subsetBound h
  rw [determinizeUpTo_eq h] at hrun
  exact Numbering.size_run_le hlawful (valid_start ⟨[], rfl⟩ _) hgrounded hrun

/-! ## Automata whose states have names -/

/-- Every state is reached by one text at most, which is its name. -/
structure Named (a : Automaton) (name : Nat → List UInt8) : Prop where
  wellFormed : a.WellFormed
  name_start : name a.start = []
  edge : ∀ i x j, a.Edge i x j →
    (x = none ∧ name j = name i) ∨ ∃ c, x = some (.byte c) ∧ name j = name i ++ [c]

namespace Named
variable {name : Nat → List UInt8} {next : Nat → UInt8 → Nat}

theorem name_eq (h : a.Named name) {e s : Bool} (hp : Path a.Edge e s i w k) :
    name k = name i ++ w := by
  induction hp with
  | refl => simp
  | silent he hx _ ih =>
    obtain ⟨-, hname⟩ | ⟨c, rfl, -⟩ := h.edge _ _ _ he
    · rw [ih, hname]
    · simp [crossable, Label.byte] at hx
  | byte he hl _ ih =>
    obtain ⟨hnone, -⟩ | ⟨c, hc, hname⟩ := h.edge _ _ _ he
    · cases hnone
    · obtain rfl := Option.some.inj hc
      obtain rfl := Label.reads_byte _ _ |>.mp hl
      rw [ih, hname, List.append_assoc, List.singleton_append]

theorem name_eq_of_start (h : a.Named name) {e s : Bool} (hp : Path a.Edge e s a.start w k) :
    name k = w := by
  rw [h.name_eq hp, h.name_start, List.nil_append]

theorem nothing : Automaton.nothing.Named fun _ => [] where
  wellFormed := wellFormed_nothing
  name_start := rfl
  edge _ _ _ he := absurd he not_edge_emptyText

/-- What stands behind the empty text keeps its names. -/
theorem behindEmptyText (h : a.Named name) :
    (emptyText.concat a).Named fun i => if i = 0 then [] else name (i - 1) where
  wellFormed := wellFormed_emptyText.concat h.wellFormed
  name_start := rfl
  edge i x j hedge := by
    rcases (edge_concat wellFormed_emptyText).mp hedge with
      he | ⟨i', j', rfl, rfl, he⟩ | ⟨hi, hx, rfl⟩
    · exact absurd he not_edge_emptyText
    · simpa [emptyText, size] using h.edge i' x j' he
    · obtain rfl : i = 0 := StateSet.mem_singleton.mp hi
      exact .inl ⟨hx, by simp [emptyText, size, h.name_start]⟩

end Named

theorem Spelled.named {name : Nat → List UInt8} (h : a.Spelled name) (hw : a.WellFormed) :
    a.Named name where
  wellFormed := hw
  name_start := by rw [h.start_eq, h.word_start]
  edge i x j he := .inr (h.edge i x j he).2

/-! ## Unions -/

section
variable {name : Nat → List UInt8} {next : Nat → UInt8 → Nat} (ha : a.Named name)
  (hb : b.Complete next)
include ha hb

/-- A text leads to the start itself only if it is empty, to states of the first operand that it
names, and to one state of the second operand. -/
theorem mem_reading_union : k ∈ (a.union b).reading w ↔ k = 0 ∧ w = [] ∨
    (∃ k', k' + 1 = k ∧ k' < a.size ∧ Path a.Edge false true a.start w k') ∨
      w.foldl next b.start + (1 + a.size) = k := by
  rw [mem_reading, start_union, path_union ha.wellFormed]
  simp only [hb.path_iff hb.wellFormed.start_lt, exists_eq_right']

/-- Every text leads to a state by which the set of all states that it leads to is known. -/
theorem exists_mem_reading_union (w : List UInt8) : ∃ i ∈ (a.union b).reading w,
    0 < i ∧ i < (a.union b).size ∧ (i ≤ a.size ∨ ∀ j ∈ (a.union b).reading w, j = i) := by
  have hlt := hb.foldl_lt hb.wellFormed.start_lt w
  rw [size_union]
  by_cases hfirst : ∃ i ∈ (a.union b).reading w, 0 < i ∧ i ≤ a.size
  · obtain ⟨i, hi, hpos, hle⟩ := hfirst
    exact ⟨i, hi, hpos, by omega, .inl hle⟩
  · refine ⟨w.foldl next b.start + (1 + a.size),
      (mem_reading_union ha hb).mpr (.inr (.inr rfl)), by omega, by omega, .inr fun j hj => ?_⟩
    rcases (mem_reading_union ha hb).mp hj with ⟨rfl, rfl⟩ | ⟨k', rfl, hk', -⟩ | rfl
    · -- The empty text also leads to the start of the first operand.
      have hstart := ha.wellFormed.start_lt
      exact absurd ⟨a.start + 1, (mem_reading_union ha hb).mpr
        (.inr (.inl ⟨a.start, rfl, hstart, .refl true a.start⟩)), by omega, by omega⟩ hfirst
    · exact absurd ⟨k' + 1, hj, by omega, by omega⟩ hfirst
    · rfl

theorem reading_union_inj {u v : List UInt8} {i : Nat} (hi : 0 < i)
    (hu : i ∈ (a.union b).reading u) (hv : i ∈ (a.union b).reading v)
    (hu' : i ≤ a.size ∨ ∀ j ∈ (a.union b).reading u, j = i)
    (hv' : i ≤ a.size ∨ ∀ j ∈ (a.union b).reading v, j = i) :
    (a.union b).reading u = (a.union b).reading v := by
  by_cases hle : i ≤ a.size
  · have hname {w : List UInt8} (hw : i ∈ (a.union b).reading w) : name (i - 1) = w := by
      rcases (mem_reading_union ha hb).mp hw with ⟨rfl, -⟩ | ⟨k', rfl, -, hp⟩ | rfl
      · omega
      · exact ha.name_eq_of_start hp
      · omega
    rw [← hname hu, ← hname hv]
  · have hu' := hu'.resolve_left hle
    have hv' := hv'.resolve_left hle
    apply Std.ExtTreeSet.ext_mem
    intro j
    constructor
    · intro hj
      exact hu' j hj ▸ hv
    · intro hj
      exact hv' j hj ▸ hu

/-- The subset construction of a union has no more states than the union, if one text at most leads
to each state of the first operand and the second operand is complete and deterministic. -/
theorem size_determinize_union_le : (a.union b).determinize.size ≤ (a.union b).size := by
  have hkey : ∀ set, (∃ w, (a.union b).reading w = set) → ∃ i ∈ set,
      0 < i ∧ i < (a.union b).size ∧ (i ≤ a.size ∨ ∀ j ∈ set, j = i) := by
    rintro _ ⟨w, rfl⟩
    exact exists_mem_reading_union ha hb w
  choose! key hmem hpos hlt hknown using hkey
  have hsize := size_union a b
  have hbound : (a.union b).determinize.size ≤ 1 + (a.size + b.size) := by
    refine size_determinize_le (ha.wellFormed.union hb.wellFormed) fun sets hnodup hsets => ?_
    have hinj : ∀ s ∈ sets, ∀ t ∈ sets, key s = key t → s = t := by
      intro s hs t ht heq
      obtain ⟨u, rfl⟩ := hsets s hs
      obtain ⟨v, rfl⟩ := hsets t ht
      have hv := hmem _ ⟨v, rfl⟩
      have hv' := hknown _ ⟨v, rfl⟩
      rw [← heq] at hv hv'
      exact reading_union_inj ha hb (hpos _ ⟨u, rfl⟩) (hmem _ ⟨u, rfl⟩) hv (hknown _ ⟨u, rfl⟩) hv'
    have hsubset : sets.map key ⊆ List.range' 1 (a.size + b.size) := by
      intro i hi
      obtain ⟨set, hset, rfl⟩ := List.mem_map.mp hi
      have := hpos set (hsets set hset)
      have := hlt set (hsets set hset)
      rw [List.mem_range'_1]
      omega
    have hlength := ((hnodup.map_on hinj).subperm hsubset).length_le
    rwa [List.length_map, List.length_range'] at hlength
  omega

end

end PatternAutomata.Automaton
