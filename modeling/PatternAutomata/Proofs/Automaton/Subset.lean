import Mathlib.Data.Finset.Powerset
import PatternAutomata.Proofs.Automaton.Acceptance
import PatternAutomata.Proofs.Automaton.Numbering

/-!
# The subset construction

The deterministic automaton goes from set to set as reading does, so it accepts what the given one
accepts. The start is numbered by itself and never met again. That is how its verdict, in which the
anchors of the empty text count, is kept from a later state of the same set.
-/
namespace PatternAutomata

/-! ## Stretches -/

/-- A function that changes at cuts only is known by its values at the cuts. -/
theorem expandRuns_stretches {β : Type} {f : Nat → β} {first : Nat} {cuts : List Nat}
    (hcuts : (first :: cuts).Pairwise (· < ·)) (hlt : ∀ c ∈ first :: cuts, c < byteCount)
    (hf : ∀ n, first < n → n < byteCount → n ∉ cuts → f n = f (n - 1)) :
    expandRuns ((Automaton.stretches first cuts).map fun s => (f s.1, s.2)) =
      (List.range' first (byteCount - first)).map f := by
  have flat (first m : Nat) (hm : first + m ≤ byteCount)
      (hf : ∀ n, first < n → n < first + m → f n = f (n - 1)) :
      List.replicate m (f first) = (List.range' first m).map f := by
    have hconst (n : Nat) (hn : n < m) : f (first + n) = f first := by
      induction n with
      | zero => rfl
      | succ n ih => exact (hf _ (by omega) (by omega)).trans (ih (by omega))
    apply List.ext_getElem (by simp)
    intro n hn _
    rw [List.length_replicate] at hn
    simp [hconst n hn]
  induction cuts generalizing first with
  | nil =>
    have := hlt first List.mem_cons_self
    simp only [Automaton.stretches, List.map_cons, List.map_nil, expandRuns_cons, expandRuns_nil,
      List.append_nil]
    exact flat first _ (by omega) fun n h₁ h₂ => hf n h₁ (by omega) List.not_mem_nil
  | cons c cuts ih =>
    rw [List.pairwise_cons] at hcuts
    obtain ⟨hfirst, hcuts⟩ := hcuts
    have hc := hfirst c List.mem_cons_self
    have hc' := hlt c (by simp)
    have hbehind (n : Nat) (hn : n < c) : n ∉ c :: cuts := by
      intro h
      rcases List.mem_cons.mp h with rfl | h
      · omega
      · have := (List.pairwise_cons.mp hcuts).1 n h
        omega
    simp only [Automaton.stretches, List.map_cons, expandRuns_cons]
    rw [ih hcuts fun x hx => hlt x (List.mem_cons_of_mem _ hx)]
    · rw [flat first (c - first) (by omega)
          fun n h₁ h₂ => hf n h₁ (by omega) (hbehind n (by omega)),
        ← List.map_append]
      have hsplit : byteCount - first = (c - first) + (byteCount - c) := by omega
      have hnext : c = first + (c - first) := by omega
      rw [hsplit, ← List.range'_append_1, ← hnext]
    · intro n h₁ h₂ hn
      apply hf n (by omega) h₂
      intro h
      rcases List.mem_cons.mp h with rfl | h
      · omega
      · exact hn h

namespace Automaton
open Relation (ReflTransGen)
variable {a d : Automaton} {set : StateSet} {limit i : Nat}

theorem mem_cuts {c : Nat} : c ∈ a.cuts set ↔ (0 < c ∧ c < byteCount) ∧
    ∃ s ∈ set, ∃ lo hi j, a.Edge s (some (.bytes lo hi)) j ∧ (c = lo.toNat ∨ c = hi.toNat + 1) := by
  unfold cuts
  simp only [List.mem_filter, Std.ExtTreeSet.mem_toList, Std.ExtTreeSet.mem_ofList,
    List.contains_iff_mem, List.mem_flatMap, Bool.and_eq_true, decide_eq_true_eq]
  rw [and_comm]
  refine and_congr_right fun _ => exists_congr fun s => and_congr_right fun _ => ?_
  constructor
  · rintro ⟨⟨l, j⟩, ht, hc⟩
    cases l with
    | bytes lo hi => exact ⟨lo, hi, j, mem_transitionsOf.mp ht, by simpa using hc⟩
    | anchor m => simp at hc
  · rintro ⟨lo, hi, j, he, hc⟩
    exact ⟨⟨.bytes lo hi, j⟩, mem_transitionsOf.mpr he, by simpa using hc⟩

theorem pairwise_cuts (a : Automaton) (set : StateSet) : (a.cuts set).Pairwise (· < ·) := by
  refine List.Pairwise.filter _ (Std.ExtTreeSet.ordered_toList.imp ?_)
  exact Nat.compare_eq_lt.mp

/-- Between cuts a set has the same successor on all bytes. -/
theorem advance_eq_of_not_mem_cuts {n : Nat} (hpos : 0 < n) (hlt : n < byteCount)
    (hn : n ∉ a.cuts set) :
    a.advance set (UInt8.ofNat n) = a.advance set (UInt8.ofNat (n - 1)) := by
  have hbyte (m : Nat) (hm : m < byteCount) : (UInt8.ofNat m).toNat = m := by
    rw [UInt8.toNat_ofNat']
    exact Nat.mod_eq_of_lt hm
  unfold advance
  congr 1
  apply Std.ExtTreeSet.ext_mem
  intro i
  rw [mem_readByte_iff, mem_readByte_iff]
  refine exists_congr fun s => and_congr_right fun hs => exists_congr fun l =>
    and_congr_right fun he => ?_
  cases l with
  | anchor m => simp
  | bytes lo hi =>
    have hlo : n ≠ lo.toNat := fun h =>
      hn (mem_cuts.mpr ⟨⟨hpos, hlt⟩, s, hs, lo, hi, i, he, .inl h⟩)
    have hhi : n ≠ hi.toNat + 1 :=
      fun h => hn (mem_cuts.mpr ⟨⟨hpos, hlt⟩, s, hs, lo, hi, i, he, .inr h⟩)
    rw [Label.reads_bytes, Label.reads_bytes, UInt8.le_iff_toNat_le, UInt8.le_iff_toNat_le,
      UInt8.le_iff_toNat_le, UInt8.le_iff_toNat_le, hbyte n hlt, hbyte (n - 1) (by omega)]
    omega

/-- The runs of a row give the successor on every byte. -/
theorem expandRuns_successorRow (a : Automaton) (set : StateSet) :
    expandRuns (a.successorRow set) = allBytes.map (a.advance set) := by
  unfold successorRow allBytes
  rw [expandRuns_stretches (f := fun n => a.advance set (UInt8.ofNat n)), List.range_eq_range',
    List.map_map]
  · rfl
  · exact List.pairwise_cons.mpr ⟨fun c hc => (mem_cuts.mp hc).1.1, pairwise_cuts a set⟩
  · intro c hc
    rcases List.mem_cons.mp hc with rfl | hc
    · decide
    · exact (mem_cuts.mp hc).1.2
  · exact fun n => advance_eq_of_not_mem_cuts

/-! ## Sets of existing states -/

/-- All members of the set are states. -/
def Within (a : Automaton) (set : StateSet) : Prop := ∀ i ∈ set, i < a.size

theorem leaves_eq_false : a.leaves set = false ↔ a.Within set := by
  unfold leaves Within
  simp

section
variable (h : a.WellFormed)
include h

theorem lt_size_of_silent {b e : Bool} {j : Nat} (hi : i < a.size)
    (hij : ReflTransGen (Silent a.Edge b e) i j) : j < a.size := by
  induction hij with
  | refl => exact hi
  | tail _ hs _ =>
    obtain ⟨x, he, -⟩ := hs
    exact h.target_lt he

theorem within_closure (hset : a.Within set) : a.Within (a.closure set) := by
  intro i hi
  obtain ⟨s, hs, hsi⟩ := mem_closure.mp hi
  exact lt_size_of_silent h (hset s hs) hsi

theorem within_advance (set : StateSet) (c : UInt8) : a.Within (a.advance set c) := by
  apply within_closure h
  intro i hi
  obtain ⟨s, -, l, he, -⟩ := mem_readByte_iff.mp hi
  exact h.target_lt he

theorem within_growThrough {anchors : List Anchor} (hset : a.Within set) (hclosed : a.Closed set) :
    a.Within (a.growThrough set anchors) := by
  intro i hi
  obtain ⟨s, hs, hsi⟩ := (mem_growThrough hclosed).mp hi
  exact lt_size_of_silent h (hset s hs) hsi

theorem within_initial (anchors : List Anchor) : a.Within (a.initial anchors) := by
  intro i hi
  exact lt_size_of_silent h h.start_lt (mem_initial.mp hi)

end

/-- The sets that the construction meets: closed sets of states. -/
structure Proper (a : Automaton) (set : StateSet) : Prop where
  within : a.Within set
  closed : a.Closed set

/-- On the empty text the anchors of both ends are crossed in any order. -/
theorem meetsAccepting_onEmpty : a.meetsAccepting
    (a.growThrough (a.initial [.textStart]) [.textStart, .textEnd]) = true ↔
      a.meaning.whole [] := by
  rw [meetsAccepting_eq_true]
  unfold Meaning.whole meaning
  simp only [path_nil_iff, mem_growThrough (closed_initial a _), mem_initial]
  constructor
  · rintro ⟨f, ⟨s, hs, hsf⟩, hf⟩
    exact ⟨f, hf, (Silent.mono (by simp) (by simp) hs).trans hsf⟩
  · rintro ⟨f, hf, hsf⟩
    exact ⟨f, ⟨a.start, .refl, hsf⟩, hf⟩

/-- There are no more sets of states than subsets of the states. -/
theorem length_le_of_within {sets : List StateSet} (hnodup : sets.Nodup)
    (hsets : ∀ set ∈ sets, a.Within set) : sets.length ≤ 2 ^ a.size := by
  have hinj : Function.Injective fun set : StateSet => set.toList.toFinset := by
    intro s t hst
    apply Std.ExtTreeSet.ext_mem
    intro i
    have := Finset.ext_iff.mp hst i
    simpa using this
  have hsub : (sets.map fun set => set.toList.toFinset).toFinset ⊆
      (Finset.range a.size).powerset := by
    intro t ht
    obtain ⟨set, hset, rfl⟩ := List.mem_map.mp (List.mem_toFinset.mp ht)
    refine Finset.mem_powerset.mpr fun i hi => Finset.mem_range.mpr (hsets set hset i ?_)
    simpa using hi
  have hcard := Finset.card_le_card hsub
  rw [List.toFinset_card_of_nodup (hnodup.map hinj), List.length_map, Finset.card_powerset,
    Finset.card_range] at hcard
  exact hcard

section
variable (h : a.WellFormed)
include h

theorem proper_advance (set : StateSet) (c : UInt8) : a.Proper (a.advance set c) :=
  ⟨within_advance h set c, closed_advance a set c⟩

theorem proper_initial (anchors : List Anchor) : a.Proper (a.initial anchors) :=
  ⟨within_initial h anchors, closed_initial a anchors⟩

theorem verdictAtEnd_eq (hset : a.Proper set) : a.verdictAtEnd set = some (a.acceptsAtEnd set) := by
  unfold verdictAtEnd
  dsimp only
  rw [leaves_eq_false.mpr (within_growThrough h hset.within hset.closed)]
  rfl

omit h in
/-- The row of a set lists its successors, whether or not its members exist. -/
theorem lawful_subsets_any (a : Automaton) : a.subsets.Lawful a.advance fun _ => True where
  code_inj _ _ hk := Std.ExtTreeSet.toList_inj.mp hk
  row_eq k _ := expandRuns_successorRow a k
  row_good _ _ _ _ := trivial

theorem lawful_subsets : a.subsets.Lawful a.advance a.Proper := by
  refine (lawful_subsets_any a).restrict (fun _ _ => trivial) fun k _ r hr => ?_
  obtain ⟨s, -, rfl⟩ := List.mem_map.mp hr
  exact proper_advance h k _

theorem grounded_subsets : a.subsets.Grounded a.Proper (2 ^ a.size) where
  not_dangling _ hset := leaves_eq_false.mpr hset.within
  verdict_some _ hset := ⟨_, verdictAtEnd_eq h hset⟩
  length_le _ hnodup hgood := length_le_of_within hnodup fun set hset => (hgood set hset).within

theorem determinizeUpTo_eq (limit : Nat) :
    a.determinizeUpTo limit = Numbering.run a.subsets limit ⟨#[(a.initial [.textStart],
      a.meetsAccepting (a.growThrough (a.initial [.textStart]) [.textStart, .textEnd]))], ∅⟩ := by
  have hfirst := proper_initial h [.textStart]
  unfold determinizeUpTo
  dsimp only
  rw [leaves_eq_false.mpr (within_growThrough h hfirst.within hfirst.closed)]
  rfl

omit h in
/-- The start is numbered without being recognized. -/
theorem valid_start {good : StateSet → Prop} (hfirst : good (a.initial [.textStart])) (v : Bool) :
    Numbering.Valid a.subsets good 1 ⟨#[(a.initial [.textStart], v)], ∅⟩ where
  good_keys := by
    intro j k v' hj
    obtain rfl : j = 0 := by simpa using (Array.getElem?_eq_some_iff.mp hj).1
    obtain ⟨rfl, -⟩ := Prod.mk.inj (Option.some.inj hj)
    exact hfirst
  named := by simp
  numbered := by
    intro j k v' hlead hj
    have := (Array.getElem?_eq_some_iff.mp hj).1
    simp only [List.size_toArray, List.length_cons, List.length_nil] at this
    omega

omit h in
theorem subsetBound_eq (a : Automaton) : a.subsetBound = 2 ^ a.size + 1 := rfl

theorem determinizeUpTo_error {err : BuildError} (hrun : a.determinizeUpTo limit = .error err) :
    err = .tooManyStates limit ∧ limit < a.subsetBound := by
  rw [determinizeUpTo_eq h] at hrun
  obtain ⟨herr, hlt⟩ :=
    Numbering.run_error (lawful_subsets h) (valid_start (proper_initial h _) _) (grounded_subsets h) hrun
  refine ⟨herr, ?_⟩
  rw [subsetBound_eq]
  omega

theorem size_determinizeUpTo_le (hrun : a.determinizeUpTo limit = .ok d) :
    d.size ≤ a.subsetBound := by
  rw [determinizeUpTo_eq h] at hrun
  have := Numbering.size_run_le (lawful_subsets h) (valid_start (proper_initial h _) _) (grounded_subsets h) hrun
  rw [subsetBound_eq]
  omega

/-- The subset construction keeps what whole texts are accepted. -/
theorem determinizeUpTo_spec (hrun : a.determinizeUpTo limit = .ok d) :
    ∃ next, d.Complete next ∧ d.meaning = .strings a.meaning.whole := by
  rw [determinizeUpTo_eq h] at hrun
  obtain ⟨next, hd, hmeaning⟩ :=
    Numbering.run_spec (lawful_subsets h) (valid_start (proper_initial h _) _) rfl hrun
  refine ⟨next, hd, hmeaning.trans (congrArg Meaning.strings (funext fun w => propext ?_))⟩
  rw [← accepts_iff]
  cases w with
  | nil => rw [if_pos rfl, meetsAccepting_onEmpty, accepts_iff]
  | cons c w =>
    have hset : a.Proper ((c :: w).foldl a.advance (a.initial [.textStart])) := by
      rw [← List.dropLast_concat_getLast (List.cons_ne_nil c w), List.foldl_append]
      exact proper_advance h _ _
    rw [if_neg (List.cons_ne_nil c w)]
    change a.verdictAtEnd _ = _ ↔ _
    rw [verdictAtEnd_eq h hset, Option.some.injEq]
    rfl

theorem determinizeUpTo_subsetBound : a.determinizeUpTo a.subsetBound = .ok a.determinize := by
  unfold determinize
  cases hrun : a.determinizeUpTo a.subsetBound with
  | ok d => rfl
  | error err => exact absurd (determinizeUpTo_error h hrun).2 (Nat.lt_irrefl _)

theorem determinize_spec :
    ∃ next, a.determinize.Complete next ∧ a.determinize.meaning = .strings a.meaning.whole :=
  determinizeUpTo_spec h (determinizeUpTo_subsetBound h)

/-- A well-formed automaton and its deterministic automaton accept the same texts. -/
theorem accepts_determinize (text : List UInt8) : a.determinize.accepts text = a.accepts text := by
  obtain ⟨_, -, hmeaning⟩ := determinize_spec h
  rw [Bool.eq_iff_iff, accepts_iff, accepts_iff, hmeaning]
  rfl

end

/-- Anchors, a cycle of epsilon edges and a range without bytes. -/
def anchoredLoop : Automaton where
  states := #[
    { transitions := [⟨.anchor .textStart, 1⟩, ⟨.bytes 2 1, 0⟩], epsilons := [1] },
    { transitions := [⟨.anchor .textEnd, 2⟩, ⟨.bytes 0 9, 0⟩], epsilons := [0] },
    {}]
  start := 0
  accepting := {2}

theorem accepts_determinize_anchoredLoop : anchoredLoop.WellFormed ∧
    ∀ text, anchoredLoop.determinize.accepts text = anchoredLoop.accepts text :=
  ⟨by decide, accepts_determinize (by decide)⟩

end Automaton

end PatternAutomata
