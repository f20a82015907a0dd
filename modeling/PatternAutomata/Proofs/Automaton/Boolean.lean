import Mathlib.Data.Finset.Prod
import PatternAutomata.Proofs.Automaton.Pruning
import PatternAutomata.Proofs.Automaton.Subset

/-!
# The meaning of complement and intersection

Both are Boolean operations on whole texts. Where the operands stand in a text no longer matters:
the deterministic automata have resolved the anchors against the boundaries of the text that they
read.
-/
namespace PatternAutomata

/-- An element of a run-length form stands in the list. -/
theorem fst_mem_of_mem_runsOf {α : Type} [DecidableEq α] {xs : List α} {r : α × Nat}
    (h : r ∈ runsOf xs) : r.1 ∈ xs := by
  have hx := fst_mem_expandRuns h (pos_of_mem_runsOf h)
  rwa [expandRuns_runsOf] at hx

namespace Automaton
variable {a b d da db : Automaton} {next nextA nextB : Nat → UInt8 → Nat} {limit bound i : Nat}

/-- What is known of an automaton: what it matches, and how large it is at most. -/
structure Denotes (p : Meaning) (bound : Nat) (a : Automaton) : Prop where
  wellFormed : a.WellFormed
  meaning_eq : a.meaning = p
  size_le : a.size ≤ bound

/-- What is promised of a construction with a budget. -/
def Builds (limit bound : Nat) (p : Meaning) : Except BuildError Automaton → Prop
  | .ok d => d.Denotes p bound
  | .error err => err = .tooManyStates limit ∧ limit < bound

/-! ## Complement -/

theorem size_flip (a : Automaton) : a.flip.size = a.size := rfl

theorem builds_complementUpTo (h : a.WellFormed) (limit : Nat) :
    Builds limit a.subsetBound (.strings fun w => ¬ a.meaning.whole w)
      (a.complementUpTo limit) := by
  unfold complementUpTo
  cases hrun : a.determinizeUpTo limit with
  | error err => exact determinizeUpTo_error h hrun
  | ok d =>
    obtain ⟨next, hd, hmeaning⟩ := determinizeUpTo_spec h hrun
    refine ⟨hd.flip.wellFormed, ?_, ?_⟩
    · rw [hd.meaning_flip, hmeaning]
      rfl
    · rw [size_flip]
      exact size_determinizeUpTo_le h hrun

theorem meaning_complement (h : a.WellFormed) :
    a.complement.meaning = .strings fun w => ¬ a.meaning.whole w := by
  obtain ⟨next, hd, hmeaning⟩ := determinize_spec h
  unfold complement
  rw [hd.meaning_flip, hmeaning]
  rfl

theorem WellFormed.determinize (h : a.WellFormed) : a.determinize.WellFormed := by
  obtain ⟨next, hd, -⟩ := determinize_spec h
  exact hd.wellFormed

theorem WellFormed.complement (h : a.WellFormed) : a.complement.WellFormed := by
  obtain ⟨next, hd, -⟩ := determinize_spec h
  exact hd.flip.wellFormed

/-! ## Pairs of states -/

namespace Complete

/-- The row of a state lists the states that follow it. -/
theorem rowTable_eq (h : Complete d next) (hi : i < d.size) :
    d.rowTable[i]?.getD [] = allBytes.map (next i) := by
  have hst : d.states[i]? = some d.states[i] := Array.getElem?_eq_getElem hi
  unfold rowTable
  rw [Array.getElem?_map, hst, Option.map_some, Option.getD_some]
  refine List.map_congr_left fun c _ => ?_
  obtain ⟨l, ⟨st, hst', hl⟩, hread⟩ := (h.edge_iff i c _ hi).mpr rfl
  obtain rfl := Option.some.inj (hst.symm.trans hst')
  unfold targetOn
  split
  · next t ht =>
    have hmem := List.mem_reverse.mp (List.mem_of_find?_eq_some ht)
    have hread := List.find?_some ht
    exact ((h.edge_iff i c _ hi).mp ⟨t.label, ⟨_, hst, hmem⟩, hread⟩).symm
  · next hnone =>
    exact absurd hread (List.find?_eq_none.mp hnone ⟨l, _⟩ (List.mem_reverse.mpr hl))

end Complete

/-- The pair that follows a pair of states. -/
def nextPair (nextA nextB : Nat → UInt8 → Nat) (k : Nat × Nat) (c : UInt8) : Nat × Nat :=
  (nextA k.1 c, nextB k.2 c)

theorem foldl_nextPair (k : Nat × Nat) (w : List UInt8) :
    w.foldl (nextPair nextA nextB) k = (w.foldl nextA k.1, w.foldl nextB k.2) := by
  induction w generalizing k with
  | nil => rfl
  | cons c w ih => exact ih _

/-- Both members are states. -/
def Paired (a b : Automaton) (k : Nat × Nat) : Prop := k.1 < a.size ∧ k.2 < b.size

theorem paired_start (ha : a.WellFormed) (hb : b.WellFormed) : Paired a b (a.start, b.start) :=
  ⟨ha.start_lt, hb.start_lt⟩

section
variable (ha : Complete da nextA) (hb : Complete db nextB)
include ha hb

theorem lawful_pairs : (pairs da db).Lawful (nextPair nextA nextB) (Paired da db) where
  code_inj := by
    rintro ⟨i, j⟩ ⟨i', j'⟩ hk
    simpa [pairs] using hk
  row_eq := by
    rintro ⟨i, j⟩ ⟨hi, hj⟩
    change expandRuns (runsOf ((da.rowTable[i]?.getD []).zip (db.rowTable[j]?.getD []))) = _
    rw [expandRuns_runsOf, ha.rowTable_eq hi, hb.rowTable_eq hj, List.zip_map']
    rfl
  row_good := by
    rintro ⟨i, j⟩ ⟨hi, hj⟩ r hr
    have hmem := fst_mem_of_mem_runsOf hr
    dsimp only at hmem
    rw [ha.rowTable_eq hi, hb.rowTable_eq hj, List.zip_map'] at hmem
    obtain ⟨c, -, hc⟩ := List.mem_map.mp hmem
    rw [← hc]
    exact ⟨ha.next_lt c hi, hb.next_lt c hj⟩

omit ha hb in
theorem grounded_pairs (a b : Automaton) :
    (pairs a b).Grounded (Paired a b) (a.size * b.size) where
  not_dangling _ _ := rfl
  verdict_some _ _ := ⟨_, rfl⟩
  length_le ks hnodup hgood := by
    have hsub : ks.toFinset ⊆ Finset.range a.size ×ˢ Finset.range b.size := by
      intro k hk
      obtain ⟨hi, hj⟩ := hgood k (List.mem_toFinset.mp hk)
      exact Finset.mem_product.mpr ⟨Finset.mem_range.mpr hi, Finset.mem_range.mpr hj⟩
    have hcard := Finset.card_le_card hsub
    rwa [List.toFinset_card_of_nodup hnodup, Finset.card_product, Finset.card_range,
      Finset.card_range] at hcard

omit ha hb in
/-- The first pair is recognized when it is met again. -/
theorem valid_pairs {good : Nat × Nat → Prop} (hfirst : good (a.start, b.start)) :
    Numbering.Valid (pairs a b) good 0
      ⟨#[((a.start, b.start), a.accepting.contains a.start && b.accepting.contains b.start)],
        Std.TreeMap.ofList [((pairs a b).code (a.start, b.start), 0)]⟩ where
  good_keys := by
    intro j k v hj
    obtain rfl : j = 0 := by simpa using (Array.getElem?_eq_some_iff.mp hj).1
    obtain ⟨rfl, -⟩ := Prod.mk.inj (Option.some.inj hj)
    exact hfirst
  named := by
    intro code j hj
    rw [Std.TreeMap.ofList_singleton, Std.TreeMap.getElem?_insert] at hj
    split at hj
    · next hcode =>
      obtain rfl := Option.some.inj hj
      exact ⟨_, _, Std.LawfulEqCmp.compare_eq_iff_eq.mp hcode, rfl, rfl⟩
    · simp at hj
  numbered := by
    intro j k v hlead hj
    obtain rfl : j = 0 := by simpa using (Array.getElem?_eq_some_iff.mp hj).1
    obtain ⟨rfl, -⟩ := Prod.mk.inj (Option.some.inj hj)
    simp

/-- A pair accepts when both members do. -/
theorem builds_productUpTo (limit : Nat) : Builds limit (da.size * db.size)
    (.strings fun w => da.meaning.whole w ∧ db.meaning.whole w) (productUpTo da db limit) := by
  have hlaw := lawful_pairs ha hb
  have hvalid := valid_pairs (paired_start ha.wellFormed hb.wellFormed)
  have hground := grounded_pairs da db
  cases hrun : productUpTo da db limit with
  | error err =>
    exact Nat.zero_add (da.size * db.size) ▸ Numbering.run_error hlaw hvalid hground hrun
  | ok d =>
    obtain ⟨next, hd, hmeaning⟩ := Numbering.run_spec hlaw hvalid rfl hrun
    have hsize := Numbering.size_run_le hlaw hvalid hground hrun
    refine ⟨hd.wellFormed, ?_, Nat.zero_add (da.size * db.size) ▸ hsize⟩
    refine hmeaning.trans (congrArg Meaning.strings (funext fun w => propext ?_))
    rw [ha.meaning_eq, hb.meaning_eq, foldl_nextPair]
    have hv (k : Nat × Nat) : (pairs da db).verdict k = some true ↔
        k.1 ∈ da.accepting ∧ k.2 ∈ db.accepting := by
      simp [pairs]
    split
    · next hnil =>
      subst hnil
      simp [Meaning.whole, Meaning.strings]
    · rw [hv]
      rfl

end

/-! ## Intersection -/

theorem le_productBound (a b : Automaton) :
    a.subsetBound ≤ a.productBound b ∧ b.subsetBound ≤ a.productBound b := by
  have ha : 0 < a.subsetBound := Nat.succ_pos _
  have hb : 0 < b.subsetBound := Nat.succ_pos _
  exact ⟨Nat.le_mul_of_pos_right _ hb, Nat.le_mul_of_pos_left _ ha⟩

theorem exists_of_intersectUpTo (hrun : a.intersectUpTo b limit = .ok d) :
    ∃ da db product, a.determinizeUpTo limit = .ok da ∧ b.determinizeUpTo limit = .ok db ∧
      productUpTo da db limit = .ok product ∧ d = product.prune := by
  unfold intersectUpTo at hrun
  cases hda : a.determinizeUpTo limit with
  | error err => simp [hda] at hrun
  | ok da =>
    cases hdb : b.determinizeUpTo limit with
    | error err => simp [hda, hdb] at hrun
    | ok db =>
      cases hproduct : productUpTo da db limit with
      | error err => simp [hda, hdb, hproduct, Except.map] at hrun
      | ok product =>
        refine ⟨da, db, product, rfl, rfl, hproduct, ?_⟩
        simpa [hda, hdb, hproduct, Except.map, eq_comm] using hrun

theorem builds_intersectUpTo (ha : a.WellFormed) (hb : b.WellFormed) (limit : Nat) :
    Builds limit (a.productBound b) (.strings fun w => a.meaning.whole w ∧ b.meaning.whole w)
      (a.intersectUpTo b limit) := by
  obtain ⟨hla, hlb⟩ := le_productBound a b
  unfold intersectUpTo
  cases hda : a.determinizeUpTo limit with
  | error err =>
    obtain ⟨herr, hlt⟩ := determinizeUpTo_error ha hda
    exact ⟨herr, by omega⟩
  | ok da =>
    obtain ⟨nextA, hca, hma⟩ := determinizeUpTo_spec ha hda
    have hsa := size_determinizeUpTo_le ha hda
    cases hdb : b.determinizeUpTo limit with
    | error err =>
      obtain ⟨herr, hlt⟩ := determinizeUpTo_error hb hdb
      exact ⟨herr, by omega⟩
    | ok db =>
      obtain ⟨nextB, hcb, hmb⟩ := determinizeUpTo_spec hb hdb
      have hsb := size_determinizeUpTo_le hb hdb
      have hmul : da.size * db.size ≤ a.productBound b := Nat.mul_le_mul hsa hsb
      have hproduct := builds_productUpTo hca hcb limit
      change Builds _ _ _ ((productUpTo da db limit).map prune)
      cases hrun : productUpTo da db limit with
      | error err =>
        rw [hrun] at hproduct
        exact ⟨hproduct.1, Nat.lt_of_lt_of_le hproduct.2 hmul⟩
      | ok d =>
        rw [hrun] at hproduct
        obtain ⟨hd, hmeaning, hsize⟩ := hproduct
        refine ⟨.prune d, ?_, (size_prune_le hd).trans (hsize.trans hmul)⟩
        rw [meaning_prune hd, hmeaning, hma, hmb]
        rfl

end Automaton

end PatternAutomata
