import Mathlib.Data.Set.Card
import PatternAutomata.Proofs.Automaton.Laws

/-!
# The states of a product

A product has a state for each pair of states that one text leads to, and for no other pair. So
three numbers decide whether the budget of an intersection suffices: those of the states of the two
deterministic automata, and that of the pairs.
-/
namespace PatternAutomata

/-! ## Keys that are reached -/

variable {κ : Type} {space : KeySpace κ} {step : κ → UInt8 → κ} {good : κ → Prop} {first : κ}

/-- The keys that texts lead to. -/
def reachedKeys (step : κ → UInt8 → κ) (first : κ) : Set κ :=
  {k | ∃ w : List UInt8, w.foldl step first = k}

/-- Where no run is empty, a row lists nothing but successors, which are reached with their key. -/
theorem KeySpace.Lawful.reached (h : space.Lawful step good) (first : κ)
    (hpos : ∀ k, good k → ∀ r ∈ space.row k, 0 < r.2) :
    space.Lawful step fun k => good k ∧ k ∈ reachedKeys step first := by
  refine h.restrict (fun _ hk => hk.1) ?_
  rintro _ ⟨hk, w, rfl⟩ r hr
  have hmem := fst_mem_expandRuns hr (hpos _ hk r hr)
  rw [h.row_eq _ hk] at hmem
  obtain ⟨c, -, hc⟩ := List.mem_map.mp hmem
  exact ⟨h.row_good _ hk r hr, w ++ [c], by rw [← hc, List.foldl_append]; rfl⟩

namespace Numbering
variable {limit : Nat} {s : Numbering κ} {v : Bool} {d : Automaton}

/-- A numbering that recognizes its first key has one number for each key that is reached. -/
theorem size_run_eq_ncard [DecidableEq κ] (h : space.Lawful step good)
    (hs : s.Valid space good 0) (hreached : ∀ k, good k → k ∈ reachedKeys step first)
    (hkeys : s.keys = #[(first, v)]) (hrun : run space limit s = .ok d) :
    d.size = (reachedKeys step first).ncard := by
  obtain ⟨keys, states, hwrite, -, hsize⟩ := run_ok hrun
  obtain ⟨t, rfl, ht, hext, hwt⟩ := writeRows_spec h hs (.zero space step s) hwrite
  have hfirst : t.keys[0]? = some (first, v) := hext.keys _ _ (by simp [hkeys])
  have hmem : ((t.keys.toList.map (·.1)).toFinset : Set κ) = reachedKeys step first := by
    ext k
    rw [Finset.mem_coe, List.mem_toFinset]
    constructor
    · exact fun hk => hreached k (ht.good_of_mem hk)
    · rintro ⟨w, rfl⟩
      obtain ⟨v', hk, -⟩ := hwt.keys_foldl h ht hfirst w
      exact List.mem_map.mpr ⟨_, Array.mem_toList_iff.mpr (Array.mem_of_getElem? hk), rfl⟩
  have hnodup : (t.keys.toList.map (·.1)).Nodup := ht.nodup_keys
  rw [hsize, ← hmem, Set.ncard_coe_finset, List.toFinset_card_of_nodup hnodup, List.length_map,
    Array.length_toList]

/-- Only the first key is numbered without asking for room. -/
theorem size_run_le_max (hkeys : s.keys.size = 1) (hrun : run space limit s = .ok d) :
    d.size ≤ max limit 1 := by
  obtain ⟨keys, states, hwrite, -, hsize⟩ := run_ok hrun
  have := (keys_size_of_writeRows hwrite).2
  omega

end Numbering

namespace Automaton
variable {a b d da db : Automaton} {nextA nextB : Nat → UInt8 → Nat} {limit : Nat}

/-! ## Pairs that are reached -/

/-- The pairs of states that one text leads to. -/
def reachedPairs (a b : Automaton) : Set (Nat × Nat) :=
  {k | ∃ w, Path a.Edge true true a.start w k.1 ∧ Path b.Edge true true b.start w k.2}

section
variable (ha : Complete da nextA) (hb : Complete db nextB)
include ha hb

theorem reachedPairs_eq :
    reachedPairs da db = reachedKeys (nextPair nextA nextB) (da.start, db.start) := by
  ext k
  refine exists_congr fun w => ?_
  rw [ha.path_iff ha.wellFormed.start_lt, hb.path_iff hb.wellFormed.start_lt, foldl_nextPair,
    Prod.ext_iff]

theorem size_productUpTo (hrun : productUpTo da db limit = .ok d) :
    d.size = (reachedPairs da db).ncard := by
  have hlaw := (lawful_pairs ha hb).reached (da.start, db.start)
    fun _ _ _ hr => pos_of_mem_runsOf hr
  have hfirst := paired_start ha.wellFormed hb.wellFormed
  rw [reachedPairs_eq ha hb]
  exact Numbering.size_run_eq_ncard hlaw (valid_pairs ⟨hfirst, [], rfl⟩) (fun _ hk => hk.2) rfl hrun

/-- A product is given up where the pairs that are reached exceed the budget. -/
theorem exists_productUpTo_eq : (reachedPairs da db).ncard ≤ da.size * db.size ∧
    ∃ d, ∀ limit, 0 < limit → productUpTo da db limit =
      if (reachedPairs da db).ncard ≤ limit then .ok d else .error (.tooManyStates limit) := by
  have hwhole := builds_productUpTo ha hb (da.size * db.size)
  cases hrun : productUpTo da db (da.size * db.size) with
  | error err =>
    rw [hrun] at hwhole
    exact absurd hwhole.2 (Nat.lt_irrefl _)
  | ok d =>
    rw [hrun] at hwhole
    have hsize := size_productUpTo ha hb hrun
    refine ⟨hsize ▸ hwhole.size_le, d, fun limit hlimit => ?_⟩
    split
    · next hfits => exact Numbering.run_budget hrun (hsize ▸ hfits)
    · next hexceeds =>
      have hbuilds := builds_productUpTo ha hb limit
      cases hrun' : productUpTo da db limit with
      | error err =>
        rw [hrun'] at hbuilds
        rw [hbuilds.1]
      | ok d' =>
        have hsize' := size_productUpTo ha hb hrun'
        have hle := Numbering.size_run_le_max rfl hrun'
        omega

end

/-! ## Intersections with a budget -/

theorem intersectUpTo_eq_ite (ha : a.Determinable) (hb : b.Determinable) (limit : Nat) :
    a.intersectUpTo b limit =
      if a.determinize.size ≤ limit ∧ b.determinize.size ≤ limit ∧
          (reachedPairs a.determinize b.determinize).ncard ≤ limit
      then .ok (a.intersect b) else .error (.tooManyStates limit) := by
  obtain ⟨nextA, hca⟩ := exists_complete_of_determinizeUpTo ha
  obtain ⟨nextB, hcb⟩ := exists_complete_of_determinizeUpTo hb
  obtain ⟨hncard, d, hproduct⟩ := exists_productUpTo_eq hca hcb
  have hrun (limit : Nat) : a.intersectUpTo b limit =
      if a.determinize.size ≤ limit ∧ b.determinize.size ≤ limit ∧
          (reachedPairs a.determinize b.determinize).ncard ≤ limit
      then .ok d.prune else .error (.tooManyStates limit) := by
    rw [intersectUpTo_eq_bind, determinizeUpTo_eq_ite ha, determinizeUpTo_eq_ite hb]
    by_cases hla : a.determinize.size ≤ limit
    · by_cases hlb : b.determinize.size ≤ limit
      · have hpos : 0 < limit := (Nat.zero_lt_of_lt hca.wellFormed.start_lt).trans_le hla
        rw [if_pos hla, if_pos hlb]
        change (productUpTo a.determinize b.determinize limit).map prune = _
        rw [hproduct limit hpos]
        by_cases hpairs : (reachedPairs a.determinize b.determinize).ncard ≤ limit
        · rw [if_pos hpairs]
          exact (if_pos ⟨hla, hlb, hpairs⟩).symm
        · rw [if_neg hpairs]
          exact (if_neg fun h => hpairs h.2.2).symm
      · rw [if_pos hla, if_neg hlb]
        exact (if_neg fun h => hlb h.2.1).symm
    · rw [if_neg hla]
      exact (if_neg fun h => hla h.1).symm
  have hintersect : a.intersect b = d.prune := by
    have hsa := size_le_subsetBound ha
    have hsb := size_le_subsetBound hb
    obtain ⟨hba, hbb⟩ := le_productBound a b
    have hpairs : (reachedPairs a.determinize b.determinize).ncard ≤ a.productBound b :=
      hncard.trans (Nat.mul_le_mul hsa hsb)
    rw [intersect, hrun, if_pos ⟨hsa.trans hba, hsb.trans hbb, hpairs⟩]
  rw [hintersect, hrun]

/-- A budget changes nothing but whether there is a result. What counts is the deterministic
automata and, for an intersection, the pairs of their states that one text leads to. Where the
subset construction finds all states that it looks at, as it does in a well-formed automaton,
nothing but the budget stands in the way. -/
theorem budget_law (a b : Automaton) (limit : Nat) :
    (a.WellFormed → a.Determinable) ∧
    (a.Determinable → a.determinizeUpTo limit =
      if a.determinize.size ≤ limit then .ok a.determinize else .error (.tooManyStates limit)) ∧
    (a.Determinable → b.Determinable → a.intersectUpTo b limit =
      if a.determinize.size ≤ limit ∧ b.determinize.size ≤ limit ∧
          (reachedPairs a.determinize b.determinize).ncard ≤ limit
      then .ok (a.intersect b) else .error (.tooManyStates limit)) ∧
    ∀ c, a.intersectUpTo b limit = .ok c ↔
      (a.Determinable ∧ a.determinize.size ≤ limit) ∧
        (b.Determinable ∧ b.determinize.size ≤ limit) ∧
        (reachedPairs a.determinize b.determinize).ncard ≤ limit ∧ c = a.intersect b := by
  refine ⟨WellFormed.determinable, fun ha => determinizeUpTo_eq_ite ha limit,
    fun ha hb => intersectUpTo_eq_ite ha hb limit, fun c => ⟨fun hrun => ?_, ?_⟩⟩
  · obtain ⟨da, db, -, hda, hdb, -⟩ := exists_of_intersectUpTo hrun
    obtain ⟨ha, rfl, hla⟩ := determinizeUpTo_eq_ok_iff.mp hda
    obtain ⟨hb, rfl, hlb⟩ := determinizeUpTo_eq_ok_iff.mp hdb
    rw [intersectUpTo_eq_ite ha hb] at hrun
    split at hrun
    · next hfits => exact ⟨⟨ha, hla⟩, ⟨hb, hlb⟩, hfits.2.2, (Except.ok.inj hrun).symm⟩
    · cases hrun
  · rintro ⟨⟨ha, hla⟩, ⟨hb, hlb⟩, hpairs, rfl⟩
    rw [intersectUpTo_eq_ite ha hb, if_pos ⟨hla, hlb, hpairs⟩]

/-- A single byte, whatever it is. -/
def anyByte : Automaton where
  states := #[{ transitions := [⟨.bytes 0 255, 1⟩] }, {}]
  start := 0
  accepting := {1}

/-- Two automata of three states each, with five pairs. -/
theorem budget_anchoredLoop : anchoredLoop.WellFormed ∧ anyByte.WellFormed ∧
    anchoredLoop.determinize.size = 3 ∧ anyByte.determinize.size = 3 ∧
    (reachedPairs anchoredLoop.determinize anyByte.determinize).ncard = 5 ∧
    anchoredLoop.determinizeUpTo 3 = .ok anchoredLoop.determinize ∧
    anchoredLoop.determinizeUpTo 2 = .error (.tooManyStates 2) ∧
    anchoredLoop.intersectUpTo anyByte 5 = .ok (anchoredLoop.intersect anyByte) ∧
    anchoredLoop.intersectUpTo anyByte 4 = .error (.tooManyStates 4) := by
  have ha : anchoredLoop.WellFormed := by decide
  have hb : anyByte.WellFormed := by decide
  have hsa : anchoredLoop.determinize.size = 3 := by decide +kernel
  have hsb : anyByte.determinize.size = 3 := by decide +kernel
  have hpairs : (reachedPairs anchoredLoop.determinize anyByte.determinize).ncard = 5 := by
    obtain ⟨nextA, hca⟩ := exists_complete_of_determinizeUpTo ha.determinable
    obtain ⟨nextB, hcb⟩ := exists_complete_of_determinizeUpTo hb.determinable
    have hsize : (productUpTo anchoredLoop.determinize anyByte.determinize 5).map size = .ok 5 := by
      decide +kernel
    cases hrun : productUpTo anchoredLoop.determinize anyByte.determinize 5 with
    | error err => simp [hrun, Except.map] at hsize
    | ok d =>
      rw [hrun] at hsize
      exact (size_productUpTo hca hcb hrun).symm.trans (Except.ok.inj hsize)
  have hdet (limit : Nat) := (budget_law anchoredLoop anyByte limit).2.1 ha.determinable
  have hboth (limit : Nat) :=
    (budget_law anchoredLoop anyByte limit).2.2.1 ha.determinable hb.determinable
  refine ⟨ha, hb, hsa, hsb, hpairs, ?_, ?_, ?_, ?_⟩
  · rw [hdet, hsa, if_pos (by decide)]
  · rw [hdet, hsa, if_neg (by decide)]
  · rw [hboth, hsa, hsb, hpairs, if_pos (by decide)]
  · rw [hboth, hsa, hsb, hpairs, if_neg (by decide)]

end Automaton

end PatternAutomata
