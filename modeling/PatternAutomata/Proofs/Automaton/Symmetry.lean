import PatternAutomata.Proofs.Automaton.Discovery

/-!
# Operands in either order

A product meets the pairs of states in the order of the texts that lead to them, and in this the two
members of a pair count the same. So the product of two automata is the product of the two in the
other order, number by number, and a budget refuses both or neither.
-/
namespace PatternAutomata.Automaton
variable {a b d d' da db : Automaton} {nextA nextB : Nat → UInt8 → Nat} {limit limit' : Nat}

section
variable (ha : Complete da nextA) (hb : Complete db nextB)
include ha hb

theorem exists_breadthFirst_of_productUpTo (hrun : productUpTo da db limit = .ok d) :
    ∃ next key, d.BreadthFirst next ∧
      d.Keyed next (nextPair nextA nextB) (da.start, db.start) 0 key :=
  Worklist.exists_breadthFirst_of_run (lawful_pairs ha hb) (fun _ _ _ hr => pos_of_mem_runsOf hr)
    (valid_pairs (paired_start ha.wellFormed hb.wellFormed)) (fun _ _ _ => Nat.zero_le _)
    (Nat.zero_le 1) rfl hrun

theorem whole_productUpTo (hrun : productUpTo da db limit = .ok d) (w : List UInt8) :
    d.meaning.whole w ↔ da.meaning.whole w ∧ db.meaning.whole w := by
  have hbuilds := builds_productUpTo ha hb limit
  rw [hrun] at hbuilds
  rw [hbuilds.meaning_eq]
  rfl

/-- Pairs and pairs the other way round tell the same texts apart. -/
theorem productUpTo_eq_of_swap (hrun : productUpTo da db limit = .ok d)
    (hrun' : productUpTo db da limit' = .ok d') : d = d' := by
  obtain ⟨next, key, h, hkey⟩ := exists_breadthFirst_of_productUpTo ha hb hrun
  obtain ⟨next', key', h', hkey'⟩ := exists_breadthFirst_of_productUpTo hb ha hrun'
  refine h.ext h' (fun u w => ?_) (fun w => ?_)
  · rw [hkey.foldl_eq_iff h, hkey'.foldl_eq_iff h']
    simp only [foldl_nextPair, Prod.mk.injEq]
    exact and_comm
  · rw [whole_productUpTo ha hb hrun, whole_productUpTo hb ha hrun']
    exact and_comm

theorem productUpTo_comm (hlimit : 0 < limit) :
    productUpTo da db limit = productUpTo db da limit := by
  obtain ⟨-, d, hd⟩ := exists_productUpTo_eq ha hb
  obtain ⟨-, d', hd'⟩ := exists_productUpTo_eq hb ha
  have hrun : productUpTo da db ((reachedPairs da db).ncard + 1) = .ok d := by
    rw [hd _ (Nat.succ_pos _), if_pos (Nat.le_succ _)]
  have hrun' : productUpTo db da ((reachedPairs db da).ncard + 1) = .ok d' := by
    rw [hd' _ (Nat.succ_pos _), if_pos (Nat.le_succ _)]
  have hsame : d = d' := productUpTo_eq_of_swap ha hb hrun hrun'
  have hncard : (reachedPairs da db).ncard = (reachedPairs db da).ncard := by
    rw [← size_productUpTo ha hb hrun, ← size_productUpTo hb ha hrun', hsame]
  rw [hd limit hlimit, hd' limit hlimit, hsame, hncard]

end

/-- A budget that is too small for one operand is reported alike, whichever operand it is. -/
theorem intersectUpTo_comm (ha : a.WellFormed) (hb : b.WellFormed) (limit : Nat) :
    a.intersectUpTo b limit = b.intersectUpTo a limit := by
  obtain ⟨nextA, hca, -⟩ := determinize_spec ha
  obtain ⟨nextB, hcb, -⟩ := determinize_spec hb
  rw [intersectUpTo_eq_bind, intersectUpTo_eq_bind, determinizeUpTo_eq_ite ha.determinable,
    determinizeUpTo_eq_ite hb.determinable]
  by_cases hla : a.determinize.size ≤ limit
  · by_cases hlb : b.determinize.size ≤ limit
    · have hpos : 0 < limit := (Nat.zero_lt_of_lt hca.wellFormed.start_lt).trans_le hla
      rw [if_pos hla, if_pos hlb]
      exact congrArg (Except.map prune) (productUpTo_comm hca hcb hpos)
    · rw [if_pos hla, if_neg hlb]
      rfl
  · by_cases hlb : b.determinize.size ≤ limit
    · rw [if_neg hla, if_pos hlb]
      rfl
    · rw [if_neg hla, if_neg hlb]

/-- The intersection does not depend on the order of its operands, with a budget or without: the
result is the same state for state, or the same error. -/
theorem intersect_symm (ha : a.WellFormed) (hb : b.WellFormed) :
    (∀ limit, a.intersectUpTo b limit = b.intersectUpTo a limit) ∧
      a.intersect b = b.intersect a := by
  refine ⟨intersectUpTo_comm ha hb, ?_⟩
  have hbound : a.productBound b = b.productBound a := Nat.mul_comm _ _
  rw [intersect, intersect, hbound, intersectUpTo_comm ha hb]

/-- Either way five pairs are met, of which pruning leaves two. -/
theorem intersect_symm_anchoredLoop : anchoredLoop.WellFormed ∧ anyByte.WellFormed ∧
    anchoredLoop.intersectUpTo anyByte 4 = .error (.tooManyStates 4) ∧
    anyByte.intersectUpTo anchoredLoop 4 = .error (.tooManyStates 4) ∧
    anchoredLoop.intersectUpTo anyByte 5 =
      .ok ⟨#[{ transitions := [⟨.bytes 0 9, 1⟩] }, {}], 0, {1}⟩ ∧
    anyByte.intersectUpTo anchoredLoop 5 =
      .ok ⟨#[{ transitions := [⟨.bytes 0 9, 1⟩] }, {}], 0, {1}⟩ := by
  have ha : anchoredLoop.WellFormed := by decide
  have hb : anyByte.WellFormed := by decide
  have hfour : anchoredLoop.intersectUpTo anyByte 4 = .error (.tooManyStates 4) := by
    decide +kernel
  have hfive : anchoredLoop.intersectUpTo anyByte 5 =
      .ok ⟨#[{ transitions := [⟨.bytes 0 9, 1⟩] }, {}], 0, {1}⟩ := by
    decide +kernel
  obtain ⟨hsame, -⟩ := intersect_symm ha hb
  exact ⟨ha, hb, hfour, (hsame 4).symm.trans hfour, hfive, (hsame 5).symm.trans hfive⟩

end PatternAutomata.Automaton
