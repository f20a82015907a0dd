import PatternAutomata.Proofs.Automaton.Refusal
import PatternAutomata.Proofs.Automaton.Subset

/-!
# The budget of a numbering

A budget decides whether a construction is given up, and nothing else. So every budget that the
result fits gives the same result, and a smaller one gives none.
-/
namespace PatternAutomata
namespace Numbering
variable {κ : Type} {space : KeySpace κ} {step : κ → UInt8 → κ} {good : κ → Prop}
  {limit limit' i : Nat} {s s' : Numbering κ} {key : κ} {number : Nat}

/-- A visit finds the key, or it numbers a new key for which there is room. -/
theorem visit_eq_ok_iff : s.visit space limit key = .ok (number, s') ↔
    space.dangling key = false ∧ ((s.numbers[space.code key]? = some number ∧ s' = s) ∨
      (s.numbers[space.code key]? = none ∧ s.keys.size < limit ∧ number = s.keys.size ∧
        ∃ v, space.verdict key = some v ∧
          s' = ⟨s.keys.push (key, v), s.numbers.insert (space.code key) s.keys.size⟩)) := by
  unfold visit
  dsimp only
  cases space.dangling key with
  | true => simp
  | false =>
    cases s.numbers[space.code key]? with
    | some n => simp [eq_comm]
    | none =>
      by_cases hroom : s.keys.size < limit
      · rw [if_neg (Nat.not_le.mpr hroom)]
        cases space.verdict key with
        | none => simp
        | some v => simp [hroom, eq_comm]
      · simp [hroom, Nat.not_lt.mp hroom]

theorem keys_size_le_of_visit (h : s.visit space limit key = .ok (number, s')) :
    s.keys.size ≤ s'.keys.size := by
  obtain ⟨-, ⟨-, rfl⟩ | ⟨-, -, -, v, -, rfl⟩⟩ := visit_eq_ok_iff.mp h
  · exact Nat.le_refl _
  · simp

/-- A new key needs room. -/
theorem lt_of_visit_new (h : s.visit space limit key = .ok (number, s'))
    (hnew : s.numbers[space.code key]? = none) : s.keys.size < limit := by
  obtain ⟨-, ⟨hn, -⟩ | ⟨-, hroom, -⟩⟩ := visit_eq_ok_iff.mp h
  · simp [hnew] at hn
  · exact hroom

theorem visit_budget (h : s.visit space limit key = .ok (number, s'))
    (hfits : s'.keys.size ≤ limit') : s.visit space limit' key = .ok (number, s') := by
  obtain ⟨hdangling, ⟨hn, rfl⟩ | ⟨hn, -, hnumber, v, hv, rfl⟩⟩ := visit_eq_ok_iff.mp h
  · exact visit_eq_ok_iff.mpr ⟨hdangling, .inl ⟨hn, rfl⟩⟩
  · rw [Array.size_push] at hfits
    exact visit_eq_ok_iff.mpr ⟨hdangling, .inr ⟨hn, hfits, hnumber, v, hv, rfl⟩⟩

theorem visitRow_cons_ok {n : Nat} {row : List (κ × Nat)} {numbers : List (Nat × Nat)}
    (h : visitRow space limit ((key, n) :: row) s = .ok (numbers, s')) :
    ∃ number s₁ ns, s.visit space limit key = .ok (number, s₁) ∧
      visitRow space limit row s₁ = .ok (ns, s') ∧ numbers = (number, n) :: ns := by
  simp only [visitRow] at h
  split at h
  · simp at h
  · next number s₁ h₁ =>
    split at h
    · simp at h
    · next ns s₂ h₂ =>
      obtain ⟨rfl, rfl⟩ := Prod.mk.inj (Except.ok.inj h)
      exact ⟨number, s₁, ns, h₁, h₂, rfl⟩

/-- What is visited does not dangle. -/
theorem not_dangling_of_visitRow {row : List (κ × Nat)} {numbers : List (Nat × Nat)}
    (h : visitRow space limit row s = .ok (numbers, s')) :
    ∀ p ∈ row, space.dangling p.1 = false := by
  induction row generalizing s numbers with
  | nil => simp
  | cons p row ih =>
    obtain ⟨number, s₁, ns, h₁, h₂, -⟩ := visitRow_cons_ok h
    exact List.forall_mem_cons.mpr ⟨(visit_eq_ok_iff.mp h₁).1, ih h₂⟩

theorem keys_size_le_of_visitRow {row : List (κ × Nat)} {numbers : List (Nat × Nat)}
    (h : visitRow space limit row s = .ok (numbers, s')) : s.keys.size ≤ s'.keys.size := by
  induction row generalizing s numbers with
  | nil =>
    obtain ⟨-, rfl⟩ := Prod.mk.inj (Except.ok.inj h)
    exact Nat.le_refl _
  | cons p row ih =>
    obtain ⟨number, s₁, ns, h₁, h₂, -⟩ := visitRow_cons_ok h
    exact (keys_size_le_of_visit h₁).trans (ih h₂)

theorem visitRow_budget {row : List (κ × Nat)} {numbers : List (Nat × Nat)}
    (h : visitRow space limit row s = .ok (numbers, s')) (hfits : s'.keys.size ≤ limit') :
    visitRow space limit' row s = .ok (numbers, s') := by
  induction row generalizing s numbers with
  | nil => exact h
  | cons p row ih =>
    obtain ⟨number, s₁, ns, h₁, h₂, rfl⟩ := visitRow_cons_ok h
    have hle := keys_size_le_of_visitRow h₂
    simp only [visitRow, visit_budget h₁ (hle.trans hfits), ih h₂]

/-- What a finished walk says about the number of keys: it never falls, and it does not pass a
budget that it had not passed before. -/
theorem keys_size_of_writeRows {states states' : Array State} {keys : Array (κ × Bool)}
    (h : writeRows space limit i s states = .ok (keys, states')) :
    s.keys.size ≤ keys.size ∧ max limit keys.size = max limit s.keys.size := by
  fun_induction writeRows space limit i s states with
  | case1 => simp at h
  | case2 i s states hi row s' hrow ih =>
    obtain ⟨hle, hmax⟩ := ih h
    exact ⟨(keys_size_le_of_visitRow hrow).trans hle, hmax.trans (size_visitRow hrow)⟩
  | case3 i s states hi =>
    obtain ⟨rfl, -⟩ := Prod.mk.inj (Except.ok.inj h)
    exact ⟨Nat.le_refl _, rfl⟩

/-- Whatever rows are written, no key that has got a number dangles. -/
theorem valid_of_writeRows {lead : Nat} {states states' : Array State} {keys : Array (κ × Bool)}
    (hs : s.Valid space (space.dangling · = false) lead)
    (h : writeRows space limit i s states = .ok (keys, states')) :
    ∃ t : Numbering κ, t.keys = keys ∧ t.Valid space (space.dangling · = false) lead := by
  fun_induction writeRows space limit i s states with
  | case1 => simp at h
  | case2 i s states hi row s' hrow ih =>
    obtain ⟨hs', -⟩ := visitRow_spec hs (not_dangling_of_visitRow hrow) hrow
    exact ih hs' h
  | case3 i s states hi =>
    obtain ⟨rfl, -⟩ := Prod.mk.inj (Except.ok.inj h)
    exact ⟨s, rfl, hs⟩

theorem size_of_writeRows {states states' : Array State} {keys : Array (κ × Bool)}
    (h : writeRows space limit i s states = .ok (keys, states')) (hsize : states.size = i)
    (hi : i ≤ s.keys.size) : states'.size = keys.size := by
  fun_induction writeRows space limit i s states with
  | case1 => simp at h
  | case2 i s states hlt row s' hrow ih =>
    have := keys_size_le_of_visitRow hrow
    exact ih h (by simp [hsize]) (by omega)
  | case3 i s states hge =>
    obtain ⟨rfl, rfl⟩ := Prod.mk.inj (Except.ok.inj h)
    omega

theorem writeRows_budget {states states' : Array State} {keys : Array (κ × Bool)}
    (h : writeRows space limit i s states = .ok (keys, states')) (hfits : keys.size ≤ limit') :
    writeRows space limit' i s states = .ok (keys, states') := by
  fun_induction writeRows space limit i s states with
  | case1 => simp at h
  | case2 i s states hi row s' hrow ih =>
    have hle := (keys_size_of_writeRows h).1
    rw [writeRows, dif_pos hi]
    split
    · next err herr => simp [visitRow_budget hrow (hle.trans hfits)] at herr
    · next row₁ s₁ hrow₁ =>
      rw [visitRow_budget hrow (hle.trans hfits)] at hrow₁
      obtain ⟨rfl, rfl⟩ := Prod.mk.inj (Except.ok.inj hrow₁)
      exact ih h
  | case3 i s states hi =>
    rw [writeRows, dif_neg hi]
    exact h

variable {d : Automaton}

theorem run_ok (h : run space limit s = .ok d) : ∃ keys states,
    writeRows space limit 0 s #[] = .ok (keys, states) ∧ d = toAutomaton keys states ∧
      d.size = keys.size := by
  unfold run at h
  split at h
  · simp at h
  · next keys states hwrite =>
    obtain rfl := Except.ok.inj h
    exact ⟨keys, states, hwrite, rfl, size_of_writeRows hwrite rfl (Nat.zero_le _)⟩

/-- A result is the result for every budget that it fits. -/
theorem run_budget (h : run space limit s = .ok d) (hfits : d.size ≤ limit') :
    run space limit' s = .ok d := by
  obtain ⟨keys, states, hwrite, rfl, hsize⟩ := run_ok h
  unfold run
  rw [writeRows_budget hwrite (hsize ▸ hfits)]

/-- Where the successors of the first key are new, the result fits the budget. -/
theorem size_run_le_limit {first : κ} {v : Bool} (hlaw : space.Lawful step good)
    (hfirst : good first) (h : run space limit ⟨#[(first, v)], ∅⟩ = .ok d) : d.size ≤ limit := by
  obtain ⟨keys, states, hwrite, rfl, hsize⟩ := run_ok h
  have hmax := (keys_size_of_writeRows hwrite).2
  suffices hlimit : 1 < limit by
    simp only [List.size_toArray, List.length_cons, List.length_nil] at hmax
    omega
  obtain ⟨⟨key, n⟩, hmem, -⟩ := hlaw.mem_row hfirst 0
  rw [writeRows, dif_pos (by simp)] at hwrite
  split at hwrite
  · simp at hwrite
  · next row s' hrow =>
    simp only [List.getElem_toArray, List.getElem_cons_zero] at hrow
    cases hcons : space.row first with
    | nil => simp [hcons] at hmem
    | cons p ps =>
      rw [hcons] at hrow
      obtain ⟨number, s₁, ns, hvisit, -, -⟩ := visitRow_cons_ok hrow
      exact lt_of_visit_new hvisit (by simp)

end Numbering

namespace Automaton
variable {a d : Automaton} {limit : Nat}

/-- Whether the subset construction finds all states that it looks at. -/
def Determinable (a : Automaton) : Prop := a.determinizeUpTo a.subsetBound = .ok a.determinize

theorem WellFormed.determinable (h : a.WellFormed) : a.Determinable := determinizeUpTo_subsetBound h

theorem determinizeUpTo_eq_ok_iff_run : a.determinizeUpTo limit = .ok d ↔
    a.leaves (a.growThrough (a.initial [.textStart]) [.textStart, .textEnd]) = false ∧
      Numbering.run a.subsets limit ⟨#[(a.initial [.textStart], a.meetsAccepting
        (a.growThrough (a.initial [.textStart]) [.textStart, .textEnd]))], ∅⟩ = .ok d := by
  unfold determinizeUpTo
  dsimp only
  cases a.leaves (a.growThrough (a.initial [.textStart]) [.textStart, .textEnd]) <;> simp

section
variable (hrun : a.determinizeUpTo limit = .ok d)
include hrun

/-- The sets that have been looked at have members that exist, of which there are only so many. -/
theorem size_le_subsetBound : d.size ≤ a.subsetBound := by
  obtain ⟨hleaves, hrun⟩ := determinizeUpTo_eq_ok_iff_run.mp hrun
  have hfirst : a.leaves (a.initial [.textStart]) = false := by
    rw [leaves_eq_false] at hleaves ⊢
    intro i hi
    exact hleaves i ((mem_growThrough (closed_initial a _)).mpr ⟨i, hi, .refl⟩)
  obtain ⟨keys, states, hwrite, -, hsize⟩ := Numbering.run_ok hrun
  obtain ⟨t, rfl, ht⟩ := Numbering.valid_of_writeRows (valid_start hfirst _) hwrite
  have hlength := length_le_of_within ht.nodup_keys fun set hset =>
    leaves_eq_false.mp (ht.good_of_mem (List.mem_of_mem_drop hset))
  rw [hsize, subsetBound_eq]
  simp only [List.length_drop, List.length_map, Array.length_toList] at hlength
  omega

theorem exists_complete_of_determinizeUpTo : ∃ next, d.Complete next := by
  obtain ⟨-, hrun⟩ := determinizeUpTo_eq_ok_iff_run.mp hrun
  obtain ⟨next, hd, -⟩ :=
    Numbering.run_spec (lawful_subsets_any a) (valid_start trivial _) rfl hrun
  exact ⟨next, hd⟩

end

/-- The subset construction with a budget gives the deterministic automaton where that fits. -/
theorem determinizeUpTo_eq_ok_iff : a.determinizeUpTo limit = .ok d ↔
    a.Determinable ∧ d = a.determinize ∧ d.size ≤ limit := by
  constructor
  · intro hrun
    obtain ⟨hleaves, hrun'⟩ := determinizeUpTo_eq_ok_iff_run.mp hrun
    have hwhole : a.determinizeUpTo a.subsetBound = .ok d := determinizeUpTo_eq_ok_iff_run.mpr
      ⟨hleaves, Numbering.run_budget hrun' (size_le_subsetBound hrun)⟩
    have heq : a.determinize = d := by rw [determinize, hwhole]
    refine ⟨?_, heq.symm, Numbering.size_run_le_limit (lawful_subsets_any a) trivial hrun'⟩
    rw [Determinable, heq]
    exact hwhole
  · rintro ⟨hwhole, rfl, hfits⟩
    obtain ⟨hleaves, hrun⟩ := determinizeUpTo_eq_ok_iff_run.mp hwhole
    exact determinizeUpTo_eq_ok_iff_run.mpr ⟨hleaves, Numbering.run_budget hrun hfits⟩

/-- A smaller budget gives the same result or refuses, and what fits is not refused. -/
theorem determinizeUpTo_eq_ite (h : a.Determinable) (limit : Nat) : a.determinizeUpTo limit =
    if a.determinize.size ≤ limit then .ok a.determinize else .error (.tooManyStates limit) := by
  split
  · next hfits => exact determinizeUpTo_eq_ok_iff.mpr ⟨h, rfl, hfits⟩
  · next hexceeds =>
    have hle : limit ≤ a.subsetBound :=
      (Nat.le_of_not_le hexceeds).trans (size_le_subsetBound h)
    rcases determinizeUpTo_raise hle a with ⟨err, hrun, rfl⟩ | hsame
    · exact hrun
    · exact absurd (determinizeUpTo_eq_ok_iff.mp (hsame.symm.trans h)).2.2 hexceeds

section
variable (h : a.WellFormed)
include h

theorem determinizeUpTo_eq_ok (hfits : a.determinize.size ≤ limit) :
    a.determinizeUpTo limit = .ok a.determinize := by
  rw [determinizeUpTo_eq_ite h.determinable, if_pos hfits]

theorem determinizeUpTo_eq_error (hexceeds : limit < a.determinize.size) :
    a.determinizeUpTo limit = .error (.tooManyStates limit) := by
  rw [determinizeUpTo_eq_ite h.determinable, if_neg (Nat.not_le.mpr hexceeds)]

theorem complementInPlace_eq (hfits : a.determinize.size ≤ limit) :
    a.complementInPlace limit = (.ok (), a.complement) := by
  rw [complementInPlace, complementUpTo, determinizeUpTo_eq_ok h hfits]
  rfl

end

end Automaton

end PatternAutomata
