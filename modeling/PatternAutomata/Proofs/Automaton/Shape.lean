import PatternAutomata.Proofs.Automaton.Discovery
import PatternAutomata.Proofs.Automaton.Named
import PatternAutomata.Proofs.Automaton.Tabular

/-!
# The shape of deterministic automata

What the subset construction writes has one form only. Every state divides the bytes among as few
ascending ranges as its targets allow, the numbers of the states follow their discovery, and each
state but the start has a set of its own.
-/
namespace PatternAutomata

/-! ## Ranges that divide the bytes -/

/-- Transitions on ascending ranges that divide the bytes among them. No two of them that follow each
other could be written as one. -/
structure ByteRow (transitions : List Transition) : Prop where
  ranges : ∀ t ∈ transitions, ∃ lo hi, t.label = .bytes lo hi ∧ lo ≤ hi
  ascending : transitions.Pairwise fun t t' =>
    ∀ c c', t.label.reads c = true → t'.label.reads c' = true → c < c'
  covers : ∀ c, ∃ t ∈ transitions, t.label.reads c = true
  neighbours : transitions.IsChain fun t t' => t.target ≠ t'.target

section
variable {α : Type} [DecidableEq α]

theorem isChain_consRun (x : α) {rs : List (α × Nat)} (h : rs.IsChain fun r r' => r.1 ≠ r'.1) :
    (consRun x rs).IsChain fun r r' => r.1 ≠ r'.1 := by
  cases rs with
  | nil => exact .singleton _
  | cons r rs =>
    obtain ⟨y, n⟩ := r
    by_cases hx : x = y
    · rw [consRun, if_pos hx]
      -- the run becomes longer, but it repeats the same element
      cases rs with
      | nil => exact .singleton _
      | cons r' rs =>
        rw [List.isChain_cons_cons] at h ⊢
        exact h
    · rw [consRun, if_neg hx, List.isChain_cons_cons]
      exact ⟨hx, h⟩

/-- Two runs that follow each other repeat different elements. -/
theorem isChain_runsOf (xs : List α) : (runsOf xs).IsChain fun r r' => r.1 ≠ r'.1 := by
  induction xs with
  | nil => exact .nil
  | cons x xs ih => exact isChain_consRun x ih

end

theorem map_target_transitionsFrom (first : Nat) (rs : List (Nat × Nat)) :
    (transitionsFrom first rs).map (·.target) = rs.map (·.1) := by
  induction rs generalizing first with
  | nil => rfl
  | cons r rs ih =>
    obtain ⟨target, n⟩ := r
    exact congrArg (target :: ·) (ih (first + n))

theorem pairwise_transitionsFrom {rs : List (Nat × Nat)} {first : Nat}
    (hpos : ∀ r ∈ rs, 0 < r.2) (hlen : first + (expandRuns rs).length ≤ byteCount) :
    (transitionsFrom first rs).Pairwise fun t t' =>
      ∀ c c', t.label.reads c = true → t'.label.reads c' = true → c < c' := by
  induction rs generalizing first with
  | nil => exact .nil
  | cons r rs ih =>
    obtain ⟨target, n⟩ := r
    have hrest : ∀ r ∈ rs, 0 < r.2 := fun r hr => hpos r (List.mem_cons_of_mem _ hr)
    rw [expandRuns_cons, List.length_append, List.length_replicate] at hlen
    refine .cons (fun t ht c c' hc hc' => ?_) (ih hrest (by omega))
    have hless := ((reads_range_iff (hpos _ List.mem_cons_self) (by omega)).mp hc).2
    have hmore := ((mem_transitionsFrom hrest (by omega)).mp ⟨t, ht, hc', rfl⟩).1
    exact UInt8.lt_iff_toNat_lt.mpr (Nat.lt_of_lt_of_le hless hmore)

theorem byteRow_rowTransitions {row : List Nat} (h : row.length = byteCount) :
    ByteRow (rowTransitions row) where
  ranges t ht := by
    obtain ⟨lo, hi, hl⟩ := bytes_of_mem_rowTransitions ht
    obtain ⟨c, hc⟩ := reads_of_mem_rowTransitions h ht
    rw [hl, Label.reads_bytes] at hc
    exact ⟨lo, hi, hl, UInt8.le_trans hc.1 hc.2⟩
  ascending := pairwise_transitionsFrom (fun _ => pos_of_mem_runsOf) (by simp [h])
  covers c := by
    have hlt : c.toNat < row.length := h ▸ c.toNat_lt
    obtain ⟨t, ht, hc, -⟩ := (mem_rowTransitions h).mpr (List.getElem?_eq_getElem hlt)
    exact ⟨t, ht, hc⟩
  neighbours := by
    have hmap : ((rowTransitions row).map (·.target)).IsChain (· ≠ ·) := by
      rw [rowTransitions, map_target_transitionsFrom, List.isChain_map]
      exact isChain_runsOf row
    rwa [List.isChain_map] at hmap

namespace Automaton
variable {a d : Automaton} {limit : Nat}

theorem Tabular.byteRow (h : d.Tabular) {st : State} (hst : st ∈ d.states.toList) :
    ByteRow st.transitions := by
  obtain ⟨row, hrow, rfl⟩ := h st hst
  exact byteRow_rowTransitions hrow

/-! ## Sets in breadth-first order -/

/-- No stretch between ascending cuts is empty. -/
theorem pos_of_mem_stretches {first : Nat} {cuts : List Nat} {r : Nat × Nat}
    (hcuts : (first :: cuts).Pairwise (· < ·)) (hlt : ∀ c ∈ first :: cuts, c < byteCount)
    (hr : r ∈ stretches first cuts) : 0 < r.2 := by
  induction cuts generalizing first with
  | nil =>
    obtain rfl := List.mem_singleton.mp hr
    exact Nat.sub_pos_of_lt (hlt first List.mem_cons_self)
  | cons c cuts ih =>
    obtain ⟨hfirst, hcuts⟩ := List.pairwise_cons.mp hcuts
    rcases List.mem_cons.mp hr with rfl | hr
    · exact Nat.sub_pos_of_lt (hfirst c List.mem_cons_self)
    · exact ih hcuts (fun x hx => hlt x (List.mem_cons_of_mem _ hx)) hr

theorem pos_of_mem_successorRow {set : StateSet} {r : StateSet × Nat}
    (hr : r ∈ a.successorRow set) : 0 < r.2 := by
  obtain ⟨s, hs, rfl⟩ := List.mem_map.mp hr
  refine pos_of_mem_stretches (List.pairwise_cons.mpr ⟨?_, pairwise_cuts a set⟩) ?_ hs
  · exact fun c hc => (mem_cuts.mp hc).1.1
  · intro c hc
    rcases List.mem_cons.mp hc with rfl | hc
    · decide
    · exact (mem_cuts.mp hc).1.2

section
variable (h : a.WellFormed)
include h

theorem exists_breadthFirst_of_determinizeUpTo (hrun : a.determinizeUpTo limit = .ok d) :
    ∃ next sets, d.BreadthFirst next ∧
      d.Keyed next a.advance (a.initial [.textStart]) 1 sets := by
  rw [determinizeUpTo_eq h] at hrun
  exact Worklist.exists_breadthFirst_of_run (lawful_subsets h)
    (fun _ _ _ hr => pos_of_mem_successorRow hr) (valid_start (proper_initial h _) _)
    (fun code j hj => by simp at hj) (Nat.le_refl 1) rfl hrun

/-- The states of the deterministic automaton are in breadth-first order and stand for sets. -/
theorem exists_breadthFirst_determinize : ∃ next sets, a.determinize.BreadthFirst next ∧
    a.determinize.Keyed next a.advance (a.initial [.textStart]) 1 sets :=
  exists_breadthFirst_of_determinizeUpTo h (determinizeUpTo_subsetBound h)

/-- The deterministic automaton has neither epsilon edges nor anchors, and every state divides the
bytes among ascending ranges. It starts at 0, to which no edge leads, but some text leads to every
state. The numbers follow the discovery row by row and byte by byte. A state stands for the set of
the states to which the same texts lead, and no two but the start may stand for one set. -/
theorem determinize_shape : a.determinize.usesEpsilons = false ∧ a.determinize.Unanchored ∧
    (∀ st ∈ a.determinize.states.toList, ByteRow st.transitions) ∧
    a.determinize.start = 0 ∧ (∀ i x, ¬ a.determinize.Edge i x 0) ∧
    (∀ j < a.determinize.size, ∃ w, Path a.determinize.Edge true true 0 w j) ∧
    ∃ (next : Nat → UInt8 → Nat) (sets : Nat → StateSet), a.determinize.Complete next ∧
      (∀ j, 0 < j → j < a.determinize.size → ∃ p : Nat × UInt8, p.1 < j ∧ FirstMet next j p) ∧
      (∀ j k p q, 0 < j → j < k → k < a.determinize.size → FirstMet next j p →
        FirstMet next k q → Before p q) ∧
      (∀ w i, i ∈ sets (w.foldl next 0) ↔ Path a.Edge false true a.start w i) ∧
      ∀ i j, 0 < i → i < a.determinize.size → 0 < j → j < a.determinize.size →
        sets i = sets j → i = j := by
  have htabular := determinizeUpTo_tabular h (determinizeUpTo_subsetBound h)
  obtain ⟨next, sets, horder, hkeyed⟩ := exists_breadthFirst_determinize h
  refine ⟨htabular.usesEpsilons_eq, htabular.unanchored, fun st hst => htabular.byteRow hst,
    horder.start_eq, fun i x he => ?_, fun j hj => ?_, next, sets, horder.complete,
    fun j hpos hj => ?_, fun j k p q hpos hjk hk => horder.before_of_lt hpos hjk hk,
    fun w i => ?_, hkeyed.key_inj⟩
  · obtain ⟨l, c, rfl, hc⟩ := htabular.exists_reads he
    have hnext := (horder.complete.edge_iff i c 0 he.lt_size).mp ⟨l, he, hc⟩
    have := hkeyed.lead_le i c he.lt_size
    omega
  · obtain ⟨w, hw⟩ := horder.exists_text hj
    exact ⟨w, (horder.complete.path_iff horder.size_pos).mpr hw⟩
  · obtain ⟨p, hp, hdiscovered⟩ := horder.discovered j hpos hj
    exact ⟨p, hp, (horder.firstMet_iff hpos hj p).mpr hdiscovered⟩
  · rw [hkeyed.key_foldl]
    exact mem_reading

end

/-- After a byte up to 9 the set is that of the start again, but the state is another one. -/
theorem determinize_shape_anchoredLoop : anchoredLoop.WellFormed ∧
    anchoredLoop.determinize.states = #[
      { transitions := [⟨.bytes 0 9, 1⟩, ⟨.bytes 10 255, 2⟩] },
      { transitions := [⟨.bytes 0 9, 1⟩, ⟨.bytes 10 255, 2⟩] },
      { transitions := [⟨.bytes 0 255, 2⟩] }] ∧
    (∀ st ∈ anchoredLoop.determinize.states.toList, ByteRow st.transitions) ∧
    ∀ i x, ¬ anchoredLoop.determinize.Edge i x 0 := by
  have h : anchoredLoop.WellFormed := by decide
  obtain ⟨-, -, hrows, -, hstart, -⟩ := determinize_shape h
  exact ⟨h, by decide +kernel, hrows, hstart⟩

end Automaton

end PatternAutomata
