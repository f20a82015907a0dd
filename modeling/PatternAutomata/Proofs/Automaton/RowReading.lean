import PatternAutomata.Proofs.Automaton.RowWriting

/-!
# Rows read byte by byte

Transitions can be read back by going over the bytes of every range. A table keeps the last target
of a byte, while the successors of a set gather all of them. Main statement: a row that is written
byte by byte has as few ranges as possible, and both ways of reading find it again.
-/
namespace PatternAutomata

/-! ## Cells for the bytes -/

namespace Label
variable {l : Label} {c : UInt8}

/-- The numbers of the bytes that a label reads, ascending. -/
def byteNumbers : Label → List Nat
  | .bytes lo hi => List.range' lo.toNat (hi.toNat + 1 - lo.toNat)
  | .anchor _ => []

theorem mem_byteNumbers : c.toNat ∈ l.byteNumbers ↔ l.reads c = true := by
  cases l with
  | anchor m => simp [byteNumbers]
  | bytes lo hi =>
    rw [byteNumbers, List.mem_range'_1, reads_bytes, UInt8.le_iff_toNat_le, UInt8.le_iff_toNat_le]
    omega

theorem nodup_byteNumbers (l : Label) : l.byteNumbers.Nodup := by
  cases l with
  | anchor m => exact List.nodup_nil
  | bytes lo hi => exact List.nodup_range'

end Label

section
variable {α : Type}

/-- Go over the bytes of every transition, and change the cell of each byte as the target says. -/
def scatter (put : Nat → α → α) (transitions : List Transition) (cells : List α) : List α :=
  transitions.foldl (fun cells t =>
    t.label.byteNumbers.foldl (fun cells k => cells.modify k (put t.target)) cells) cells

theorem scatter_cons (put : Nat → α → α) (t : Transition) (ts : List Transition) (cells : List α) :
    scatter put (t :: ts) cells = scatter put ts
      (t.label.byteNumbers.foldl (fun cells k => cells.modify k (put t.target)) cells) := rfl

theorem scatter_append (put : Nat → α → α) (ts ts' : List Transition) (cells : List α) :
    scatter put (ts ++ ts') cells = scatter put ts' (scatter put ts cells) := List.foldl_append

theorem getElem?_foldl_modify (f : α → α) {ks : List Nat} (hks : ks.Nodup) (cells : List α)
    (n : Nat) : (ks.foldl (fun cells k => cells.modify k f) cells)[n]? =
      cells[n]?.map fun x => if n ∈ ks then f x else x := by
  induction ks generalizing cells with
  | nil => simp
  | cons k ks ih =>
    obtain ⟨hk, hks⟩ := List.nodup_cons.mp hks
    rw [List.foldl_cons, ih hks, List.getElem?_modify, Option.map_eq_map, Option.map_map]
    congr 1
    funext x
    by_cases hkn : k = n
    · subst hkn
      simp [hk]
    · simp [hkn, Ne.symm hkn]

/-- The cell of a byte is changed by the transitions that read this byte, in their order. -/
theorem getElem?_scatter (put : Nat → α → α) (ts : List Transition) (cells : List α) (c : UInt8) :
    (scatter put ts cells)[c.toNat]? = cells[c.toNat]?.map fun x =>
      (ts.filter (·.label.reads c)).foldl (fun x t => put t.target x) x := by
  induction ts generalizing cells with
  | nil => simp [scatter]
  | cons t ts ih =>
    rw [scatter_cons, ih, getElem?_foldl_modify _ t.label.nodup_byteNumbers, Option.map_map]
    congr 1
    funext x
    by_cases hreads : t.label.reads c = true <;> simp [Label.mem_byteNumbers, hreads]

theorem length_scatter (put : Nat → α → α) (ts : List Transition) (cells : List α) :
    (scatter put ts cells).length = cells.length := by
  have hkeep (f : α → α) (ks : List Nat) (cells : List α) :
      (ks.foldl (fun cells k => cells.modify k f) cells).length = cells.length := by
    induction ks generalizing cells with
    | nil => rfl
    | cons k ks ih => rw [List.foldl_cons, ih, List.length_modify]
  induction ts generalizing cells with
  | nil => rfl
  | cons t ts ih => rw [scatter_cons, ih, hkeep]

theorem scatter_replicate (put : Nat → α → α) (ts : List Transition) (x : α) :
    scatter put ts (List.replicate byteCount x) = allBytes.map fun c =>
      (ts.filter (·.label.reads c)).foldl (fun x t => put t.target x) x := by
  apply ext_bytes
  · rw [length_scatter, List.length_replicate]
  · rw [List.length_map, length_allBytes]
  · intro c
    have hc : (List.replicate byteCount x)[c.toNat]? = some x :=
      List.getElem?_replicate_of_lt c.toNat_lt
    rw [getElem?_scatter, getElem?_map_allBytes, hc, Option.map_some]

end

/-- Of the transitions that read a byte, the last one decides. -/
theorem foldl_target (ts : List Transition) (c : UInt8) :
    (ts.filter (·.label.reads c)).foldl (fun _ t => t.target) 0 = targetOn ts c := by
  induction ts using List.reverseRecOn with
  | nil => rfl
  | append_singleton ts t ih =>
    rw [targetOn] at ih ⊢
    rw [List.filter_append, List.foldl_append, List.reverse_append, ih]
    by_cases hreads : t.label.reads c = true <;> simp [hreads]

theorem mem_foldl_insert {ts : List Transition} {set : StateSet} {j : Nat} :
    j ∈ ts.foldl (fun set t => set.insert t.target) set ↔ j ∈ set ∨ ∃ t ∈ ts, t.target = j := by
  induction ts generalizing set with
  | nil => simp
  | cons t ts ih =>
    rw [List.foldl_cons, ih, Std.ExtTreeSet.mem_insert, Std.LawfulEqCmp.compare_eq_iff_eq,
      @or_comm (t.target = j), or_assoc]
    simp

namespace Automaton
variable {a : Automaton} {i id : Nat} {ids row : List Nat} {set : StateSet} {sets : List StateSet}

/-! ## The table of rows -/

/-- The rows of all states, filled byte by byte. A later target replaces an earlier one. -/
def filledTable (a : Automaton) : Array (List Nat) :=
  a.states.map fun s => scatter (fun target _ => target) s.transitions (List.replicate byteCount 0)

theorem filledTable_eq (a : Automaton) : a.filledTable = a.rowTable := by
  unfold filledTable rowTable
  congr 1
  funext s
  rw [scatter_replicate]
  exact List.map_congr_left fun c _ => foldl_target s.transitions c

/-! ## Successors -/

/-- Put the targets of one more state into the sets of the bytes. -/
def gather? (a : Automaton) (sets : List StateSet) (id : Nat) : Option (List StateSet) := do
  let s ← a.states[id]?
  return scatter (fun target set => set.insert target) s.transitions sets

/-- The targets of a set on all bytes, gathered state by state and byte by byte. -/
def successors? (a : Automaton) (set : StateSet) : Option (List StateSet) :=
  set.toList.foldlM a.gather? (List.replicate byteCount ∅)

theorem gather?_eq (hid : id < a.size) : a.gather? sets id =
    some (scatter (fun target set => set.insert target) (a.transitionsOf id) sets) := by
  obtain ⟨s, hs⟩ : ∃ s, a.states[id]? = some s := ⟨_, Array.getElem?_eq_getElem hid⟩
  rw [gather?, transitionsOf, hs]
  rfl

theorem foldlM_gather? (hids : ∀ id ∈ ids, id < a.size) : ids.foldlM a.gather? sets =
    some (scatter (fun target set => set.insert target) (ids.flatMap a.transitionsOf) sets) := by
  induction ids generalizing sets with
  | nil => rfl
  | cons id ids ih =>
    rw [List.foldlM_cons, gather?_eq (hids id List.mem_cons_self), Option.bind_eq_bind,
      Option.bind_some, ih fun k hk => hids k (List.mem_cons_of_mem _ hk), List.flatMap_cons,
      scatter_append]

/-- The sets that are gathered are those that reading a byte gives, before closure. -/
theorem successors?_eq (hset : a.Within set) :
    a.successors? set = some (allBytes.map (a.readByte set)) := by
  rw [successors?, foldlM_gather? fun id hid => hset id (Std.ExtTreeSet.mem_toList.mp hid),
    scatter_replicate]
  congr 1
  refine List.map_congr_left fun c _ => Std.ExtTreeSet.ext_mem fun j => ?_
  rw [mem_foldl_insert, mem_readByte]
  simp only [Std.ExtTreeSet.not_mem_empty, false_or, List.mem_filter, List.mem_flatMap,
    Std.ExtTreeSet.mem_toList]
  constructor
  · rintro ⟨t, ⟨⟨s, hs, ht⟩, hreads⟩, hj⟩
    exact ⟨s, hs, t, ht, hreads, hj⟩
  · rintro ⟨s, hs, t, ht, hreads, hj⟩
    exact ⟨t, ⟨⟨s, hs, ht⟩, hreads⟩, hj⟩

/-- A state whose transitions represent a row leads from every byte to its target alone. -/
theorem map_readByte_singleton (h : row.length = byteCount)
    (hts : Represents (a.transitionsOf i) row) :
    allBytes.map (a.readByte {i}) = row.map fun j => {j} := by
  apply ext_bytes (by rw [List.length_map, length_allBytes]) (by rw [List.length_map, h])
  intro c
  have hlt : c.toNat < row.length := h ▸ c.toNat_lt
  have hc : row[c.toNat]? = some row[c.toNat] := List.getElem?_eq_getElem hlt
  rw [getElem?_map_allBytes, List.getElem?_map, hc, Option.map_some, Option.some.injEq]
  apply Std.ExtTreeSet.ext_mem
  intro j
  rw [StateSet.mem_singleton, mem_readByte]
  simp only [StateSet.mem_singleton, exists_eq_left]
  rw [hts c j, hc, Option.some.injEq]
  exact eq_comm

/-! ## There and back -/

/-- Writing the row of a state without edges succeeds and gives it the transitions of the runs. They
are ascending ranges that divide the bytes among them, and none fewer represent the row. A table
that is filled from them has the row again, and so have the successors of the state, as sets of one
member each. In the subset construction these sets are closed. -/
theorem row_roundTrip (hfresh : a.states[i]? = some {}) (hrow : row.length = byteCount) :
    ByteRow (rowTransitions row) ∧ Represents (rowTransitions row) row ∧
    (∀ ts, Represents ts row → (rowTransitions row).length ≤ ts.length) ∧
    ∃ b, a.addRow? i row = some b ∧
      b = { a with states := a.states.setIfInBounds i { transitions := rowTransitions row } } ∧
      b.filledTable = b.rowTable ∧ b.rowTable[i]? = some row ∧
      b.successors? {i} = some (row.map fun j => {j}) ∧
      expandRuns (b.successorRow {i}) = row.map fun j => b.closure {j} := by
  have hts := represents_rowTransitions hrow
  have hi : i < a.states.size := (Array.getElem?_eq_some_iff.mp hfresh).1
  have hwritten := addEdges_of_fresh hfresh (rowTransitions row)
  generalize hb : a.addEdges i (rowTransitions row) = b at hwritten
  have hstate : b.states[i]? = some { transitions := rowTransitions row } := by
    rw [hwritten, Array.getElem?_setIfInBounds, if_pos rfl, if_pos hi]
  have hwithin : b.Within {i} := by
    intro k hk
    rw [StateSet.mem_singleton.mp hk]
    exact (Array.getElem?_eq_some_iff.mp hstate).1
  have hread : allBytes.map (b.readByte {i}) = row.map fun j => {j} := by
    apply map_readByte_singleton hrow
    rwa [transitionsOf, hstate]
  refine ⟨byteRow_rowTransitions hrow, hts, fun ts h => h.length_le hrow, b, ?_, hwritten,
    filledTable_eq b, ?_, ?_, ?_⟩
  · rw [addRow?_eq hi hrow, hb]
  · rw [rowTable, Array.getElem?_map, hstate, Option.map_some, hts.rowOf_eq hrow]
  · rw [successors?_eq hwithin, hread]
  · calc expandRuns (b.successorRow {i})
        = (allBytes.map (b.readByte {i})).map b.closure := by
          rw [expandRuns_successorRow, List.map_map]
          rfl
      _ = row.map fun j => b.closure {j} := by
          rw [hread, List.map_map]
          rfl

/-- Runs of one byte at both ends, and targets that are no states. -/
theorem row_roundTrip_singleBytes :
    let row := 9 :: List.replicate 254 0 ++ [9]
    let ts := [⟨.bytes 0 0, 9⟩, ⟨.bytes 1 254, 0⟩, ⟨.bytes 255 255, 9⟩]
    nothing.states[0]? = some ({} : State) ∧ row.length = byteCount ∧ rowTransitions row = ts ∧
      (∀ ts', Represents ts' row → 3 ≤ ts'.length) ∧
      ∃ b, nothing.addRow? 0 row = some b ∧ b.states = #[{ transitions := ts }] ∧
        b.filledTable[0]? = some row ∧ b.successors? {0} = some (row.map fun j => {j}) := by
  intro row ts
  have hfresh : nothing.states[0]? = some ({} : State) := rfl
  have hrow : row.length = byteCount := by decide +kernel
  have hruns : rowTransitions row = ts := by decide +kernel
  obtain ⟨-, -, hfewest, b, hwrite, hb, hfilled, htable, hsets, -⟩ := row_roundTrip hfresh hrow
  refine ⟨hfresh, hrow, hruns, fun ts' h => ?_, b, hwrite, ?_, hfilled ▸ htable, hsets⟩
  · simpa [hruns, ts] using hfewest ts' h
  · rw [hb, hruns]
    rfl

end Automaton

end PatternAutomata
