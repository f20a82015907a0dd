import PatternAutomata.Proofs.Automaton.Subset
import PatternAutomata.Proofs.Automaton.Boolean
import PatternAutomata.Proofs.Automaton.Unanchored

/-!
# Automata written row by row

The constructions of deterministic automata write every state as a row. Such a state has transitions
on ranges of bytes only, and no range is empty, so every edge can be followed.
-/
namespace PatternAutomata

theorem reads_of_mem_transitionsFrom {rs : List (Nat × Nat)} {first : Nat} {t : Transition}
    (hpos : ∀ r ∈ rs, 0 < r.2) (hlen : first + (expandRuns rs).length ≤ byteCount)
    (ht : t ∈ transitionsFrom first rs) : ∃ c, t.label.reads c = true := by
  induction rs generalizing first with
  | nil => simp [transitionsFrom] at ht
  | cons r rs ih =>
    obtain ⟨target, n⟩ := r
    have hn : 0 < n := hpos (target, n) List.mem_cons_self
    rw [expandRuns_cons, List.length_append, List.length_replicate] at hlen
    rcases List.mem_cons.mp ht with rfl | ht
    · refine ⟨UInt8.ofNat first, (reads_range_iff hn (by omega)).mpr ?_⟩
      have hmod : first % 2 ^ 8 = first := Nat.mod_eq_of_lt (by unfold byteCount at hlen; omega)
      rw [UInt8.toNat_ofNat', hmod]
      omega
    · exact ih (fun r hr => hpos r (List.mem_cons_of_mem _ hr)) (by omega) ht

theorem reads_of_mem_rowTransitions {row : List Nat} {t : Transition} (h : row.length = byteCount)
    (ht : t ∈ rowTransitions row) : ∃ c, t.label.reads c = true :=
  reads_of_mem_transitionsFrom (fun _ => pos_of_mem_runsOf) (by simp [h]) ht

namespace Automaton

/-- Every state is written as a row of 256 targets. -/
def Tabular (d : Automaton) : Prop :=
  ∀ st ∈ d.states.toList, ∃ row, row.length = byteCount ∧ st = { transitions := rowTransitions row }

namespace Tabular
variable {d : Automaton} {i j : Nat} {x : Option Label}

theorem flip (h : d.Tabular) : d.flip.Tabular := h

theorem unanchored (h : d.Tabular) : d.Unanchored := by
  intro st hst t ht m hm
  obtain ⟨row, -, rfl⟩ := h st hst
  obtain ⟨lo, hi, hl⟩ := bytes_of_mem_rowTransitions ht
  simp [hm] at hl

theorem usesEpsilons_eq (h : d.Tabular) : d.usesEpsilons = false := by
  unfold usesEpsilons
  rw [Array.any_eq_false']
  intro st hst
  obtain ⟨row, -, rfl⟩ := h st (Array.mem_toList_iff.mpr hst)
  simp

/-- Every edge reads some byte. -/
theorem exists_reads (h : d.Tabular) (he : d.Edge i x j) :
    ∃ l c, x = some l ∧ l.reads c = true := by
  obtain ⟨st, hst, hx⟩ := he
  obtain ⟨row, hrow, rfl⟩ := h st (Array.mem_toList_iff.mpr (Array.mem_of_getElem? hst))
  cases x with
  | none => simp [State.Leads] at hx
  | some l =>
    obtain ⟨c, hc⟩ := reads_of_mem_rowTransitions hrow hx
    exact ⟨l, c, rfl, hc⟩

/-- Where edges lead, some text leads as well. -/
theorem exists_path (h : d.Tabular) (hij : Relation.ReflTransGen d.Linked i j) (b e : Bool) :
    ∃ w, Path d.Edge e b i w j := by
  induction hij using Relation.ReflTransGen.head_induction_on generalizing b e with
  | refl => exact ⟨[], .refl b j⟩
  | head hik _ ih =>
    obtain ⟨x, he⟩ := hik
    obtain ⟨l, c, rfl, hc⟩ := h.exists_reads he
    obtain ⟨w, hw⟩ := ih false e
    exact ⟨c :: w, .byte he hc hw⟩

end Tabular

end Automaton

namespace Numbering
variable {κ : Type} {space : KeySpace κ} {step : κ → UInt8 → κ} {good : κ → Prop}
  {limit lead : Nat} {s : Numbering κ}

/-- The automaton of a key space is written row by row. -/
theorem run_tabular {d : Automaton} (h : space.Lawful step good) (hs : s.Valid space good lead)
    (hrun : run space limit s = .ok d) : d.Tabular := by
  unfold run at hrun
  split at hrun
  · simp at hrun
  · next keys states hwrite =>
    obtain rfl := Except.ok.inj hrun
    obtain ⟨t, rfl, ht, -, hwt⟩ := writeRows_spec h hs (.zero space step s) hwrite
    intro st hst
    obtain ⟨i, hi⟩ := Array.mem_iff_getElem?.mp (Array.mem_toList_iff.mp hst)
    have hlt : i < t.keys.size := hwt.size_eq ▸ (Array.getElem?_eq_some_iff.mp hi).1
    refine ⟨allBytes.map (nextNumber space step t i), by simp, ?_⟩
    exact Option.some.inj (hi.symm.trans (hwt.row_eq hlt))

end Numbering

namespace Automaton
variable {a d da db : Automaton} {nextA nextB : Nat → UInt8 → Nat} {limit : Nat}

theorem determinizeUpTo_tabular (h : a.WellFormed) (hrun : a.determinizeUpTo limit = .ok d) :
    d.Tabular := by
  rw [determinizeUpTo_eq h] at hrun
  exact Numbering.run_tabular (lawful_subsets h) (valid_start (proper_initial h _) _) hrun

theorem productUpTo_tabular (ha : da.Complete nextA) (hb : db.Complete nextB)
    (hrun : productUpTo da db limit = .ok d) : d.Tabular :=
  Numbering.run_tabular (lawful_pairs ha hb) (valid_pairs (paired_start ha.wellFormed hb.wellFormed)) hrun

end Automaton

end PatternAutomata
