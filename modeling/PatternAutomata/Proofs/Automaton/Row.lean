import PatternAutomata.Automaton.Row
import PatternAutomata.Proofs.Automaton.Path

/-!
# Rows written and read back

The transitions that write a row lead from every byte to the target that the row gives for it, and
nowhere else.
-/
namespace PatternAutomata

/-- Every element of a run-length form stands at least once in a row. -/
theorem pos_of_mem_runsOf {α : Type} [DecidableEq α] {xs : List α} {r : α × Nat}
    (h : r ∈ runsOf xs) : 0 < r.2 := by
  have step (x : α) (rs : List (α × Nat)) (hrs : ∀ r ∈ rs, 0 < r.2) :
      ∀ r ∈ consRun x rs, 0 < r.2 := by
    intro r hr
    cases rs with
    | nil =>
      obtain rfl := List.mem_singleton.mp hr
      exact Nat.one_pos
    | cons s rs =>
      obtain ⟨y, n⟩ := s
      simp only [consRun] at hr
      split at hr
      · rcases List.mem_cons.mp hr with rfl | hr
        · exact Nat.succ_pos n
        · exact hrs r (List.mem_cons_of_mem _ hr)
      · rcases List.mem_cons.mp hr with rfl | hr
        · exact Nat.one_pos
        · exact hrs r hr
  induction xs generalizing r with
  | nil => simp [runsOf] at h
  | cons x xs ih => exact step x (runsOf xs) (fun r hr => ih hr) r h

@[simp] theorem expandRuns_nil {α : Type} : expandRuns ([] : List (α × Nat)) = [] := rfl

@[simp] theorem expandRuns_cons {α : Type} (x : α) (n : Nat) (rs : List (α × Nat)) :
    expandRuns ((x, n) :: rs) = List.replicate n x ++ expandRuns rs := rfl

/-- What a run repeats stands in the list. -/
theorem fst_mem_expandRuns {α : Type} {rs : List (α × Nat)} {r : α × Nat} (hr : r ∈ rs)
    (hpos : 0 < r.2) : r.1 ∈ expandRuns rs :=
  List.mem_flatMap.mpr ⟨r, hr, List.mem_replicate.mpr ⟨Nat.ne_of_gt hpos, rfl⟩⟩

/-- The range of a run reads the bytes of the run and no others. -/
theorem reads_range_iff {first n : Nat} {c : UInt8} (hn : 0 < n) (h : first + n ≤ byteCount) :
    (Label.bytes (UInt8.ofNat first) (UInt8.ofNat (first + n - 1))).reads c = true ↔
      first ≤ c.toNat ∧ c.toNat < first + n := by
  unfold byteCount at h
  rw [Label.reads_bytes, UInt8.le_iff_toNat_le, UInt8.le_iff_toNat_le, UInt8.toNat_ofNat',
    UInt8.toNat_ofNat', Nat.mod_eq_of_lt (by omega), Nat.mod_eq_of_lt (by omega)]
  omega

/-- The transition of the run that holds a byte is the only one that reads it. -/
theorem mem_transitionsFrom {rs : List (Nat × Nat)} {first j : Nat} {c : UInt8}
    (hpos : ∀ r ∈ rs, 0 < r.2) (hlen : first + (expandRuns rs).length ≤ byteCount) :
    (∃ t ∈ transitionsFrom first rs, t.label.reads c = true ∧ t.target = j) ↔
      first ≤ c.toNat ∧ (expandRuns rs)[c.toNat - first]? = some j := by
  induction rs generalizing first with
  | nil => simp [transitionsFrom]
  | cons r rs ih =>
    obtain ⟨target, n⟩ := r
    have hn : 0 < n := hpos (target, n) List.mem_cons_self
    rw [expandRuns_cons, List.length_append, List.length_replicate] at hlen
    have hrest := ih (fun r hr => hpos r (List.mem_cons_of_mem _ hr))
      (show first + n + (expandRuns rs).length ≤ byteCount by omega)
    simp only [transitionsFrom, List.mem_cons, exists_eq_or_imp]
    rw [reads_range_iff hn (by omega), hrest, expandRuns_cons, List.getElem?_append,
      List.length_replicate]
    split
    · next h =>
      rw [List.getElem?_replicate_of_lt h, Option.some.injEq]
      constructor
      · rintro (⟨h1, h2⟩ | ⟨h1, -⟩)
        · exact ⟨h1.1, h2⟩
        · omega
      · rintro ⟨h1, h2⟩
        exact .inl ⟨⟨h1, by omega⟩, h2⟩
    · next h =>
      rw [Nat.sub_sub]
      constructor
      · rintro (⟨h1, -⟩ | ⟨h1, h2⟩)
        · omega
        · exact ⟨by omega, h2⟩
      · rintro ⟨h1, h2⟩
        exact .inr ⟨by omega, h2⟩

theorem mem_rowTransitions {row : List Nat} {j : Nat} {c : UInt8} (h : row.length = byteCount) :
    (∃ t ∈ rowTransitions row, t.label.reads c = true ∧ t.target = j) ↔
      row[c.toNat]? = some j := by
  unfold rowTransitions
  rw [mem_transitionsFrom (fun r => pos_of_mem_runsOf) (by simp [h]), expandRuns_runsOf]
  simp

theorem bytes_of_mem_rowTransitions {row : List Nat} {t : Transition}
    (h : t ∈ rowTransitions row) : ∃ lo hi, t.label = .bytes lo hi := by
  unfold rowTransitions at h
  generalize runsOf row = rs at h
  generalize 0 = first at h
  induction rs generalizing first with
  | nil => simp [transitionsFrom] at h
  | cons r rs ih =>
    rcases List.mem_cons.mp h with rfl | h
    · exact ⟨_, _, rfl⟩
    · exact ih _ h

theorem target_mem_of_mem_rowTransitions {row : List Nat} {t : Transition}
    (h : t ∈ rowTransitions row) : t.target ∈ row := by
  have hruns : ∀ (first : Nat) (rs : List (Nat × Nat)), (∀ r ∈ rs, 0 < r.2) →
      t ∈ transitionsFrom first rs → t.target ∈ expandRuns rs := by
    intro first rs hpos ht
    induction rs generalizing first with
    | nil => simp [transitionsFrom] at ht
    | cons r rs ih =>
      obtain ⟨target, n⟩ := r
      rw [expandRuns_cons, List.mem_append]
      rcases List.mem_cons.mp ht with rfl | ht
      · exact .inl (List.mem_replicate.mpr ⟨Nat.ne_of_gt (hpos _ List.mem_cons_self), rfl⟩)
      · exact .inr (ih (first + n) (fun r hr => hpos r (List.mem_cons_of_mem _ hr)) ht)
  have := hruns 0 (runsOf row) (fun r => pos_of_mem_runsOf) h
  rwa [expandRuns_runsOf] at this

@[simp] theorem length_allBytes : allBytes.length = byteCount := by simp [allBytes]

@[simp] theorem getElem?_allBytes (c : UInt8) : allBytes[c.toNat]? = some c := by
  have h : c.toNat < 256 := c.toNat_lt
  simp [allBytes, byteCount, h]

theorem getElem?_map_allBytes {α : Type} (f : UInt8 → α) (c : UInt8) :
    (allBytes.map f)[c.toNat]? = some (f c) := by simp

end PatternAutomata
