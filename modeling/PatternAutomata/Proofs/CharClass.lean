import PatternAutomata.CharClass.Basic

/-!
# Canonical classes

Merging neighbouring ranges neither adds nor removes a character, and it covers no more numbers than
the ranges did one by one.
-/
namespace PatternAutomata

theorem char_le_iff {c d : Char} : c ≤ d ↔ c.toNat ≤ d.toNat := by
  rw [Char.le_def, UInt32.le_iff_toNat_le, Char.toNat_val, Char.toNat_val]

theorem char_lt_iff {c d : Char} : c < d ↔ c.toNat < d.toNat := by
  rw [← Char.not_le, char_le_iff, Nat.not_le]

theorem scalar?_eq_some_iff {n : Nat} {c : Char} : scalar? n = some c ↔ n = c.toNat := by
  unfold scalar?
  by_cases h : n.isValidChar
  · have hvalue : (Char.ofNatAux n h).toNat = n := rfl
    rw [dif_pos h, Option.some.injEq, ← Char.toNat_inj, hvalue]
  · rw [dif_neg h]
    simp only [reduceCtorEq, false_iff]
    intro hn
    exact h (hn ▸ c.valid)

theorem CharRange.mem_chars {r : CharRange} {c : Char} : c ∈ r.chars ↔ r.lo ≤ c ∧ c ≤ r.hi := by
  simp only [chars, width, List.mem_filterMap, List.mem_range'_1, scalar?_eq_some_iff,
    exists_eq_right, char_le_iff]
  omega

namespace CharClass
variable {c : Char} {r s : CharRange} {rs : List CharRange}

theorem contains_iff {s : CharClass} :
    s.contains c = true ↔ ∃ r ∈ s.ranges, r.lo ≤ c ∧ c ≤ r.hi := by
  simp [contains]

theorem mem_chars {s : CharClass} : c ∈ s.chars ↔ s.contains c = true := by
  simp only [chars, List.mem_flatMap, CharRange.mem_chars, contains_iff]

theorem contains_cons :
    contains ⟨r :: rs⟩ c = true ↔ (r.lo ≤ c ∧ c ≤ r.hi) ∨ contains ⟨rs⟩ c = true := by
  simp only [contains_iff, List.mem_cons, exists_eq_or_imp]

theorem size_cons : size ⟨r :: rs⟩ = r.width + size ⟨rs⟩ := rfl

theorem contains_of_perm {rs' : List CharRange} (h : rs.Perm rs') :
    contains ⟨rs⟩ c = contains ⟨rs'⟩ c := h.any_eq

theorem size_of_perm {rs' : List CharRange} (h : rs.Perm rs') : size ⟨rs⟩ = size ⟨rs'⟩ := by
  apply h.foldr_eq'
  omega

/-- Two ranges become one when no number lies between them. -/
theorem mem_merged (hrs : r.lo ≤ s.lo) (htouch : s.lo.toNat ≤ r.hi.toNat + 1) :
    (r.lo ≤ c ∧ c ≤ if r.hi ≤ s.hi then s.hi else r.hi) ↔
      (r.lo ≤ c ∧ c ≤ r.hi) ∨ (s.lo ≤ c ∧ c ≤ s.hi) := by
  split <;> simp only [char_le_iff] at * <;> omega

theorem width_merged_le (htouch : s.lo.toNat ≤ r.hi.toNat + 1) :
    CharRange.width ⟨r.lo, if r.hi ≤ s.hi then s.hi else r.hi⟩ ≤ r.width + s.width := by
  simp only [CharRange.width]
  split <;> simp only [char_le_iff] at * <;> omega

theorem contains_mergeRanges (h : rs.Pairwise fun r s => r.lo ≤ s.lo) :
    contains ⟨mergeRanges rs⟩ c = true ↔ contains ⟨rs⟩ c = true := by
  fun_induction mergeRanges rs with
  | case1 => rfl
  | case2 => rfl
  | case3 r s rs htouch ih =>
    obtain ⟨hr, hs, hrs⟩ := by simpa only [List.pairwise_cons] using h
    have hlo : r.lo ≤ s.lo := hr s (by simp)
    simp only [dite_eq_ite] at ih
    rw [ih (List.pairwise_cons.mpr ⟨fun t ht => hr t (by simp [ht]), hrs⟩)]
    rw [contains_cons, contains_cons, contains_cons, mem_merged hlo htouch, or_assoc]
  | case4 r s rs _ ih => rw [contains_cons, contains_cons, ih (List.pairwise_cons.mp h).2]

theorem size_mergeRanges_le (rs : List CharRange) : size ⟨mergeRanges rs⟩ ≤ size ⟨rs⟩ := by
  fun_induction mergeRanges rs with
  | case1 => exact Nat.le_refl _
  | case2 => exact Nat.le_refl _
  | case3 r s rs htouch ih =>
    have := width_merged_le htouch
    simp only [dite_eq_ite, size_cons] at ih ⊢
    omega
  | case4 r s rs _ ih =>
    simp only [size_cons] at ih ⊢
    omega

theorem ascending_mergeSort (rs : List CharRange) :
    (rs.mergeSort fun r s => r.lo ≤ s.lo).Pairwise fun r s => r.lo ≤ s.lo := by
  have hsorted : (rs.mergeSort fun r s => r.lo ≤ s.lo).Pairwise fun r s =>
      decide (r.lo ≤ s.lo) = true :=
    List.pairwise_mergeSort (fun r s t => by simpa using Char.le_trans)
      (fun r s => by simpa using Char.le_total r.lo s.lo) rs
  simpa only [decide_eq_true_eq] using hsorted

/-- The canonical class of some ranges has the characters of the ranges. -/
theorem contains_ofRanges (rs : List CharRange) (c : Char) :
    (ofRanges rs).contains c = contains ⟨rs⟩ c := by
  rw [Bool.eq_iff_iff, ofRanges, contains_mergeRanges (ascending_mergeSort rs)]
  rw [contains_of_perm (List.mergeSort_perm _ _)]

/-- The canonical class of some ranges covers at most as many numbers as the ranges. -/
theorem size_ofRanges_le (rs : List CharRange) : (ofRanges rs).size ≤ size ⟨rs⟩ := by
  calc (ofRanges rs).size
    _ ≤ size ⟨rs.mergeSort fun r s => r.lo ≤ s.lo⟩ := size_mergeRanges_le _
    _ = size ⟨rs⟩ := size_of_perm (List.mergeSort_perm _ _)

theorem contains_upTo {s : CharClass} {last : Char} :
    (s.upTo last).contains c = true ↔ s.contains c = true ∧ c ≤ last := by
  simp only [contains_iff, upTo, List.mem_filterMap, Option.ite_none_right_eq_some, Option.some.injEq]
  constructor
  · rintro ⟨_, ⟨r, hr, -, rfl⟩, hlo, hhi⟩
    simp only at hlo hhi
    refine ⟨⟨r, hr, hlo, ?_⟩, ?_⟩ <;> split at hhi <;> simp only [char_le_iff] at * <;> omega
  · rintro ⟨⟨r, hr, hlo, hhi⟩, hc⟩
    refine ⟨_, ⟨r, hr, Char.le_trans hlo hc, rfl⟩, hlo, ?_⟩
    simp only
    split
    · exact hhi
    · exact hc

/-! ## Classes of single characters -/

theorem mem_chars_ofSingles {cs : List Char} :
    c ∈ (ofRanges (cs.map fun c => ⟨c, c⟩)).chars ↔ c ∈ cs := by
  rw [mem_chars, contains_ofRanges, contains_iff]
  constructor
  · intro h
    obtain ⟨_, hmem, hle, hge⟩ := h
    obtain ⟨d, hd, rfl⟩ := List.mem_map.mp hmem
    rwa [Char.le_antisymm hge hle]
  · intro hc
    exact ⟨⟨c, c⟩, List.mem_map_of_mem hc, Char.le_refl c, Char.le_refl c⟩

theorem size_ofSingles_le (cs : List Char) :
    (ofRanges (cs.map fun c => ⟨c, c⟩)).size ≤ cs.length := by
  have hsize : size ⟨cs.map fun c => ⟨c, c⟩⟩ = cs.length := by
    induction cs with
    | nil => rfl
    | cons c cs ih =>
      simp only [List.map_cons, size_cons, ih, CharRange.width, List.length_cons]
      omega
  exact hsize ▸ size_ofRanges_le _

end CharClass

end PatternAutomata
