import PatternAutomata.Proofs.CaseFold
import Mathlib.Data.Set.Card

/-!
# The size of a class

The size of a class is read off the ends of its ranges. It is the number of its characters, and the
number of surrogates besides when one of the ranges begins before the surrogates and ends behind
them: these numbers lie in the range but are no characters. Neither merging nor folding brings such
a range about or takes one away.
-/
namespace PatternAutomata

/-! ## Ranges -/

theorem length_filterMap_scalar? {ns : List Nat} (h : ∀ n ∈ ns, n.isValidChar) :
    (ns.filterMap scalar?).length = ns.length := by
  induction ns with
  | nil => rfl
  | cons n ns ih =>
    rw [List.filterMap_cons_some (dif_pos (h n (by simp))), List.length_cons, List.length_cons,
      ih fun m hm => h m (by simp [hm])]

theorem filterMap_scalar?_surrogates : (List.range' 0xD800 2048).filterMap scalar? = [] := by
  refine List.filterMap_eq_nil_iff.mpr fun n hn => dif_neg ?_
  rw [List.mem_range'_1] at hn
  simp only [Nat.isValidChar]
  omega

theorem nodup_filterMap_scalar? {ns : List Nat} (h : ns.Nodup) : (ns.filterMap scalar?).Nodup := by
  refine h.filterMap fun m n c hm hn => ?_
  rw [Option.mem_def, scalar?_eq_some_iff] at hm hn
  exact hm.trans hn.symm

/-- No character is a surrogate. -/
theorem char_toNat_lt_or (c : Char) : c.toNat < 0xD800 ∨ 0xDFFF < c.toNat := by
  rcases c.valid with h | h
  · exact .inl h
  · exact .inr h.1

theorem char_toNat_le (c : Char) : c.toNat ≤ 0x10FFFF := by
  rcases c.valid with h | h
  · exact Nat.le_of_lt (Nat.lt_trans h (by decide))
  · exact Nat.le_of_lt_succ h.2

namespace CharRange
variable {r : CharRange}

/-- Whether a range begins before the surrogates and ends behind them. -/
def Bridges (r : CharRange) : Prop := r.lo.toNat < 0xD800 ∧ 0xDFFF < r.hi.toNat

instance (r : CharRange) : Decidable r.Bridges := inferInstanceAs (Decidable (_ ∧ _))

theorem not_bridges_single (c : Char) : ¬ Bridges ⟨c, c⟩ := by
  simp only [Bridges]
  omega

theorem length_chars_of_bridges (h : r.Bridges) : r.chars.length + 2048 = r.width := by
  obtain ⟨hlo, hhi⟩ := h
  have hle := char_toNat_le r.hi
  have hsplit : List.range' r.lo.toNat r.width =
      List.range' r.lo.toNat (0xD800 - r.lo.toNat) ++ (List.range' 0xD800 2048 ++
        List.range' 0xE000 (r.hi.toNat + 1 - 0xE000)) := by
    have hbefore : 0xD800 = r.lo.toNat + (0xD800 - r.lo.toNat) := by omega
    have hwidth : r.width = 0xD800 - r.lo.toNat + (2048 + (r.hi.toNat + 1 - 0xE000)) := by
      simp only [width]
      omega
    rw [List.range'_append_1 (s := 0xD800), hwidth, ← List.range'_append_1, ← hbefore]
  rw [chars, hsplit, List.filterMap_append, List.filterMap_append, filterMap_scalar?_surrogates,
    List.nil_append, List.length_append, length_filterMap_scalar?, length_filterMap_scalar?]
  · simp only [List.length_range', width]
    omega
  all_goals
    intro n hn
    rw [List.mem_range'_1] at hn
    simp only [Nat.isValidChar]
    omega

theorem length_chars_of_not_bridges (h : ¬ r.Bridges) : r.chars.length = r.width := by
  have hle := char_toNat_le r.hi
  have hlo := char_toNat_lt_or r.lo
  have hhi := char_toNat_lt_or r.hi
  rw [chars, length_filterMap_scalar?, List.length_range']
  intro n hn
  rw [List.mem_range'_1] at hn
  simp only [Bridges, width, Nat.isValidChar] at *
  omega

theorem nodup_chars (r : CharRange) : r.chars.Nodup :=
  nodup_filterMap_scalar? List.nodup_range'

end CharRange

namespace CharClass
variable {r s : CharRange} {rs : List CharRange}

/-! ## Merged ranges -/

/-- Whether ranges are ascending and apart from each other. -/
def Apart (rs : List CharRange) : Prop := rs.Pairwise fun r s => r.hi < s.lo

instance (rs : List CharRange) : Decidable (Apart rs) :=
  inferInstanceAs (Decidable (rs.Pairwise _))

/-- Merging brings about no new beginning of a range. -/
theorem exists_lo_of_mem_mergeRanges (h : r ∈ mergeRanges rs) : ∃ s ∈ rs, s.lo = r.lo := by
  fun_induction mergeRanges rs with
  | case1 => simp at h
  | case2 s => exact ⟨r, h, rfl⟩
  | case3 s t rs _ ih =>
    simp only [dite_eq_ite] at ih h
    obtain ⟨u, hu, hlo⟩ := ih h
    rcases List.mem_cons.mp hu with rfl | hu
    · exact ⟨s, by simp, hlo⟩
    · exact ⟨u, by simp [hu], hlo⟩
  | case4 s t rs _ ih =>
    rcases List.mem_cons.mp h with rfl | h
    · exact ⟨r, by simp, rfl⟩
    · obtain ⟨u, hu, hlo⟩ := ih h
      exact ⟨u, by simp [hu], hlo⟩

theorem apart_mergeRanges (h : rs.Pairwise fun r s => r.lo ≤ s.lo) : Apart (mergeRanges rs) := by
  fun_induction mergeRanges rs with
  | case1 => exact .nil
  | case2 => exact List.pairwise_singleton _ _
  | case3 r s rs _ ih =>
    obtain ⟨hr, -, hrs⟩ := by simpa only [List.pairwise_cons] using h
    simp only [dite_eq_ite] at ih
    exact ih (List.pairwise_cons.mpr ⟨fun t ht => hr t (by simp [ht]), hrs⟩)
  | case4 r s rs hgap ih =>
    obtain ⟨hs, hrs⟩ := List.pairwise_cons.mp (List.pairwise_cons.mp h).2
    refine List.pairwise_cons.mpr ⟨fun t ht => ?_, ih (List.pairwise_cons.mpr ⟨hs, hrs⟩)⟩
    obtain ⟨u, hu, hlo⟩ := exists_lo_of_mem_mergeRanges ht
    have hsu : s.lo ≤ u.lo := by
      rcases List.mem_cons.mp hu with rfl | hu
      · exact Char.le_refl _
      · exact hs u hu
    rw [char_le_iff] at hsu
    rw [char_lt_iff, ← hlo]
    omega

/-- One of two ranges that become one bridges the surrogates if the one that they become does. -/
theorem bridges_merged (hrs : r.lo ≤ s.lo) (htouch : s.lo.toNat ≤ r.hi.toNat + 1) :
    CharRange.Bridges ⟨r.lo, if r.hi ≤ s.hi then s.hi else r.hi⟩ ↔ r.Bridges ∨ s.Bridges := by
  have hr := char_toNat_lt_or r.hi
  have hs := char_toNat_lt_or s.lo
  simp only [CharRange.Bridges]
  split <;> simp only [char_le_iff] at * <;> omega

theorem bridges_mergeRanges (h : rs.Pairwise fun r s => r.lo ≤ s.lo) :
    (∃ r ∈ mergeRanges rs, r.Bridges) ↔ ∃ r ∈ rs, r.Bridges := by
  fun_induction mergeRanges rs with
  | case1 => rfl
  | case2 => rfl
  | case3 r s rs htouch ih =>
    obtain ⟨hr, -, hrs⟩ := by simpa only [List.pairwise_cons] using h
    simp only [dite_eq_ite] at ih
    rw [ih (List.pairwise_cons.mpr ⟨fun t ht => hr t (by simp [ht]), hrs⟩)]
    simp only [List.exists_mem_cons_iff, bridges_merged (hr s (by simp)) htouch, or_assoc]
  | case4 r s rs _ ih =>
    simp only [List.exists_mem_cons_iff] at ih ⊢
    rw [ih (List.pairwise_cons.mp h).2]

theorem apart_ofRanges (rs : List CharRange) : Apart (ofRanges rs).ranges :=
  apart_mergeRanges (ascending_mergeSort rs)

theorem bridges_ofRanges (rs : List CharRange) :
    (∃ r ∈ (ofRanges rs).ranges, r.Bridges) ↔ ∃ r ∈ rs, r.Bridges := by
  refine (bridges_mergeRanges (ascending_mergeSort rs)).trans ?_
  simp only [List.mem_mergeSort]

/-- Single characters beside the ranges do not bridge the surrogates. -/
theorem bridges_append_singles {f : Char × Char → Option CharRange}
    (hf : ∀ p r, f p = some r → r.lo = r.hi) :
    (∃ r ∈ rs ++ foldPairs.filterMap f, r.Bridges) ↔ ∃ r ∈ rs, r.Bridges := by
  constructor
  · rintro ⟨⟨lo, hi⟩, hmem, hbridges⟩
    rcases List.mem_append.mp hmem with hmem | hmem
    · exact ⟨_, hmem, hbridges⟩
    · obtain ⟨p, -, hp⟩ := List.mem_filterMap.mp hmem
      obtain rfl : lo = hi := hf p _ hp
      exact absurd hbridges (CharRange.not_bridges_single lo)
  · rintro ⟨r, hmem, hbridges⟩
    exact ⟨r, List.mem_append_left _ hmem, hbridges⟩

theorem bridges_foldCase (s : CharClass) :
    (∃ r ∈ s.foldCase.ranges, r.Bridges) ↔ ∃ r ∈ s.ranges, r.Bridges := by
  unfold foldCase
  dsimp only
  rw [bridges_ofRanges, bridges_append_singles, bridges_ofRanges, bridges_append_singles]
  all_goals
    intro p r h
    simp only [Option.ite_none_right_eq_some, Option.some.injEq] at h
    obtain ⟨-, rfl⟩ := h
    rfl

/-! ## The number of characters -/

/-- How many surrogates lie within the ranges. -/
def surrogatesWithin (rs : List CharRange) : Nat := if ∃ r ∈ rs, r.Bridges then 2048 else 0

theorem nodup_chars {s : CharClass} (h : Apart s.ranges) : s.chars.Nodup := by
  refine List.nodup_flatMap.mpr ⟨fun r _ => r.nodup_chars, h.imp fun {r t} hgap c hr ht => ?_⟩
  rw [CharRange.mem_chars] at hr ht
  exact absurd (Char.le_trans ht.1 hr.2) (Char.not_le.mpr hgap)

/-- The size counts the characters, and the surrogates within the ranges. -/
theorem size_eq_length {s : CharClass} (h : Apart s.ranges) :
    s.size = s.chars.length + surrogatesWithin s.ranges := by
  obtain ⟨rs⟩ := s
  induction rs with
  | nil => rfl
  | cons r rs ih =>
    obtain ⟨hr, hrs⟩ := List.pairwise_cons.mp h
    have hchars : chars ⟨r :: rs⟩ = r.chars ++ chars ⟨rs⟩ := rfl
    have ih := ih hrs
    rw [size_cons, hchars, List.length_append, ih]
    by_cases hbridges : r.Bridges
    · -- Only one of the ranges lies on both sides.
      have hlater : ¬ ∃ t ∈ rs, t.Bridges := by
        rintro ⟨t, ht, hlo, -⟩
        have hgap := hr t ht
        rw [char_lt_iff] at hgap
        have := hbridges.2
        omega
      have := CharRange.length_chars_of_bridges hbridges
      simp only [surrogatesWithin, List.exists_mem_cons_iff, hbridges, hlater]
      simp
      omega
    · have := CharRange.length_chars_of_not_bridges hbridges
      simp only [surrogatesWithin, List.exists_mem_cons_iff, hbridges, false_or]
      omega

theorem ncard_contains {s : CharClass} (h : Apart s.ranges) :
    {c | s.contains c = true}.ncard = s.chars.length := by
  rw [← List.toFinset_card_of_nodup (nodup_chars h), ← Set.ncard_coe_finset]
  congr 1
  ext c
  simp [mem_chars]

theorem length_le_of_nodup {cs : List Char} (h : cs.Nodup) : cs.length ≤ 0x10F800 := by
  have hsubset : cs.map Char.toNat ⊆ List.range' 0 0xD800 ++ List.range' 0xE000 0x102000 := by
    intro n hn
    obtain ⟨c, -, rfl⟩ := List.mem_map.mp hn
    have hc := char_toNat_lt_or c
    have hle := char_toNat_le c
    rw [List.mem_append, List.mem_range'_1, List.mem_range'_1]
    omega
  have hle := ((h.map fun c d => Char.toNat_inj.mp).subperm hsubset).length_le
  rwa [List.length_map, List.length_append, List.length_range', List.length_range'] at hle

theorem size_le {s : CharClass} (h : Apart s.ranges) : s.size ≤ 0x110000 := by
  have hchars := length_le_of_nodup (nodup_chars h)
  rw [size_eq_length h, surrogatesWithin]
  split <;> omega

/-! ## Shorthands -/

/-- Whether a class has a shorthand. -/
def IsShorthand (s : CharClass) : Prop := s = digit ∨ s = word ∨ s = space

theorem IsShorthand.apart {s : CharClass} (h : s.IsShorthand) : Apart s.ranges := by
  obtain rfl | rfl | rfl := h <;> decide

end CharClass

end PatternAutomata
