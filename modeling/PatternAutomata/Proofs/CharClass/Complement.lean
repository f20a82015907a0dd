import PatternAutomata.Proofs.CharClass.Size

/-!
# Complements and shorthands

The gaps between the ranges of a class are exactly the characters that are not in it. Of the classes
that have shorthands, only that of the characters of words has members that agree up to case with
characters which are not members: the long s and the sign for kelvins.
-/
namespace PatternAutomata

/-! ## Neighbouring characters -/

theorem scalar?_eq_none_iff {n : Nat} : scalar? n = none ↔ ¬ n.isValidChar := by
  unfold scalar?
  by_cases h : n.isValidChar
  · rw [dif_pos h]
    exact iff_of_false nofun (not_not_intro h)
  · rw [dif_neg h]
    exact iff_of_true rfl h

/-- The next character is the least one behind `c`. -/
theorem le_iff_of_nextChar? {c d x : Char} (h : nextChar? c = some d) : d ≤ x ↔ c < x := by
  have hx := char_toNat_lt_or x
  rw [char_lt_iff, char_le_iff]
  unfold nextChar? at h
  split at h
  all_goals
    have hd := scalar?_eq_some_iff.mp h
    omega

theorem le_of_nextChar? {c : Char} (h : nextChar? c = none) (x : Char) : x ≤ c := by
  have hx := char_toNat_le x
  have hc := c.valid
  rw [char_le_iff]
  unfold nextChar? at h
  split at h
  all_goals
    have hd := scalar?_eq_none_iff.mp h
    simp only [Nat.isValidChar, UInt32.isValidChar, Char.toNat_val] at hd hc
    omega

/-- The previous character is the greatest one before `c`. -/
theorem le_iff_of_previousChar? {c d x : Char} (h : previousChar? c = some d) :
    x ≤ d ↔ x < c := by
  have hx := char_toNat_lt_or x
  rw [char_lt_iff, char_le_iff]
  unfold previousChar? at h
  split at h
  · have hd := scalar?_eq_some_iff.mp h
    omega
  · rw [Option.ite_none_left_eq_some] at h
    have hd := scalar?_eq_some_iff.mp h.2
    omega

theorem le_of_previousChar? {c : Char} (h : previousChar? c = none) (x : Char) : c ≤ x := by
  have hc := c.valid
  rw [char_le_iff]
  unfold previousChar? at h
  split at h
  · have hd := scalar?_eq_none_iff.mp h
    simp [Nat.isValidChar] at hd
  · split at h
    · omega
    · have hd := scalar?_eq_none_iff.mp h
      simp only [Nat.isValidChar, UInt32.isValidChar, Char.toNat_val] at hd hc
      omega

namespace CharClass
variable {lo c : Char} {r : CharRange} {rs ss : List CharRange}

theorem contains_append :
    contains ⟨rs ++ ss⟩ c = true ↔ contains ⟨rs⟩ c = true ∨ contains ⟨ss⟩ c = true := by
  simp only [contains, List.any_append, Bool.or_eq_true]

/-- The gap between a place and a range behind it. -/
def gapBefore (lo : Char) (r : CharRange) : List CharRange :=
  match previousChar? r.lo with
  | some hi => if lo ≤ hi then [⟨lo, hi⟩] else []
  | none => []

theorem gapsFrom_cons : gapsFrom lo (r :: rs) = gapBefore lo r ++
    match nextChar? r.hi with
    | some next => gapsFrom next rs
    | none => [] := by
  rw [gapsFrom]
  cases nextChar? r.hi with
  | some next => rfl
  | none => exact (List.append_nil _).symm

theorem contains_gapBefore : contains ⟨gapBefore lo r⟩ c = true ↔ lo ≤ c ∧ c < r.lo := by
  unfold gapBefore
  split
  · next hi h =>
    rw [← le_iff_of_previousChar? h]
    split
    · simp [contains]
    · next hgap =>
      simp only [contains, List.any_nil, Bool.false_eq_true, false_iff]
      exact fun hc => hgap (Char.le_trans hc.1 hc.2)
  · next h =>
    simp only [contains, List.any_nil, Bool.false_eq_true, false_iff]
    exact fun hc => Char.not_le.mpr hc.2 (le_of_previousChar? h c)

/-- Behind a range, the ranges that follow have no character that is not greater. -/
theorem not_contains_of_le (hapart : Apart (r :: rs)) (hc : c ≤ r.hi) :
    ¬ contains ⟨rs⟩ c = true := by
  rw [contains_iff]
  rintro ⟨s, hs, hlo, -⟩
  exact Char.not_le.mpr ((List.pairwise_cons.mp hapart).1 s hs) (Char.le_trans hlo hc)

/-- The gaps between ascending ranges are what is in none of them. -/
theorem contains_gapsFrom (hapart : Apart rs) (hfilled : ∀ r ∈ rs, r.lo ≤ r.hi)
    (hlo : ∀ r ∈ rs, lo ≤ r.lo) :
    contains ⟨gapsFrom lo rs⟩ c = true ↔ lo ≤ c ∧ ¬ contains ⟨rs⟩ c = true := by
  induction rs generalizing lo with
  | nil =>
    have hlast : c ≤ Char.ofNat 0x10FFFF := char_le_iff.mpr (char_toNat_le c)
    simp [gapsFrom, contains, hlast]
  | cons r rs ih =>
    have hr : r.lo ≤ r.hi := hfilled r (by simp)
    have hlor : lo ≤ r.lo := hlo r (by simp)
    have hlater := not_contains_of_le (c := c) hapart
    obtain ⟨hgap, hrest⟩ := List.pairwise_cons.mp hapart
    rw [gapsFrom_cons, contains_append, contains_gapBefore, contains_cons]
    split
    · next d hnext =>
      have hd : ∀ s ∈ rs, d ≤ s.lo := fun s hs => (le_iff_of_nextChar? hnext).mpr (hgap s hs)
      rw [ih hrest (fun s hs => hfilled s (by simp [hs])) hd, le_iff_of_nextChar? hnext]
      simp only [char_le_iff, char_lt_iff] at *
      grind
    · next hnext =>
      have hc := le_of_nextChar? hnext c
      have hnil : contains ⟨[]⟩ c = false := rfl
      simp only [hlater hc, hnil, char_le_iff, char_lt_iff] at *
      grind

theorem contains_complement {s : CharClass} (hapart : Apart s.ranges)
    (hfilled : ∀ r ∈ s.ranges, r.lo ≤ r.hi) :
    s.complement.contains c = true ↔ ¬ s.contains c = true := by
  have hlo (d : Char) : Char.ofNat 0 ≤ d := char_le_iff.mpr (Nat.zero_le _)
  rw [complement, contains_gapsFrom hapart hfilled fun r _ => hlo r.lo]
  exact and_iff_right (hlo c)

/-! ## Shorthands and case -/

theorem IsShorthand.contains_complement {s : CharClass} (h : s.IsShorthand) :
    s.complement.contains c = true ↔ ¬ s.contains c = true := by
  refine CharClass.contains_complement h.apart ?_
  obtain rfl | rfl | rfl := h <;> decide

theorem IsShorthand.contains_of_le {s : CharClass} (h : s.IsShorthand) (hc : 0x80 ≤ c.toNat) :
    s.contains c = false := by
  have hlast : ∀ r ∈ s.ranges, r.hi.toNat < 0x80 := by obtain rfl | rfl | rfl := h <;> decide
  refine Bool.eq_false_iff.mpr fun hcontains => ?_
  obtain ⟨r, hr, -, hle⟩ := contains_iff.mp hcontains
  have := hlast r hr
  rw [char_le_iff] at hle
  omega

/-- The spellings of the two letters of which one is no character of a word. -/
def longSAndKelvin : List Char := ['S', 's', '\u017f', 'K', 'k', '\u212a']

/-- Apart from these two letters, an ASCII character and its fold have the same shorthands. -/
theorem foldPairs_shorthands : ∀ p ∈ foldPairs,
    (0x80 ≤ p.1.toNat ∧ 0x80 ≤ p.2.toNat) ∨ (digit.contains p.1 = digit.contains p.2 ∧
      space.contains p.1 = space.contains p.2 ∧
      if p.2 = 's' ∨ p.2 = 'k' then p.1 ∈ longSAndKelvin
      else word.contains p.1 = word.contains p.2) := by
  decide +kernel

theorem mem_longSAndKelvin : c ∈ longSAndKelvin ↔ simpleFold c = 's' ∨ simpleFold c = 'k' := by
  constructor
  · have hall : longSAndKelvin.all fun c => simpleFold c = 's' ∨ simpleFold c = 'k' := by
      decide +kernel
    simpa using List.all_eq_true.mp hall c
  · intro h
    obtain hpair | hself := mem_or_simpleFold_eq c
    · have hascii : (simpleFold c).toNat < 0x80 := by obtain h | h := h <;> rw [h] <;> decide
      obtain ⟨-, hbeyond⟩ | ⟨-, -, hmem⟩ := foldPairs_shorthands _ hpair
      · exact absurd hascii (Nat.not_lt.mpr hbeyond)
      · rwa [if_pos h] at hmem
    · rw [hself] at h
      obtain rfl | rfl := h <;> decide

theorem IsShorthand.contains_simpleFold {s : CharClass} (h : s.IsShorthand) :
    s.contains (simpleFold c) = s.contains c ∨ s = word ∧ c ∈ longSAndKelvin := by
  obtain hpair | hself := mem_or_simpleFold_eq c
  · obtain ⟨hc, hfold⟩ | ⟨hdigit, hspace, hword⟩ := foldPairs_shorthands _ hpair
    · rw [h.contains_of_le hc, h.contains_of_le hfold]
      exact .inl rfl
    · obtain rfl | rfl | rfl := h
      · exact .inl hdigit.symm
      · split at hword
        · exact .inr ⟨rfl, hword⟩
        · exact .inl hword.symm
      · exact .inl hspace.symm
  · exact .inl (congrArg s.contains hself)

/-- A member that agrees up to case with a character which is none is one of the two letters. -/
theorem IsShorthand.mem_longSAndKelvin {s : CharClass} {m d : Char} (h : s.IsShorthand)
    (hm : ¬ s.contains m = true) (hmc : simpleFold m = simpleFold c) (hd : s.contains d = true)
    (hdc : simpleFold d = simpleFold c) : s = word ∧ c ∈ longSAndKelvin ∧ m ∈ longSAndKelvin := by
  have hfolds : s = word ∧ (simpleFold c = 's' ∨ simpleFold c = 'k') := by
    obtain hsame | ⟨hword, hmem⟩ := h.contains_simpleFold (c := m)
    · obtain hsame' | ⟨hword, hmem⟩ := h.contains_simpleFold (c := d)
      · rw [hdc, ← hmc, hsame] at hsame'
        exact absurd (hsame'.trans hd) hm
      · exact ⟨hword, hdc ▸ CharClass.mem_longSAndKelvin.mp hmem⟩
    · exact ⟨hword, hmc ▸ CharClass.mem_longSAndKelvin.mp hmem⟩
  exact ⟨hfolds.1, CharClass.mem_longSAndKelvin.mpr hfolds.2,
    CharClass.mem_longSAndKelvin.mpr (hmc ▸ hfolds.2)⟩

end CharClass

end PatternAutomata
