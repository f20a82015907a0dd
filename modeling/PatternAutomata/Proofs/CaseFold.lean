import PatternAutomata.CharClass.CaseFold
import PatternAutomata.Proofs.CharClass
import Mathlib.Data.List.Chain
import Mathlib.Data.List.Nodup
import Mathlib.Data.Nat.Bitwise

/-!
# Folded classes

A folded class has the characters that agree with a member up to case, and no others. That rests on
two facts about the table: no character has two folds, and a fold is its own fold.
-/
namespace PatternAutomata

variable {c d : Char}

/-! ## The table -/

/-- A set of numbers, each of them a bit. -/
def bitSet (ns : List Nat) : Nat := ns.foldr (fun n bits => bits ||| 2 ^ n) 0

theorem testBit_bitSet {ns : List Nat} {n : Nat} : (bitSet ns).testBit n = true ↔ n ∈ ns := by
  induction ns with
  | nil => simp [bitSet]
  | cons m ns ih =>
    have hcons : bitSet (m :: ns) = bitSet ns ||| 2 ^ m := rfl
    rw [hcons, Nat.testBit_or, Nat.testBit_two_pow, Bool.or_eq_true, ih, decide_eq_true_eq,
      List.mem_cons, or_comm, eq_comm]

theorem not_mem_of_bitSet {ms ns : List Nat} {n : Nat} (h : bitSet ms &&& bitSet ns = 0)
    (hms : n ∈ ms) : n ∉ ns := by
  intro hns
  have hbit : (bitSet ms &&& bitSet ns).testBit n = true := by
    rw [Nat.testBit_and, testBit_bitSet.mpr hms, testBit_bitSet.mpr hns, Bool.and_self]
  simp [h] at hbit

/-- The table goes through the characters upwards. -/
theorem foldPairs_ascending : (foldPairs.map (·.1.toNat)).IsChain (· < ·) := by decide +kernel

-- As sets of bits the two lists are compared at once, not each with each.
theorem foldPairs_apart :
    bitSet (foldPairs.map (·.2.toNat)) &&& bitSet (foldPairs.map (·.1.toNat)) = 0 := by
  decide +kernel

/-- No character has two folds. -/
theorem foldPairs_unique {p q : Char × Char} (hp : p ∈ foldPairs) (hq : q ∈ foldPairs)
    (h : p.1 = q.1) : p = q := by
  have hnodup : (foldPairs.map (·.1.toNat)).Nodup := foldPairs_ascending.pairwise.nodup
  exact List.inj_on_of_nodup_map hnodup hp hq (congrArg Char.toNat h)

/-- No character that is a fold has another one. -/
theorem not_mem_foldPairs (h : (c, d) ∈ foldPairs) (x : Char) : (d, x) ∉ foldPairs := by
  intro hd
  exact not_mem_of_bitSet foldPairs_apart (List.mem_map_of_mem h) (List.mem_map_of_mem hd)

/-! ## The fold of a character -/

theorem simpleFold_of_mem (h : (c, d) ∈ foldPairs) : simpleFold c = d := by
  unfold simpleFold
  split
  · next pair hfind =>
    have hkey : pair.1 = c := by simpa using List.find?_some hfind
    rw [foldPairs_unique (List.mem_of_find?_eq_some hfind) h hkey]
  · next hnone => simpa using List.find?_eq_none.mp hnone (c, d) h

theorem mem_or_simpleFold_eq (c : Char) : (c, simpleFold c) ∈ foldPairs ∨ simpleFold c = c := by
  unfold simpleFold
  split
  · next pair hfind =>
    have hkey : pair.1 = c := by simpa using List.find?_some hfind
    exact .inl (hkey ▸ List.mem_of_find?_eq_some hfind)
  · exact .inr rfl

theorem simpleFold_fold (h : (c, d) ∈ foldPairs) : simpleFold d = d :=
  (mem_or_simpleFold_eq d).resolve_left (not_mem_foldPairs h _)

theorem agreeUpToCase_iff : agreeUpToCase c d = true ↔ simpleFold c = simpleFold d := by
  simp [agreeUpToCase]

theorem agreeUpToCase_symm (h : agreeUpToCase c d = true) : agreeUpToCase d c = true :=
  agreeUpToCase_iff.mpr (agreeUpToCase_iff.mp h).symm

/-! ## The fold of a class -/

namespace CharClass
variable {s : CharClass}

/-- A class beside which one character of some pairs of the table joins. -/
theorem contains_joined {p : Char × Char → Bool} {g : Char × Char → Char} :
    (ofRanges (s.ranges ++
        foldPairs.filterMap fun pair => if p pair then some ⟨g pair, g pair⟩ else none)).contains c
      = true ↔ s.contains c = true ∨ ∃ pair ∈ foldPairs, p pair = true ∧ g pair = c := by
  rw [contains_ofRanges, contains, List.any_append, Bool.or_eq_true]
  refine or_congr Iff.rfl ?_
  simp only [List.any_eq_true, List.mem_filterMap, Option.ite_none_right_eq_some, Option.some.injEq,
    Bool.and_eq_true, decide_eq_true_eq]
  constructor
  · rintro ⟨_, ⟨pair, hmem, hp, rfl⟩, hle, hge⟩
    exact ⟨pair, hmem, hp, Char.le_antisymm hle hge⟩
  · rintro ⟨pair, hmem, hp, rfl⟩
    exact ⟨_, ⟨pair, hmem, hp, rfl⟩, Char.le_refl _, Char.le_refl _⟩

/-- The class with the folds of its members. -/
def withImages (s : CharClass) : CharClass :=
  ofRanges (s.ranges ++ foldPairs.filterMap fun (c, d) => if s.contains c then some ⟨d, d⟩ else none)

theorem contains_withImages :
    s.withImages.contains d = true ↔ s.contains d = true ∨ ∃ c, (c, d) ∈ foldPairs ∧ s.contains c := by
  have h := contains_joined (c := d) (s := s) (p := fun pair => s.contains pair.1)
    (g := fun pair => pair.2)
  refine h.trans (or_congr Iff.rfl ?_)
  simp [and_comm]

theorem contains_foldCase_sources :
    s.foldCase.contains c = true ↔
      s.withImages.contains c = true ∨ ∃ d, (c, d) ∈ foldPairs ∧ s.withImages.contains d := by
  have h := contains_joined (c := c) (s := s.withImages) (p := fun pair => s.withImages.contains pair.2)
    (g := fun pair => pair.1)
  refine h.trans (or_congr Iff.rfl ?_)
  simp [and_comm]

/-- What joins first has the fold of a member. -/
theorem exists_of_contains_withImages (h : s.withImages.contains c = true) :
    ∃ m, s.contains m = true ∧ simpleFold m = simpleFold c := by
  obtain hc | ⟨m, hpair, hm⟩ := contains_withImages.mp h
  · exact ⟨c, hc, rfl⟩
  · exact ⟨m, hm, (simpleFold_of_mem hpair).trans (simpleFold_fold hpair).symm⟩

theorem contains_withImages_simpleFold {m : Char} (h : s.contains m = true) :
    s.withImages.contains (simpleFold m) = true := by
  obtain hpair | hself := mem_or_simpleFold_eq m
  · exact contains_withImages.mpr (.inr ⟨m, hpair, h⟩)
  · rw [hself]
    exact contains_withImages.mpr (.inl h)

/-- A folded class has what agrees with a member up to case. -/
theorem contains_foldCase :
    s.foldCase.contains c = true ↔ ∃ m, s.contains m = true ∧ agreeUpToCase m c = true := by
  simp only [agreeUpToCase_iff]
  constructor
  · intro h
    obtain hc | ⟨d, hpair, hd⟩ := contains_foldCase_sources.mp h
    · exact exists_of_contains_withImages hc
    · obtain ⟨m, hm, hfold⟩ := exists_of_contains_withImages hd
      rw [simpleFold_fold hpair] at hfold
      exact ⟨m, hm, hfold.trans (simpleFold_of_mem hpair).symm⟩
  · rintro ⟨m, hm, hfold⟩
    have hd := contains_withImages_simpleFold hm
    rw [hfold] at hd
    obtain hpair | hself := mem_or_simpleFold_eq c
    · exact contains_foldCase_sources.mpr (.inr ⟨_, hpair, hd⟩)
    · rw [hself] at hd
      exact contains_foldCase_sources.mpr (.inl hd)

/-- Nothing of a class that agrees with something in it up to case is missing once it is folded. -/
theorem foldCase_closed (h : agreeUpToCase c d = true) (hc : s.foldCase.contains c = true) :
    s.foldCase.contains d = true := by
  obtain ⟨m, hm, hmc⟩ := contains_foldCase.mp hc
  refine contains_foldCase.mpr ⟨m, hm, ?_⟩
  rw [agreeUpToCase_iff] at h hmc ⊢
  exact hmc.trans h

end CharClass

end PatternAutomata
