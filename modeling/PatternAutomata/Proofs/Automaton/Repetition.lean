import PatternAutomata.Automaton.Repetition
import PatternAutomata.Proofs.Automaton.Algebra

/-!
# The meaning of bounded repetition

All the ways in which a repetition is put together obey one law: it matches a row of pieces whose
number lies within the bounds.
-/
namespace PatternAutomata.Automaton
variable {a : Automaton}

theorem power_succ (a : Automaton) (n : Nat) : a.power (n + 1) = (a.power n).concat a := by
  simp [power, List.replicate_succ', List.foldl_append]

theorem WellFormed.power (ha : a.WellFormed) (n : Nat) : (a.power n).WellFormed := by
  induction n with
  | zero => exact wellFormed_emptyText
  | succ n ih =>
    rw [power_succ]
    exact ih.concat ha

theorem meaning_power (ha : a.WellFormed) (n : Nat) :
    (a.power n).meaning = a.meaning.power n := by
  induction n with
  | zero => exact meaning_emptyText
  | succ n ih =>
    rw [power_succ, meaning_concat (ha.power n), ih]
    rfl

theorem WellFormed.optional (ha : a.WellFormed) : a.optional.WellFormed :=
  ha.union wellFormed_emptyText

theorem meaning_optional (ha : a.WellFormed) : a.optional.meaning = a.meaning.either .empty := by
  rw [optional, meaning_union ha, meaning_emptyText]

/-- How many copies of the operand a repetition may hold. -/
def mostCopies (least : Nat) : Bound → Nat
  | .finite n => least + n
  | .infinity => least + 1

/-- The ways in which a repetition is put together. The bounds alone decide which one is taken;
where several fit, they need not give the same automaton. -/
inductive Decomposition (a : Automaton) : Nat → Bound → Automaton → Prop where
  | optional : Decomposition a 0 (.finite 1) a.optional
  | star : Decomposition a 0 .infinity a.star
  | plus : Decomposition a 1 .infinity (a.concat a.star)
  | atLeast (m : Nat) : Decomposition a m .infinity ((a.power m).concat a.star)
  | exactly (m : Nat) : Decomposition a m (.finite m) (a.power m)
  | between (m n : Nat) :
    Decomposition a m (.finite n) ((a.power m).concat (a.optional.power (n - m)))

theorem decomposition_repeatBetween (a : Automaton) (least : Nat) (most : Bound) :
    Decomposition a least most (a.repeatBetween least most) := by
  unfold repeatBetween
  split
  · exact .optional
  · exact .star
  · exact .plus
  · exact .atLeast least
  · next n _ =>
    by_cases h : n = least
    · rw [if_pos h, h]
      exact .exactly least
    · rw [if_neg h]
      exact .between least n

namespace Decomposition
variable {c : Automaton} {least : Nat} {most : Bound}

theorem wellFormed (h : Decomposition a least most c) (ha : a.WellFormed) : c.WellFormed := by
  cases h with
  | optional => exact ha.optional
  | star => exact ha.star
  | plus => exact ha.concat ha.star
  | atLeast => exact (ha.power _).concat ha.star
  | exactly => exact ha.power _
  | between => exact (ha.power _).concat (ha.optional.power _)

/-- One law for all the ways. -/
theorem meaning_eq (h : Decomposition a least most c) (ha : a.WellFormed) :
    c.meaning = a.meaning.repeated least most := by
  cases h with
  | optional =>
    rw [meaning_optional ha, ← Meaning.power_seq_optional]
    simp [Meaning.power]
  | star =>
    rw [meaning_star ha, ← Meaning.power_seq_star]
    exact (Meaning.empty_seq _).symm
  | plus => rw [meaning_concat ha, meaning_star ha, ← Meaning.power_seq_star, Meaning.power_one]
  | atLeast => rw [meaning_concat (ha.power _), meaning_power ha, meaning_star ha,
      Meaning.power_seq_star]
  | exactly =>
    rw [meaning_power ha, ← Meaning.power_seq_optional, Nat.sub_self]
    exact (Meaning.seq_empty _).symm
  | between =>
    rw [meaning_concat (ha.power _), meaning_power ha, meaning_power ha.optional,
      meaning_optional ha, Meaning.power_seq_optional]

theorem size_le (h : Decomposition a least most c) :
    c.size ≤ mostCopies least most * (a.size + 2) + 2 := by
  cases h with
  | optional =>
    rw [size_optional, mostCopies]
    omega
  | star =>
    rw [size_star, mostCopies]
    omega
  | plus =>
    rw [size_concat, size_star, mostCopies]
    omega
  | atLeast =>
    rw [size_concat, size_star, size_power, mostCopies, Nat.add_mul, Nat.mul_add]
    omega
  | exactly =>
    rw [size_power, mostCopies, Nat.add_mul, Nat.mul_add]
    omega
  | between _ n =>
    have h := Nat.mul_le_mul_right (a.size + 2) (Nat.sub_le n least)
    rw [size_concat, size_power, size_power, size_optional, mostCopies, Nat.add_mul,
      Nat.mul_add least]
    omega

end Decomposition

theorem WellFormed.repeatBetween (ha : a.WellFormed) (least : Nat) (most : Bound) :
    (a.repeatBetween least most).WellFormed :=
  (decomposition_repeatBetween a least most).wellFormed ha

theorem meaning_repetition (ha : a.WellFormed) (least : Nat) (most : Bound) :
    (a.repeatBetween least most).meaning = a.meaning.repeated least most :=
  (decomposition_repeatBetween a least most).meaning_eq ha

theorem size_repeatBetween_le (a : Automaton) (least : Nat) (most : Bound) :
    (a.repeatBetween least most).size ≤ mostCopies least most * (a.size + 2) + 2 :=
  (decomposition_repeatBetween a least most).size_le

end PatternAutomata.Automaton
