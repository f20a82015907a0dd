import Mathlib.Tactic.ByContra
import PatternAutomata.Parser.Combine
import PatternAutomata.Proofs.Automaton.Repetition
import PatternAutomata.Proofs.Token

/-!
# The estimate of a repetition

Before a repetition is built, its size is estimated. A copy may bring two states of its own, and the
estimate has one more for the row of copies that have to be there. Where no copy has to be there,
and two at least may be, there are two such rows: the one that must be there is empty, but it is put
in front all the same, and nothing in the estimate makes up for its state. Every other repetition
keeps to its estimate.
-/
namespace PatternAutomata.Automaton
variable {a : Automaton} {least limit : Nat} {most : Bound}

/-- Whether no copy has to be there, and two or more may be. -/
def RoomForMany (least : Nat) (most : Bound) : Prop := least = 0 ∧ ∃ n, 2 ≤ n ∧ most = .finite n

theorem roomForMany_finite {n : Nat} : RoomForMany least (.finite n) ↔ least = 0 ∧ 2 ≤ n := by
  simp [RoomForMany]

theorem not_roomForMany_infinity : ¬ RoomForMany least .infinity := by
  simp [RoomForMany]

/-! ## Sizes -/

theorem size_repeatBetween_same (a : Automaton) (n : Nat) :
    (a.repeatBetween n (.finite n)).size = 1 + n * a.size := by
  rw [repeatBetween, if_pos rfl, size_power]
  rintro rfl hn
  cases hn

theorem size_repeatBetween_between {n : Nat} (hne : n ≠ least) (hone : ¬ (least = 0 ∧ n = 1)) :
    (a.repeatBetween least (.finite n)).size =
      2 + least * a.size + (n - least) * (a.size + 2) := by
  rw [repeatBetween, if_neg hne, size_concat, size_power, size_power, size_optional]
  · omega
  · exact fun hleast hn => hone ⟨hleast, hn⟩

theorem size_repeatBetween_infinity_le (a : Automaton) (least : Nat) :
    (a.repeatBetween least .infinity).size ≤ 2 + least * a.size + a.size := by
  rcases least with _ | _ | m
  · rw [repeatBetween, size_star]
    omega
  · rw [repeatBetween, size_concat, size_star]
    omega
  · rw [repeatBetween, size_concat, size_power, size_star]
    · omega
    all_goals simp

/-! ## Sizes and copies -/

theorem size_finite_le {n : Nat} (hroom : ¬ RoomForMany least (.finite n)) :
    (a.repeatBetween least (.finite n)).size ≤ (a.size + 2) * max (max n least) 1 + 1 := by
  rw [roomForMany_finite] at hroom
  by_cases hone : least = 0 ∧ n = 1
  · obtain ⟨rfl, rfl⟩ := hone
    simp [repeatBetween]
  by_cases hn : n = least
  · subst hn
    have hcopies : n * a.size ≤ max (max n n) 1 * (a.size + 2) :=
      Nat.mul_le_mul (by omega) (by omega)
    rw [size_repeatBetween_same, Nat.mul_comm (a.size + 2)]
    omega
  · -- The two rows make up the copies, and an obligatory copy has two states to spare.
    have hcopies : max (max n least) 1 = least + (n - least) := by omega
    have hleast : 1 ≤ least := by omega
    rw [size_repeatBetween_between hn hone, hcopies, Nat.mul_comm (a.size + 2), Nat.add_mul,
      Nat.mul_add least]
    omega

/-- The number of copies is cut off where counts end. There the operand is so small that the two
states of each copy make up for the copy that is missing. -/
theorem size_infinity_le (hleast : least ≤ countCeiling)
    (h : (a.size + 2) * max (copiesHeld least .infinity) 1 + 1 < sizeCeiling) :
    (a.repeatBetween least .infinity).size ≤
      (a.size + 2) * max (copiesHeld least .infinity) 1 + 1 := by
  have hsize := size_repeatBetween_infinity_le a least
  simp only [copiesHeld] at h ⊢
  by_cases hlast : least = countCeiling
  · have hcopies : max (min (least + 1) countCeiling) 1 = countCeiling := by
      simp only [countCeiling] at *
      omega
    rw [hcopies] at h ⊢
    subst hlast
    simp only [countCeiling, sizeCeiling] at *
    omega
  · have hcopies : max (min (least + 1) countCeiling) 1 = least + 1 := by omega
    rw [hcopies, Nat.mul_comm, Nat.add_mul, Nat.mul_add]
    omega

/-! ## Sizes and estimates -/

section
variable (h : repetitionEstimate a.size least most < sizeCeiling)
include h

theorem repetitionEstimate_eq :
    repetitionEstimate a.size least most = (a.size + 2) * max (copiesHeld least most) 1 + 1 := by
  unfold repetitionEstimate at h ⊢
  omega

/-- Room for many copies costs one state more than estimated. -/
theorem size_eq_of_roomForMany (hroom : RoomForMany least most) :
    (a.repeatBetween least most).size = repetitionEstimate a.size least most + 1 := by
  obtain ⟨rfl, n, hn, rfl⟩ := hroom
  have hcopies : max (copiesHeld 0 (.finite n)) 1 = n := by
    simp only [copiesHeld]
    omega
  rw [repetitionEstimate_eq h, hcopies, size_repeatBetween_between (by omega) (by omega)]
  simp only [Nat.zero_mul, Nat.sub_zero, Nat.mul_comm n]
  omega

theorem size_le_of_not_roomForMany (hroom : ¬ RoomForMany least most)
    (hleast : least ≤ countCeiling) :
    (a.repeatBetween least most).size ≤ repetitionEstimate a.size least most := by
  have hlarge := h
  rw [repetitionEstimate_eq h] at hlarge ⊢
  cases most with
  | finite n => exact size_finite_le hroom
  | infinity => exact size_infinity_le hleast hlarge

end

/-- A repetition is larger than estimated, by one state, exactly where no copy has to be there and
two or more may be. So a limit that the estimate keeps to is kept by what is built, but for the case
that the estimate reaches it there. Nothing is said where the estimate is past all numbers. -/
theorem repetitionEstimate_law (a : Automaton) {least : Nat} {most : Bound}
    (hleast : least ≤ countCeiling) (h : repetitionEstimate a.size least most < sizeCeiling) :
    (a.repeatBetween least most).size ≤ repetitionEstimate a.size least most + 1 ∧
    (repetitionEstimate a.size least most < (a.repeatBetween least most).size ↔
      RoomForMany least most) ∧
    ∀ limit, guardSize limit (repetitionEstimate a.size least most) = .ok () →
      (limit < (a.repeatBetween least most).size ↔
        RoomForMany least most ∧ limit = repetitionEstimate a.size least most) := by
  have hguard {limit : Nat}
      (hok : guardSize limit (repetitionEstimate a.size least most) = .ok ()) :
      repetitionEstimate a.size least most ≤ limit := by
    by_contra hlt
    rw [guardSize, if_pos (Nat.lt_of_not_le hlt)] at hok
    cases hok
  by_cases hroom : RoomForMany least most
  · have hsize := size_eq_of_roomForMany h hroom
    refine ⟨by omega, by simp [hroom, hsize], fun limit hok => ?_⟩
    have := hguard hok
    simp only [hroom, true_and]
    omega
  · have hsize := size_le_of_not_roomForMany h hroom hleast
    refine ⟨by omega, by simpa [hroom] using hsize, fun limit hok => ?_⟩
    have := hguard hok
    simp only [hroom, false_and, iff_false]
    omega

/-- As many copies as can be counted and more, and two copies none of which has to be there. -/
theorem repetitionEstimate_extremes : countCeiling ≤ countCeiling ∧ 0 ≤ countCeiling ∧
    repetitionEstimate nothing.size countCeiling .infinity < sizeCeiling ∧
    (nothing.repeatBetween countCeiling .infinity).size ≤
      repetitionEstimate nothing.size countCeiling .infinity ∧
    repetitionEstimate nothing.size 0 (.finite 2) < sizeCeiling ∧
    7 < (nothing.repeatBetween 0 (.finite 2)).size := by
  have hmany : repetitionEstimate nothing.size countCeiling .infinity < sizeCeiling := by decide
  have htwo : repetitionEstimate nothing.size 0 (.finite 2) < sizeCeiling := by decide
  refine ⟨Nat.le_refl _, Nat.zero_le _, hmany, ?_, htwo, ?_⟩
  · by_contra hlt
    exact not_roomForMany_infinity
      ((repetitionEstimate_law nothing (Nat.le_refl _) hmany).2.1.mp (Nat.lt_of_not_le hlt))
  · exact (repetitionEstimate_law nothing (Nat.zero_le _) htwo).2.1.mpr
      (roomForMany_finite.mpr ⟨rfl, Nat.le_refl 2⟩)

/-- A single letter, two copies at most and none that has to be there: eleven states are foreseen
and let pass, and twelve are built. -/
theorem repetitionEstimate_exceeded : (Bound.finite 2).Allows 0 ∧
    ∃ a, (Term.literal ['a']).toAutomaton? .ascii = some a ∧
      repetitionEstimate a.size 0 (.finite 2) = 11 ∧
      repeatOperand 11 .ascii (.term (.literal ['a'])) (.term (.count 0 (.finite 2))) =
        .ok (a.repeatBetween 0 (.finite 2)) ∧
      (a.repeatBetween 0 (.finite 2)).size = 12 := by
  have hestimate : repetitionEstimate (emptyText.appendTexts {['a']} .ascii).size 0 (.finite 2) =
      11 := by decide +kernel
  refine ⟨Nat.zero_le 2, emptyText.appendTexts {['a']} .ascii, rfl, hestimate, ?_, ?_⟩
  · change (guardSize 11 (repetitionEstimate (emptyText.appendTexts {['a']} .ascii).size 0
      (.finite 2)) >>= fun _ => _) = _
    rw [hestimate]
    rfl
  · decide +kernel

end PatternAutomata.Automaton
