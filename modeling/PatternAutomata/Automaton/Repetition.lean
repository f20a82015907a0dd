import PatternAutomata.Automaton.Algebra

/-!
# Bounded repetition

An automaton for at least `least` and at most `most` texts in a row, and an estimate of its size
that is cheap enough to be asked first.
-/
namespace PatternAutomata

/-- The upper bound of a repetition. -/
inductive Bound where
  | finite (n : Nat)
  | infinity
deriving DecidableEq, Repr

/-- The printed form of a bound. -/
def Bound.text : Bound → String
  | .finite n => toString n
  | .infinity => "inf"

namespace Automaton

/-- Accepts at least `least` and at most `most` texts of `a` in a row; `least` many when `most` is
smaller. Beyond the texts that must be there, each one is optional on its own. -/
def repeatBetween (a : Automaton) (least : Nat) (most : Bound) : Automaton :=
  match least, most with
  | 0, .finite 1 => a.optional
  | 0, .infinity => a.star
  | 1, .infinity => a.concat a.star
  | m, .infinity => (a.power m).concat a.star
  | m, .finite n =>
    if n = m then a.power m else (a.power m).concat (a.optional.power (n - m))

/-- The largest number of states that can be spoken of. -/
def sizeCeiling : Nat := 0xFFFFFFFFFFFFFFFF

/-- The largest count that a pattern can spell. -/
def countCeiling : Nat := 0xFFFFFFFF

/-- The number of copies of the operand that a repetition holds. -/
def copiesHeld (least : Nat) : Bound → Nat
  | .finite n => max n least
  | .infinity => min (least + 1) countCeiling

/-- An upper estimate of the size of a repetition of an automaton of `states` states. Each copy may
bring two more states: the branch of an optional one and the hub of a star. -/
def repetitionEstimate (states least : Nat) (most : Bound) : Nat :=
  min ((states + 2) * max (copiesHeld least most) 1 + 1) sizeCeiling

end Automaton

end PatternAutomata
