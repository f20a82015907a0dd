import Mathlib.Computability.Language
import PatternAutomata.Proofs.Automaton.Laws
import PatternAutomata.Proofs.Automaton.Lookup

/-!
# The language of a closure

The closure of an automaton has one state more, and edges back to it that run in the automaton
itself. Every way through it falls apart at that state into ways through the automaton, so that
nothing is accepted but rows of accepted pieces. Without anchors that is the star of the language.
-/
namespace PatternAutomata.Automaton
variable {a : Automaton}

/-- The texts that are accepted. -/
def language (a : Automaton) : Language UInt8 := {w | a.accepts w = true}

theorem mem_language {w : List UInt8} : w ∈ a.language ↔ a.meaning.whole w := accepts_iff a w

/-- A row of any number of pieces is matched, each of which sees of the two ends of the text what
the empty pieces next to it leave open. Without anchors that is the closure of the language. -/
theorem star_law (h : a.WellFormed) :
    a.star? = some a.star ∧
      (∀ b w e, a.star.meaning b w e ↔ ∃ pieces : List (List UInt8), w = pieces.flatten ∧
        ∀ before u after, pieces = before ++ u :: after →
          a.meaning (b && before.all List.isEmpty) u (e && after.all List.isEmpty)) ∧
      (a.Unanchored → a.star.language = KStar.kstar a.language) := by
  have hrow (b : Bool) (w : List UInt8) (e : Bool) : a.star.meaning b w e ↔
      ∃ pieces, w = pieces.flatten ∧ a.meaning.Row b pieces e := by
    rw [meaning_star h, Meaning.star_iff_row]
  refine ⟨star?_eq h, hrow, fun hfree => ?_⟩
  ext w
  rw [mem_language, Meaning.whole, hrow, Language.mem_kstar]
  simp only [hfree.placeless.row_iff, mem_language]

theorem star_anchoredLoop : anchoredLoop.WellFormed ∧ unanchoredLoop.WellFormed ∧
    unanchoredLoop.Unanchored ∧ anchoredLoop.star? = some anchoredLoop.star ∧
    (∀ b w e, anchoredLoop.star.meaning b w e ↔
      ∃ pieces : List (List UInt8), w = pieces.flatten ∧
        ∀ before u after, pieces = before ++ u :: after →
          anchoredLoop.meaning (b && before.all List.isEmpty) u
            (e && after.all List.isEmpty)) ∧
    unanchoredLoop.star.language = KStar.kstar unanchoredLoop.language := by
  have h : anchoredLoop.WellFormed := by decide
  have h' : unanchoredLoop.WellFormed := by decide
  have hfree : unanchoredLoop.Unanchored := by simp [Unanchored, unanchoredLoop]
  exact ⟨h, h', hfree, (star_law h).1, (star_law h).2.1, (star_law h').2.2 hfree⟩

end PatternAutomata.Automaton
