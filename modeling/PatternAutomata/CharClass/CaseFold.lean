import PatternAutomata.CharClass.Basic
import PatternAutomata.CharClass.FoldTable

/-!
# Case folding

Two characters agree up to case when they have the same simple fold. Folding a class adds every
character that agrees with a member.
-/
namespace PatternAutomata

/-- The characters that do not fold to themselves, with their folds. -/
def foldPairs : List (Char × Char) :=
  foldTable.flatMap fun (first, last, step, image) =>
    (List.range ((last - first) / step + 1)).filterMap fun i =>
      match scalar? (first + i * step), scalar? (image + i * step) with
      | some c, some d => some (c, d)
      | _, _ => none

/-- The simple fold of a character. -/
def simpleFold (c : Char) : Char :=
  match foldPairs.find? (·.1 = c) with
  | some pair => pair.2
  | none => c

/-- Whether two characters differ in case at most. -/
def agreeUpToCase (c d : Char) : Bool := simpleFold c = simpleFold d

/-- The class with everything that agrees with a member up to case: first the folds of members join,
then the characters that fold to what is there. -/
def CharClass.foldCase (s : CharClass) : CharClass :=
  let images := foldPairs.filterMap fun (c, d) => if s.contains c then some ⟨d, d⟩ else none
  let folded := ofRanges (s.ranges ++ images)
  let sources := foldPairs.filterMap fun (c, d) => if folded.contains d then some ⟨c, c⟩ else none
  ofRanges (folded.ranges ++ sources)

end PatternAutomata
