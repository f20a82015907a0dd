/-!
# Character classes

A class is a list of character ranges. Its canonical form has ascending ranges with gaps between
them: neighbouring ranges are merged when no number lies between them, so the ranges on the two
sides of the surrogates stay apart.
-/
namespace PatternAutomata

/-- The characters from `lo` to `hi`. -/
structure CharRange where
  lo : Char
  hi : Char
deriving DecidableEq, Repr

/-- The character of a number, if it is one. -/
def scalar? (n : Nat) : Option Char :=
  if h : n.isValidChar then some (Char.ofNatAux n h) else none

/-- The character after `c`, over the surrogates; none after the last. -/
def nextChar? (c : Char) : Option Char :=
  if c.toNat = 0xD7FF then scalar? 0xE000 else scalar? (c.toNat + 1)

/-- The character before `c`, over the surrogates; none before the first. -/
def previousChar? (c : Char) : Option Char :=
  if c.toNat = 0xE000 then scalar? 0xD7FF
  else if c.toNat = 0 then none
  else scalar? (c.toNat - 1)

namespace CharRange

/-- How many numbers lie in the range, surrogates counted too. -/
def width (r : CharRange) : Nat := r.hi.toNat + 1 - r.lo.toNat

/-- The characters of the range, ascending. -/
def chars (r : CharRange) : List Char := (List.range' r.lo.toNat r.width).filterMap scalar?

end CharRange

/-- A set of characters, as ranges. -/
structure CharClass where
  ranges : List CharRange := []
deriving DecidableEq, Repr

namespace CharClass

/-- Whether a character lies in one of the ranges. -/
def contains (s : CharClass) (c : Char) : Bool := s.ranges.any fun r => r.lo ≤ c && c ≤ r.hi

/-- Merge ascending ranges that overlap or touch. -/
def mergeRanges : List CharRange → List CharRange
  | [] => []
  | [r] => [r]
  | r :: s :: rs =>
    if s.lo.toNat ≤ r.hi.toNat + 1 then
      mergeRanges (⟨r.lo, if r.hi ≤ s.hi then s.hi else r.hi⟩ :: rs)
    else r :: mergeRanges (s :: rs)
termination_by rs => rs.length

/-- The canonical class of some ranges. -/
def ofRanges (ranges : List CharRange) : CharClass :=
  ⟨mergeRanges (ranges.mergeSort fun r s => r.lo ≤ s.lo)⟩

/-- The class of a single character. -/
def singleton (c : Char) : CharClass := ⟨[⟨c, c⟩]⟩

/-- The characters of either class. -/
def union (s t : CharClass) : CharClass := ofRanges (s.ranges ++ t.ranges)

/-- The characters of the class up to `last`. -/
def upTo (s : CharClass) (last : Char) : CharClass :=
  ⟨s.ranges.filterMap fun r =>
    if r.lo ≤ last then some ⟨r.lo, if r.hi ≤ last then r.hi else last⟩ else none⟩

/-- The gaps between canonical ranges, from `lo` on. -/
def gapsFrom (lo : Char) : List CharRange → List CharRange
  | [] => [⟨lo, Char.ofNat 0x10FFFF⟩]
  | r :: rs =>
    let before := match previousChar? r.lo with
      | some hi => if lo ≤ hi then [⟨lo, hi⟩] else []
      | none => []
    match nextChar? r.hi with
    | some next => before ++ gapsFrom next rs
    | none => before

/-- All characters that are not in the canonical class. -/
def complement (s : CharClass) : CharClass := ⟨gapsFrom (Char.ofNat 0) s.ranges⟩

/-- How many numbers the ranges cover, surrogates counted too. -/
def size (s : CharClass) : Nat := s.ranges.foldr (fun r n => r.width + n) 0

/-- The characters of the class, ascending. -/
def chars (s : CharClass) : List Char := s.ranges.flatMap (·.chars)

/-- The decimal digits. -/
def digit : CharClass := ⟨[⟨'0', '9'⟩]⟩

/-- The characters of a word: letters, digits and the underscore. -/
def word : CharClass := ⟨[⟨'0', '9'⟩, ⟨'A', 'Z'⟩, ⟨'_', '_'⟩, ⟨'a', 'z'⟩]⟩

/-- The blank characters. -/
def space : CharClass := ⟨[⟨'\t', '\r'⟩, ⟨' ', ' '⟩]⟩

end CharClass

end PatternAutomata
