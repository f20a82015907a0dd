import PatternAutomata.Automaton.Checked
import PatternAutomata.Encoding

/-!
# Terms

The meaning of one lexical unit of a pattern, and the automaton of it.
-/
namespace PatternAutomata

/-- A finite set of texts, in lexicographic order. -/
abbrev Texts := Std.ExtTreeSet (List Char)

/-- The meaning of a lexical unit. -/
inductive Term where
  /-- One of the texts; if negated, one character that is none of them. -/
  | choice (alternatives : Texts) (negated : Bool)
  /-- Any single character. -/
  | dot
  /-- An anchor of the text. -/
  | anchor (a : Anchor)
  /-- A repetition of what stands before it. -/
  | count (least : Nat) (most : Bound)
deriving DecidableEq

namespace Term

/-- One of the given characters. -/
def ofChars (chars : List Char) : Term :=
  .choice (Std.ExtTreeSet.ofList (chars.map fun c => [c])) false

/-- Exactly the given text. -/
def literal (text : List Char) : Term := .choice {text} false

end Term

/-- The byte strings of the texts that the encoding can write; the others are left out whole. -/
def Texts.encode (texts : Texts) (e : Encoding) : ByteStrings :=
  Std.ExtTreeSet.ofList (texts.toList.filterMap e.encodeAll?)

namespace Automaton

/-- Concatenate the choice between texts. When the encoding can write none of them, nothing is
accepted any more. -/
def appendTexts (a : Automaton) (texts : Texts) (e : Encoding) : Automaton :=
  let strings := texts.encode e
  if strings.isEmpty then nothing else a.appendTrie strings

/-- Concatenate the choice between texts, unless that looks at a state that does not exist. -/
def appendTexts? (a : Automaton) (texts : Texts) (e : Encoding) : Option Automaton :=
  let strings := texts.encode e
  if strings.isEmpty then some nothing else a.concat? (trie strings)

/-- Any byte string that is not a single character of the encoding. -/
def nonCharacters (e : Encoding) : Automaton := (emptyText.appendCharacter e).complement

/-- A single character of the encoding that is none of the texts. What is neither one of them nor
anything but a character remains. -/
def characterExcept (texts : Texts) (e : Encoding) : Automaton :=
  ((emptyText.appendTexts texts e).union (nonCharacters e)).complement.prune

end Automaton

/-- The automaton of a term by itself. A repetition has none. -/
def Term.toAutomaton? (t : Term) (e : Encoding) : Option Automaton :=
  match t with
  | .choice alternatives false => some (Automaton.emptyText.appendTexts alternatives e)
  | .choice alternatives true => some (Automaton.characterExcept alternatives e)
  | .dot => some (Automaton.emptyText.appendCharacter e)
  | .anchor a => some (Automaton.emptyText.appendAnchor a)
  | .count _ _ => none

end PatternAutomata
