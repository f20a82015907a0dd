import PatternAutomata.Automaton.Numbering
import PatternAutomata.Parser.Table

/-!
# Errors

Why a text is no pattern, or why its automaton is not built, with the wording of each reason.
-/
namespace PatternAutomata

/-- What went wrong while reading a token. -/
inductive LexCause where
  /-- A backslash before a character that means nothing after one. -/
  | invalidEscape (c : Char)
  /-- A backslash at the end. -/
  | unterminatedEscape
  | unterminatedClass
  | unterminatedString
  | emptyClass
  /-- The ends of a range are out of order, or one is no character. -/
  | invalidClassRange
  | invalidCount
  | countOutOfOrder (least most : Nat)
  | repetitionTooLarge (limit : Nat)
  | classTooLarge (limit : Nat)
  | nestLimitExceeded (limit : Nat)
  /-- Digits that spell no character. -/
  | invalidCodepoint
deriving DecidableEq, Repr

/-- The wording of a cause. -/
def LexCause.text : LexCause → String
  | .invalidEscape c => "invalid escape sequence \\" ++ c.toString
  | .unterminatedEscape => "incomplete escape sequence"
  | .unterminatedClass => "unclosed character class"
  | .unterminatedString => "unclosed quoted string"
  | .emptyClass => "empty character class"
  | .invalidClassRange => "invalid character class range"
  | .invalidCount => "invalid repetition count"
  | .countOutOfOrder least most =>
    "repetition count out of order: " ++ toString least ++ " > " ++ toString most
  | .repetitionTooLarge limit => "repetition count exceeds the limit of " ++ toString limit
  | .classTooLarge limit =>
    "character class expands to more than " ++ toString limit ++ " codepoints"
  | .nestLimitExceeded limit => "parentheses nested deeper than " ++ toString limit
  | .invalidCodepoint => "invalid codepoint in escape sequence"

/-- A failure to read a token, with the byte offset that it is blamed on. -/
structure LexError where
  offset : Nat
  cause : LexCause
deriving DecidableEq, Repr

/-- The wording of a failure to read a token. -/
def LexError.message (e : LexError) : String :=
  "error at offset " ++ toString e.offset ++ ": " ++ e.cause.text

/-- What no token that a scanner reads can lead to. -/
inductive Defect where
  /-- An automaton refers to a state that does not exist. -/
  | missingState
  /-- A repetition count is used where something to repeat is needed. -/
  | bareCount
  /-- The parser has nowhere to go after a reduction. -/
  | noTransition
deriving DecidableEq, Repr

/-- The wording of a defect. -/
def Defect.text : Defect → String
  | .missingState => "automaton refers to a state that does not exist"
  | .bareCount => "repetition count stands for no automaton"
  | .noTransition => "no parser state follows the reduction"

/-- What a parser meets only when its tokens lack the meaning that their kinds promise. -/
inductive Fault where
  /-- A symbol has no meaning where one is needed. -/
  | missingValue
  /-- What should be a repetition count is something else, with what was found in detail. -/
  | notCount (found : String)
  /-- A rule reduces more symbols than there are. -/
  | shortStack (rule : Rule)
  /-- There is no symbol at all. -/
  | emptyStack
  /-- Anything else, in words. -/
  | other (text : String)
deriving DecidableEq, Repr

/-- The wording of a fault. -/
def Fault.text : Fault → String
  | .missingValue => "grammar slot carries no value"
  | .notCount found => "expected a repetition count, found " ++ found
  | .shortStack rule => "parse stack too short for " ++ rule.name
  | .emptyStack => "parse stack is empty"
  | .other text => text

/-- Why a pattern is not compiled. -/
inductive Error where
  /-- The text is malformed. -/
  | lexical (e : LexError)
  /-- A token stands where the grammar has no place for it. -/
  | unexpected (offset : Nat) (found : Terminal)
  /-- An automaton would have more states than allowed. -/
  | tooLarge (limit : Nat)
  /-- The parser met tokens without the meaning that it relies on. -/
  | internal (fault : Fault)
  /-- A construction broke off. -/
  | broken (defect : Defect)
deriving DecidableEq, Repr

namespace Error

/-- The byte offset that the error is blamed on, if there is one. -/
def offset? : Error → Option Nat
  | .lexical e => some e.offset
  | .unexpected offset _ => some offset
  | .tooLarge _ | .internal _ | .broken _ => none

/-- The wording of an error. -/
def message : Error → String
  | .lexical e => e.message
  | .unexpected offset found =>
    "syntax error at offset " ++ toString offset ++ ": unexpected " ++ found.text
  | .tooLarge limit =>
    "compiled automaton would exceed the limit of " ++ toString limit ++ " states"
  | .internal fault => "internal error: " ++ fault.text
  | .broken defect => "internal error: " ++ defect.text

/-- The wording of the error behind an error, if there is one. -/
def sourceMessage? : Error → Option String
  | .lexical e => some e.message
  | .unexpected _ _ | .tooLarge _ | .internal _ | .broken _ => none

/-- A construction that is given up makes the pattern fail. -/
def ofBuild : BuildError → Error
  | .tooManyStates limit => .tooLarge limit
  | .missingState => .broken .missingState

end Error

end PatternAutomata
