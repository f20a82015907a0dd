/-!
# Terminals

The kinds of tokens that the grammar tells apart.
-/
namespace PatternAutomata

/-- The kind of a token. -/
inductive Terminal where
  /-- A letter, a class or a quoted text. -/
  | letters
  | dot
  | caret
  | dollar
  | openParen
  | closeParen
  | pipe
  | amp
  | bang
  /-- A repetition. -/
  | count
  /-- The end of the pattern. -/
  | eof
deriving DecidableEq, Repr

/-- How a kind of token is spoken of. -/
def Terminal.text : Terminal → String
  | .letters => "literal"
  | .dot => "'.'"
  | .caret => "'^'"
  | .dollar => "'$'"
  | .openParen => "'('"
  | .closeParen => "')'"
  | .pipe => "'|'"
  | .amp => "'&'"
  | .bang => "'!'"
  | .count => "repetition"
  | .eof => "end of pattern"

end PatternAutomata
