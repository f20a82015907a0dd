import PatternAutomata.Text.Hidden

/-!
# Quoted texts in reports

A text in quotation marks, with escapes for everything that would not be read unmistakably.
-/
namespace PatternAutomata.Text

/-- A digit below 16 in small letters. -/
def hexDigit (n : Nat) : Char := if n < 10 then Char.ofNat (48 + n) else Char.ofNat (87 + n)

/-- The hexadecimal digits of a number, without leading zeros, in front of `tail`. -/
def hexDigits (n : Nat) (tail : List Char) : List Char :=
  if n < 16 then hexDigit n :: tail else hexDigits (n / 16) (hexDigit (n % 16) :: tail)

/-- The quoted form of a character: a short escape if there is one, else itself if it shows, else
its number in braces. -/
def quoteChar (c : Char) : List Char :=
  match c with
  | '\x00' => ['\\', '0']
  | '\t' => ['\\', 't']
  | '\r' => ['\\', 'r']
  | '\n' => ['\\', 'n']
  | '"' => ['\\', '"']
  | '\\' => ['\\', '\\']
  | c => if isHidden c then '\\' :: 'u' :: '\x7b' :: hexDigits c.toNat ['\x7d'] else [c]

/-- A text in quotation marks. -/
def quote (text : String) : String :=
  String.ofList ('"' :: text.toList.flatMap quoteChar ++ ['"'])

end PatternAutomata.Text
