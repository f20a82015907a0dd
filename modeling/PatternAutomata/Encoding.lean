import PatternAutomata.Automaton.Literal

/-!
# Encodings

How characters become bytes. ASCII and Latin-1 know only some characters; UTF-8 knows all.
-/
namespace PatternAutomata

/-- A way to write characters as bytes. -/
inductive Encoding where
  | ascii
  | latin1
  | utf8
deriving DecidableEq, Repr

namespace Encoding

/-- The UTF-8 form of a character. -/
def utf8Bytes (c : Char) : List UInt8 :=
  let n := c.toNat
  let tail (shift : Nat) : UInt8 := UInt8.ofNat (0x80 + n / shift % 64)
  if n < 0x80 then [UInt8.ofNat n]
  else if n < 0x800 then [UInt8.ofNat (0xC0 + n / 64), tail 1]
  else if n < 0x10000 then [UInt8.ofNat (0xE0 + n / 4096), tail 64, tail 1]
  else [UInt8.ofNat (0xF0 + n / 262144), tail 4096, tail 64, tail 1]

/-- The highest character the encoding can write. It can write every lower one too. -/
def lastChar : Encoding → Char
  | .ascii => '\x7f'
  | .latin1 => 'ÿ'
  | .utf8 => Char.ofNat 0x10FFFF

/-- The bytes of a character, if the encoding can write it. -/
def encode? (e : Encoding) (c : Char) : Option (List UInt8) :=
  if c ≤ e.lastChar then
    match e with
    | .ascii | .latin1 => some [UInt8.ofNat c.toNat]
    | .utf8 => some (utf8Bytes c)
  else none

/-- The bytes of a text, if the encoding can write all of its characters. -/
def encodeAll? (e : Encoding) (text : List Char) : Option (List UInt8) :=
  match text with
  | [] => some []
  | c :: cs =>
    match e.encode? c, e.encodeAll? cs with
    | some bytes, some rest => some (bytes ++ rest)
    | _, _ => none

/-- The byte ranges that make up any single character. Under UTF-8 they leave out overlong forms,
surrogates and everything past the last character. -/
def characterRanges : Encoding → List (List (UInt8 × UInt8))
  | .ascii => [[(0x00, 0x7F)]]
  | .latin1 => [[(0x00, 0xFF)]]
  | .utf8 =>
    let tail : UInt8 × UInt8 := (0x80, 0xBF)
    [ [(0x00, 0x7F)],
      [(0xC2, 0xDF), tail],
      [(0xE0, 0xE0), (0xA0, 0xBF), tail],
      [(0xE1, 0xEC), tail, tail],
      [(0xED, 0xED), (0x80, 0x9F), tail],
      [(0xEE, 0xEF), tail, tail],
      [(0xF0, 0xF0), (0x90, 0xBF), tail, tail],
      [(0xF1, 0xF3), tail, tail, tail],
      [(0xF4, 0xF4), (0x80, 0x8F), tail, tail] ]

/-- The name under which an encoding is shown. -/
def name : Encoding → String
  | .ascii => "ascii"
  | .latin1 => "latin1"
  | .utf8 => "utf-8"

/-- An ASCII capital as its small letter, any other character as itself. -/
def lowerAscii (c : Char) : Char :=
  if 'A' ≤ c ∧ c ≤ 'Z' then Char.ofNat (c.toNat + 32) else c

/-- The encoding of a name, in capital or small letters. -/
def ofName? (text : String) : Option Encoding :=
  let lower := String.ofList (text.toList.map lowerAscii)
  if lower = "ascii" then some .ascii
  else if lower = "latin1" ∨ lower = "latin-1" ∨ lower = "iso-8859-1" then some .latin1
  else if lower = "utf8" ∨ lower = "utf-8" then some .utf8
  else none

/-- What is said of a name that stands for no encoding. -/
def unknownMessage (text : String) : String := "unknown encoding: " ++ text

end Encoding

/-- Concatenate any single character of the encoding. -/
def Automaton.appendCharacter (a : Automaton) (e : Encoding) : Automaton :=
  a.appendChoice e.characterRanges

end PatternAutomata
