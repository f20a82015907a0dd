import PatternAutomata.CharClass.Basic
import PatternAutomata.Scanner.Cursor

/-!
# Escapes

What a backslash and the characters after it stand for: one character, or a shorthand for a class.
-/
namespace PatternAutomata

/-- The meaning of an escape. -/
inductive Escape where
  | char (c : Char)
  /-- The members of a class, or all other characters. -/
  | shorthand (members : CharClass) (negated : Bool)
deriving DecidableEq

/-- The value of a hexadecimal digit. -/
def hexDigit? (c : Char) : Option Nat :=
  if '0' ≤ c ∧ c ≤ '9' then some (c.toNat - 48)
  else if 'a' ≤ c ∧ c ≤ 'f' then some (c.toNat - 87)
  else if 'A' ≤ c ∧ c ≤ 'F' then some (c.toNat - 55)
  else none

/-- The visible ASCII characters that are neither letters nor digits. -/
def isPunctuation (c : Char) : Bool :=
  ('!' ≤ c && c ≤ '/') || (':' ≤ c && c ≤ '@') || ('[' ≤ c && c ≤ '\x60') || ('\x7b' ≤ c && c ≤ '~')

/-- Two hexadecimal digits. Reading stops at the first character that is none, and that is read
too. Failures are blamed on `origin`. -/
def readHexPair (origin : Nat) (cur : Cursor) : Read Char :=
  match cur.rest with
  | [] => (.error ⟨origin, .invalidCodepoint⟩, cur)
  | c :: rest =>
    let afterOne := cur.past c rest
    match hexDigit? c, rest with
    | none, _ | some _, [] => (.error ⟨origin, .invalidCodepoint⟩, afterOne)
    | some high, d :: rest =>
      let afterTwo := afterOne.past d rest
      match hexDigit? d with
      | none => (.error ⟨origin, .invalidCodepoint⟩, afterTwo)
      | some low => (.ok (Char.ofNat (high * 16 + low)), afterTwo)

/-- Hexadecimal digits up to a closing brace, of which `value` is read so far, and at least one
digit if `started`. Reading stops at the first character that cannot go on, and that is read too. -/
def readHexBraced (origin value : Nat) (started : Bool) : List Char → Nat → Read Char
  | [], offset => (.error ⟨origin, .invalidCodepoint⟩, ⟨[], offset⟩)
  | c :: rest, offset =>
    let offset := offset + c.utf8Size
    if c = '\x7d' ∧ started then
      match scalar? value with
      | some c => (.ok c, ⟨rest, offset⟩)
      | none => (.error ⟨origin, .invalidCodepoint⟩, ⟨rest, offset⟩)
    else
      match hexDigit? c with
      | none => (.error ⟨origin, .invalidCodepoint⟩, ⟨rest, offset⟩)
      | some digit =>
        let value := value * 16 + digit
        if 0xFFFFFFFF < value then (.error ⟨origin, .invalidCodepoint⟩, ⟨rest, offset⟩)
        else readHexBraced origin value true rest offset

/-- A code point in braces, the opening one not yet read. -/
def readCodepoint (origin : Nat) (cur : Cursor) : Read Char :=
  match cur.rest with
  | '\x7b' :: rest => readHexBraced origin 0 false rest (cur.past '\x7b' rest).offset
  | _ => (.error ⟨origin, .invalidCodepoint⟩, cur)

/-- The escape whose backslash, at `origin`, has just been read. -/
def readEscape (origin : Nat) (cur : Cursor) : Read Escape :=
  match cur.rest with
  | [] => (.error ⟨origin, .unterminatedEscape⟩, cur)
  | c :: rest =>
    let cur := cur.past c rest
    match c with
    | 'n' => (.ok (.char '\n'), cur)
    | 't' => (.ok (.char '\t'), cur)
    | 'r' => (.ok (.char '\r'), cur)
    | 'f' => (.ok (.char '\x0c'), cur)
    | 'v' => (.ok (.char '\x0b'), cur)
    | '0' => (.ok (.char '\x00'), cur)
    | 'x' => let read := readHexPair origin cur; (read.1.map .char, read.2)
    | 'u' => let read := readCodepoint origin cur; (read.1.map .char, read.2)
    | 'd' => (.ok (.shorthand .digit false), cur)
    | 'w' => (.ok (.shorthand .word false), cur)
    | 's' => (.ok (.shorthand .space false), cur)
    | 'D' => (.ok (.shorthand .digit true), cur)
    | 'W' => (.ok (.shorthand .word true), cur)
    | 'S' => (.ok (.shorthand .space true), cur)
    | c =>
      if isPunctuation c || c = ' ' then (.ok (.char c), cur)
      else (.error ⟨origin, .invalidEscape c⟩, cur)

theorem reaches_readHexPair (origin : Nat) (cur : Cursor) :
    ∃ taken, cur.Reaches taken (readHexPair origin cur).2 := by
  obtain ⟨rest, offset⟩ := cur
  unfold readHexPair
  dsimp only
  split
  · exact ⟨_, .refl _⟩
  · next c rest =>
    have h : Cursor.Reaches ⟨c :: rest, offset⟩ [c] _ := Cursor.reaches_past rfl
    split
    · exact ⟨_, h⟩
    · exact ⟨_, h⟩
    · next d rest _ =>
      have h' := h.trans (Cursor.reaches_past rfl)
      split <;> exact ⟨_, h'⟩

theorem reaches_readHexBraced (origin value : Nat) (started : Bool) (text : List Char)
    (offset : Nat) :
    ∃ taken, Cursor.Reaches ⟨text, offset⟩ taken
      (readHexBraced origin value started text offset).2 := by
  induction text generalizing value started offset with
  | nil => exact ⟨_, .refl _⟩
  | cons c rest ih =>
    have h : Cursor.Reaches ⟨c :: rest, offset⟩ [c] _ := Cursor.reaches_past rfl
    unfold readHexBraced
    dsimp only
    split
    · split <;> exact ⟨_, h⟩
    · split
      · exact ⟨_, h⟩
      · split
        · exact ⟨_, h⟩
        · obtain ⟨taken, h'⟩ := ih _ true (offset + c.utf8Size)
          exact ⟨_, h.trans h'⟩

theorem reaches_readCodepoint (origin : Nat) (cur : Cursor) :
    ∃ taken, cur.Reaches taken (readCodepoint origin cur).2 := by
  obtain ⟨rest, offset⟩ := cur
  unfold readCodepoint
  dsimp only
  split
  · next rest' =>
    obtain ⟨taken, h⟩ := reaches_readHexBraced origin 0 false rest'
      (Cursor.past ⟨'\x7b' :: rest', offset⟩ '\x7b' rest').offset
    exact ⟨_, (Cursor.reaches_past rfl).trans h⟩
  · exact ⟨_, .refl _⟩

theorem reaches_readEscape (origin : Nat) (cur : Cursor) :
    ∃ taken, cur.Reaches taken (readEscape origin cur).2 := by
  obtain ⟨rest, offset⟩ := cur
  unfold readEscape
  cases rest with
  | nil => exact ⟨_, .refl _⟩
  | cons c rest =>
    have h : Cursor.Reaches ⟨c :: rest, offset⟩ [c] _ := Cursor.reaches_past rfl
    dsimp only
    split <;> try exact ⟨_, h⟩
    · obtain ⟨taken, h'⟩ := reaches_readHexPair origin (Cursor.past ⟨'x' :: rest, offset⟩ 'x' rest)
      exact ⟨_, h.trans h'⟩
    · obtain ⟨taken, h'⟩ :=
        reaches_readCodepoint origin (Cursor.past ⟨'u' :: rest, offset⟩ 'u' rest)
      exact ⟨_, h.trans h'⟩
    · split <;> exact ⟨_, h⟩

end PatternAutomata
