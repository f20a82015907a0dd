/-!
# Anchors and labels

What one transition of an automaton stands for: a byte out of an inclusive range, or a
zero-width anchor of the text.
-/
namespace PatternAutomata

/-- A zero-width position of the text. -/
inductive Anchor where
  /-- Before the first byte. -/
  | textStart
  /-- After the last byte. -/
  | textEnd
deriving DecidableEq, Repr

/-- What a transition consumes. -/
inductive Label where
  /-- Any single byte from `lo` to `hi`; no byte at all when `hi < lo`. -/
  | bytes (lo hi : UInt8)
  /-- No byte, at the given position only. -/
  | anchor (a : Anchor)
deriving DecidableEq, Repr

namespace Label

/-- The label that consumes exactly `b`. -/
def byte (b : UInt8) : Label := .bytes b b

/-- Whether the label consumes `b` and nothing else. -/
def isByte (b : UInt8) : Label → Bool
  | .bytes lo hi => lo = b && hi = b
  | .anchor _ => false

/-- Whether the label consumes `b`. -/
def reads : Label → UInt8 → Bool
  | .bytes lo hi, b => lo ≤ b && b ≤ hi
  | .anchor _, _ => false

@[simp] theorem isByte_eq_true {b : UInt8} {l : Label} : l.isByte b = true ↔ l = .byte b := by
  cases l <;> simp [isByte, byte]

@[simp] theorem reads_bytes (lo hi b : UInt8) :
    (Label.bytes lo hi).reads b = true ↔ lo ≤ b ∧ b ≤ hi := by simp [reads]

@[simp] theorem reads_anchor (a : Anchor) (b : UInt8) : (Label.anchor a).reads b = false := rfl

@[simp] theorem reads_byte (c b : UInt8) : (Label.byte c).reads b = true ↔ b = c := by
  simp only [byte, reads_bytes]
  exact ⟨fun h => UInt8.le_antisymm h.2 h.1, fun h => h ▸ ⟨UInt8.le_refl _, UInt8.le_refl _⟩⟩

/-- The two upper-case hexadecimal digits of a byte. -/
def hexDigits (b : UInt8) : String :=
  let digit (n : Nat) : Char := if n < 10 then Char.ofNat (48 + n) else Char.ofNat (55 + n)
  String.ofList [digit (b.toNat / 16), digit (b.toNat % 16)]

/-- A visible ASCII character stands for itself in quotes, any other byte as `\xHH`. -/
def byteText (b : UInt8) : String :=
  if 0x21 ≤ b && b ≤ 0x7E then String.ofList ['\'', Char.ofNat b.toNat, '\'']
  else "\\x" ++ hexDigits b

/-- The printed form of a label. -/
def text : Label → String
  | .bytes lo hi => if lo = hi then byteText lo else byteText lo ++ "-" ++ byteText hi
  | .anchor .textStart => "^"
  | .anchor .textEnd => "$"

end Label

end PatternAutomata
